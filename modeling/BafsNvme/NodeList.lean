import BafsNvme.Execution
import BafsNvme.LinkedRing

/-! `struct list` and `struct list_node` of `kernel/nvme/list.c`, and the loops of `ctrl.c`
and `admin.c` that look a structure up through its node. -/

namespace BafsNvme

open Machine

/-- A pointer to a `struct list_node`: the `head` inside a list, or the node inside a
structure. -/
inductive NodePtr (L N : Type) where
  | head (l : L)
  | node (n : N)
  deriving DecidableEq

structure ListHeap (L N : Type) extends Links (NodePtr L N) where
  list : NodePtr L N → Option L

namespace ListHeap

variable {L N : Type} [DecidableEq L] [DecidableEq N]

def listNodeInit (h : ListHeap L N) (e : NodePtr L N) : ListHeap L N where
  list := Function.update h.list e none
  next := Function.update h.next e none
  prev := Function.update h.prev e none

/-- `&e->list->head` of a NULL `list` is NULL, as `head` is the first member. -/
def listNext (h : ListHeap L N) (e : NodePtr L N) : Option (NodePtr L N) :=
  if h.next e ≠ (h.list e).map .head then h.next e else none

def listInit (h : ListHeap L N) (l : L) : ListHeap L N where
  list := Function.update h.list (.head l) (some l)
  prev := Function.update h.prev (.head l) (some (.head l))
  next := Function.update h.next (.head l) (some (.head l))

/-- `none` is a write through a NULL `last`. -/
def listInsert (h : ListHeap L N) (l : L) (e : NodePtr L N) : Option (ListHeap L N) :=
  (h.prev (.head l)).map fun last =>
    let h := { h with next := Function.update h.next last (some e) }
    let h := { h with list := Function.update h.list e (some l) }
    let h := { h with prev := Function.update h.prev e (some last) }
    let h := { h with next := Function.update h.next e (some (.head l)) }
    { h with prev := Function.update h.prev (.head l) (some e) }

/-- `none` is a write through a NULL `prev` or `next`. -/
def listRemove (h : ListHeap L N) (e : Option (NodePtr L N)) : Option (ListHeap L N) :=
  match e with
  | none => some h
  | some e =>
      match h.list e with
      | none => some h
      | some l =>
          if e = .head l then some h
          else
            (h.prev e).bind fun before =>
              let h := { h with next := Function.update h.next before (h.next e) }
              (h.next e).map fun after =>
                let h := { h with prev := Function.update h.prev after (h.prev e) }
                h.listNodeInit e

/-- The loop of the three searches, from the node `e` on: `test` is the condition on the
structure around a node. `none` is a search that has not ended after `fuel` steps, or that
takes a list's head for such a structure. -/
def findLoop (h : ListHeap L N) (test : N → Bool) : Nat → Option (NodePtr L N) → Option (Option N)
  | 0, _ => none
  | _ + 1, none => some none
  | _ + 1, some (.head _) => none
  | fuel + 1, some (.node n) =>
      if test n then some (some n) else findLoop h test fuel (h.listNext (.node n))

end ListHeap

structure CtrlFields (P C : Type) where
  pdev : P
  cdev : C

structure IobufFields (T : Type) where
  owner : T
  virtAddr : BitVec 64

def PAGE_MASK : BitVec 64 := ~~~(4096#64 - 1#64)

def GPU_PAGE_MASK : BitVec 64 := ~~~((1#64 <<< 16) - 1#64)

namespace ListHeap

variable {L N : Type} [DecidableEq L] [DecidableEq N]

def ctrlFindByPciDev {P C : Type} [DecidableEq P] (h : ListHeap L N) (ctrl : N → CtrlFields P C)
    (fuel : Nat) (l : L) (pdev : P) : Option (Option N) :=
  h.findLoop (fun c => (ctrl c).pdev == pdev) fuel (h.listNext (.head l))

def ctrlFindByInode {P C : Type} [DecidableEq C] (h : ListHeap L N) (ctrl : N → CtrlFields P C)
    (fuel : Nat) (l : L) (iCdev : C) : Option (Option N) :=
  h.findLoop (fun c => (ctrl c).cdev == iCdev) fuel (h.listNext (.head l))

def iobufMatches {T : Type} [DecidableEq T] (current : T) (vaddr : BitVec 64)
    (m : IobufFields T) : Bool :=
  m.owner == current &&
    (m.virtAddr == (vaddr &&& PAGE_MASK) || m.virtAddr == (vaddr &&& GPU_PAGE_MASK))

def iobufFind {T : Type} [DecidableEq T] (h : ListHeap L N) (iobuf : N → IobufFields T)
    (current : T) (fuel : Nat) (l : L) (vaddr : BitVec 64) : Option (Option N) :=
  h.findLoop (fun m => iobufMatches current vaddr (iobuf m)) fuel (h.listNext (.head l))

end ListHeap

/-- What the lists mean: which are initialised, the sequence of each, the list each node is
in, and the nodes that have been initialised or inserted. -/
structure ListSpec (L N : Type) where
  live : L → Bool
  seq : L → List N
  place : N → Option L
  known : N → Bool

inductive ListEvent (L N : Type) where
  | init (l : L)
  | nodeInit (n : N)
  | insert (l : L) (n : N)
  | remove (e : Option (NodePtr L N))

namespace ListSpec

variable {L N : Type} [DecidableEq L] [DecidableEq N]

/-- The calls callers may make: a fresh list, a node in no list, or for a removal anything
that was initialised before. -/
def permits (s : ListSpec L N) : ListEvent L N → Bool
  | .init l => !s.live l
  | .nodeInit n => s.place n == none
  | .insert l n => s.live l && s.place n == none
  | .remove none => true
  | .remove (some (.head l)) => s.live l
  | .remove (some (.node n)) => s.known n

def apply (s : ListSpec L N) : ListEvent L N → ListSpec L N
  | .init l => { s with live := Function.update s.live l true }
  | .nodeInit n => { s with known := Function.update s.known n true }
  | .insert l n =>
      { s with
        seq := Function.update s.seq l (s.seq l ++ [n])
        place := Function.update s.place n (some l)
        known := Function.update s.known n true }
  | .remove (some (.node n)) =>
      match s.place n with
      | none => s
      | some l =>
          { s with
            seq := Function.update s.seq l ((s.seq l).erase n)
            place := Function.update s.place n none }
  | .remove _ => s

def target (s : ListSpec L N) : ListEvent L N → Option L
  | .init l => some l
  | .insert l _ => some l
  | .remove (some (.node n)) => s.place n
  | _ => none

end ListSpec

structure ListSystem (L N : Type) where
  heap : ListHeap L N
  spec : ListSpec L N

namespace ListSystem

variable {L N : Type} [DecidableEq L] [DecidableEq N]

def effect (h : ListHeap L N) : ListEvent L N → Option (ListHeap L N)
  | .init l => some (h.listInit l)
  | .nodeInit n => some (h.listNodeInit (.node n))
  | .insert l n => h.listInsert l (.node n)
  | .remove e => h.listRemove e

def step (s : ListSystem L N) (e : ListEvent L N) : Option (ListSystem L N) :=
  if s.spec.permits e then (effect s.heap e).map fun h => ⟨h, s.spec.apply e⟩ else none

def machine (L N : Type) [DecidableEq L] [DecidableEq N] :
    Machine (ListSystem L N) (ListEvent L N) where
  init s := s.spec = ⟨fun _ => false, fun _ => [], fun _ => none, fun _ => false⟩
  step := step

end ListSystem

end BafsNvme
