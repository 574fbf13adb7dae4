import BafsNvme.Execution
import BafsNvme.QueuePairs

/-! Any number of create and delete calls in progress at once. A call stands at one of its
points between two actions; an action is one lock section, one command or the code up to the
next of these. -/

namespace BafsNvme

open Machine

inductive CreatePoint where
  | reserved
  | listed
  | cqReady
  | cqCreated
  | sqReady
  | sqCreated
  deriving DecidableEq

inductive DeletePoint where
  | entered
  | tested
  | sqDeleted
  | cqDeleted
  | cqFreed
  | sqFreed
  | pairFreed
  deriving DecidableEq

/-- A call in progress, with the local variables it has set. -/
inductive QpCall where
  | create (i newQp : Nat) (point : CreatePoint)
  | delete (i : Nat) (delQp : Option Nat) (point : DeletePoint)
  deriving DecidableEq

inductive QpAction where
  | reserve
  | allocPair (i newQp : Nat)
  | allocCq (i newQp : Nat) (addr : BitVec 64)
  | crtIoCq (i newQp status : Nat)
  | allocSq (i newQp : Nat) (addr : BitVec 64)
  | crtIoSq (i newQp status : Nat)
  | finishPair (i newQp : Nat)
  | enter (i : Nat)
  | test (i : Nat) (delQp : Option Nat)
  | delIoSq (i : Nat) (delQp : Option Nat) (status : Nat)
  | delIoCq (i : Nat) (delQp : Option Nat) (status : Nat)
  | freeCq (i delQp : Nat)
  | freeSq (i delQp : Nat)
  | freePair (i delQp : Nat)
  | clearMark (i delQp : Nat)

inductive TearDown where
  | delSq
  | delCq
  | freeCq
  | freeSq
  | freePair
  deriving DecidableEq

structure TornPart where
  part : TearDown
  pair : Nat
  built : Bool
  deriving DecidableEq

namespace QpAction

/-- Where the caller stands before the action; `none` is outside any call. -/
def before : QpAction → Option QpCall
  | reserve => none
  | allocPair i newQp => some (.create i newQp .reserved)
  | allocCq i newQp _ => some (.create i newQp .listed)
  | crtIoCq i newQp _ => some (.create i newQp .cqReady)
  | allocSq i newQp _ => some (.create i newQp .cqCreated)
  | crtIoSq i newQp _ => some (.create i newQp .sqReady)
  | finishPair i newQp => some (.create i newQp .sqCreated)
  | enter _ => none
  | test i delQp => some (.delete i delQp .entered)
  | delIoSq i delQp _ => some (.delete i delQp .tested)
  | delIoCq i delQp _ => some (.delete i delQp .sqDeleted)
  | freeCq i delQp => some (.delete i (some delQp) .cqDeleted)
  | freeSq i delQp => some (.delete i (some delQp) .cqFreed)
  | freePair i delQp => some (.delete i (some delQp) .sqFreed)
  | clearMark i delQp => some (.delete i (some delQp) .pairFreed)

def effect (s : IoState) : QpAction → IoState
  | reserve => s.reserve.2
  | allocPair i newQp => s.allocPair i newQp
  | allocCq i newQp addr => s.allocCq i newQp addr
  | crtIoCq i _ status => s.crtIoCq i status
  | allocSq i newQp addr => s.allocSq i newQp addr
  | crtIoSq i _ status => s.crtIoSq i status
  | finishPair i newQp => s.finishPair i newQp
  | enter _ => s
  | test _ _ => s
  | delIoSq i _ status => s.delIoSq i status
  | delIoCq i _ status => s.delIoCq i status
  | freeCq i delQp => s.freeCq i delQp
  | freeSq i delQp => s.freeSq i delQp
  | freePair i _ => s.freePair i
  | clearMark i _ => s.clearMark i

def after (s : IoState) : QpAction → Option QpCall
  | reserve => s.reserve.1.map fun (i, newQp) => .create i newQp .reserved
  | allocPair i newQp => some (.create i newQp .listed)
  | allocCq i newQp _ => some (.create i newQp .cqReady)
  | crtIoCq i newQp _ => some (.create i newQp .cqCreated)
  | allocSq i newQp _ => some (.create i newQp .sqReady)
  | crtIoSq i newQp _ => some (.create i newQp .sqCreated)
  | finishPair _ _ => none
  | enter i => some (.delete i (s.aqp.ioQpList i) .entered)
  | test i delQp => if s.aqp.queueUseMark i then some (.delete i delQp .tested) else none
  | delIoSq i delQp _ => some (.delete i delQp .sqDeleted)
  | delIoCq i delQp _ => some (.delete i delQp .cqDeleted)
  | freeCq i delQp => some (.delete i (some delQp) .cqFreed)
  | freeSq i delQp => some (.delete i (some delQp) .sqFreed)
  | freePair i delQp => some (.delete i (some delQp) .pairFreed)
  | clearMark _ _ => none

def wholeCreate (i newQp : Nat) (cqAddr sqAddr : BitVec 64) (cqStatus sqStatus : Nat) :
    List QpAction :=
  [reserve, allocPair i newQp, allocCq i newQp cqAddr, crtIoCq i newQp cqStatus,
    allocSq i newQp sqAddr, crtIoSq i newQp sqStatus, finishPair i newQp]

def wholeDelete (i delQp sqStatus cqStatus : Nat) : List QpAction :=
  [enter i, test i (some delQp), delIoSq i (some delQp) sqStatus, delIoCq i (some delQp) cqStatus,
    freeCq i delQp, freeSq i delQp, freePair i delQp, clearMark i delQp]

def validIndex (s : IoState) : QpAction → Bool
  | enter i => i < s.aqp.numIoQueuePairsSupported
  | _ => true

end QpAction

/-- The slot that a call has found marked and will clear. -/
def deleting : Option QpCall → Option Nat
  | some (.delete i _ point) => if point = .entered then none else some i
  | _ => none

/-- What has happened so far: the pair that last took each slot, the slot of each pair that
is in construction or not deleted yet, the pairs returned by their create, the deletes that
found the mark set, the marks that deletes cleared, the completion statuses and the parts of
pairs torn down. A pair is named by its block. -/
structure QpHistory where
  owner : Nat → Nat
  place : Nat → Option Nat
  built : Nat → Bool
  passed : Nat
  cleared : Nat
  statuses : List Nat
  torn : List TornPart

namespace QpHistory

def tear (h : QpHistory) (part : TearDown) (pair : Nat) : QpHistory :=
  { h with torn := h.torn ++ [⟨part, pair, h.built pair⟩] }

def status (h : QpHistory) (status : Nat) : QpHistory :=
  { h with statuses := h.statuses ++ [status] }

/-- A command that names queue identifier `i + 1` is about the pair that took slot `i` last. -/
def record (h : QpHistory) (s : IoState) : QpAction → QpHistory
  | .reserve =>
      match s.reserve.1 with
      | none => h
      | some (i, newQp) =>
          { h with
            owner := Function.update h.owner i newQp
            place := Function.update h.place newQp (some i) }
  | .crtIoCq _ _ status => h.status status
  | .crtIoSq _ _ status => h.status status
  | .finishPair _ newQp => { h with built := Function.update h.built newQp true }
  | .test i _ => if s.aqp.queueUseMark i then { h with passed := h.passed + 1 } else h
  | .delIoSq i _ status => (h.status status).tear .delSq (h.owner i)
  | .delIoCq i _ status => (h.status status).tear .delCq (h.owner i)
  | .freeCq _ delQp => h.tear .freeCq delQp
  | .freeSq _ delQp => h.tear .freeSq delQp
  | .freePair i _ =>
      match s.aqp.ioQpList i with
      | none => h
      | some pair => h.tear .freePair pair
  | .clearMark i _ =>
      { h with
        place := Function.update h.place (h.owner i) none
        cleared := h.cleared + (s.aqp.queueUseMark i).toNat }
  | _ => h

end QpHistory

structure QpSystem (ι : Type) where
  io : IoState
  call : ι → Option QpCall
  hist : QpHistory

structure QpEvent (ι : Type) where
  thread : ι
  action : QpAction

namespace QpSystem

variable {ι : Type} [DecidableEq ι]

def next (s : QpSystem ι) (e : QpEvent ι) : QpSystem ι where
  io := e.action.effect s.io
  call := Function.update s.call e.thread (e.action.after s.io)
  hist := s.hist.record s.io e.action

def step (s : QpSystem ι) (e : QpEvent ι) : Option (QpSystem ι) :=
  if s.call e.thread = e.action.before ∧ e.action.validIndex s.io then some (s.next e) else none

def Quiet (s : QpSystem ι) : Prop := ∀ t, s.call t = none

def start (io : IoState) : QpSystem ι where
  io := io
  call := fun _ => none
  hist := ⟨fun _ => 0, fun _ => none, fun _ => false, 0, 0, [], []⟩

/-- The machine over the tables as `admin_init` sets them up: no pair, empty controller
tables, and anything in memory that is not initialised. -/
def machine (ι : Type) [DecidableEq ι] (cap0 : Dword) (cpl : Cpl) :
    Machine (QpSystem ι) (QpEvent ι) where
  init s := ∃ dstrd cqDb sqDb sqDmaAddrs cqDmaAddrs heap dma,
    s = start ⟨adminInitTables cap0 dstrd cqDb sqDb cpl sqDmaAddrs cqDmaAddrs, heap, 0, [], dma,
      .empty⟩
  step := step

def fresh (cap0 : Dword) (cpl : Cpl) : QpSystem ι :=
  let blank : IoQueue := ⟨0, 0, 0, 0, 0, 0, 0⟩
  start ⟨adminInitTables cap0 0 0 0 cpl (fun _ => 0) fun _ => 0, fun _ => ⟨blank, blank⟩, 0, [],
    ⟨[], []⟩, .empty⟩

theorem fresh_init (cap0 : Dword) (cpl : Cpl) :
    (machine ι cap0 cpl).init (fresh cap0 cpl) :=
  ⟨_, _, _, _, _, _, _, rfl⟩

theorem step_cases {s s' : QpSystem ι} {e : QpEvent ι} (taken : s.step e = some s') :
    s.call e.thread = e.action.before ∧ e.action.validIndex s.io = true ∧ s' = s.next e := by
  rw [step] at taken
  split at taken
  · next enabled => exact ⟨enabled.1, enabled.2, (Option.some.inj taken).symm⟩
  · cases taken

theorem step_taken {s : QpSystem ι} {e : QpEvent ι} (here : s.call e.thread = e.action.before)
    (valid : e.action.validIndex s.io = true) : s.step e = some (s.next e) :=
  if_pos ⟨here, valid⟩

theorem next_other {s : QpSystem ι} {e : QpEvent ι} {t : ι} (other : t ≠ e.thread) :
    (s.next e).call t = s.call t :=
  Function.update_of_ne other ..

theorem next_same (s : QpSystem ι) (e : QpEvent ι) :
    (s.next e).call e.thread = e.action.after s.io :=
  Function.update_self ..

/-- One thread, in call `c` over `io`, takes these actions one after another and ends in
call `c'` over `io'`. -/
def Follows (io : IoState) (c : Option QpCall) : List QpAction → IoState → Option QpCall → Prop
  | [], io', c' => io = io' ∧ c = c'
  | a :: rest, io', c' =>
      c = a.before ∧ a.validIndex io = true ∧ Follows (a.effect io) (a.after io) rest io' c'

theorem run_follows {cap0 : Dword} {cpl : Cpl} {as : List QpAction} {s : QpSystem ι} {t : ι}
    {io' : IoState} {c' : Option QpCall} (follows : Follows s.io (s.call t) as io' c') :
    ∃ s', (machine ι cap0 cpl).run s (as.map (QpEvent.mk t)) = some s' ∧ s'.io = io' ∧
      s'.call t = c' := by
  induction as generalizing s with
  | nil => exact ⟨s, rfl, follows⟩
  | cons a rest ih =>
      obtain ⟨here, valid, remaining⟩ := follows
      have taken : (machine ι cap0 cpl).step s ⟨t, a⟩ = some (s.next ⟨t, a⟩) := step_taken here valid
      have after : (s.next ⟨t, a⟩).call t = a.after s.io := next_same s ⟨t, a⟩
      obtain ⟨s', ran, facts⟩ := ih (by rw [after]; exact remaining)
      refine ⟨s', ?_, facts⟩
      rw [List.map_cons, run, taken, Option.bind_some, ran]

theorem create_follows {s : IoState} {i newQp : Nat} (taken : s.reserve.1 = some (i, newQp))
    (cqAddr sqAddr : BitVec 64) (cqStatus sqStatus : Nat) :
    Follows s none (QpAction.wholeCreate i newQp cqAddr sqAddr cqStatus sqStatus)
      (adminCreateIoQueuePair s cqAddr sqAddr cqStatus sqStatus).2 none := by
  obtain ⟨io, reserved⟩ : ∃ io, s.reserve = (some (i, newQp), io) :=
    ⟨s.reserve.2, Prod.ext taken rfl⟩
  simp [QpAction.wholeCreate, Follows, QpAction.before, QpAction.validIndex, QpAction.effect,
    QpAction.after, adminCreateIoQueuePair, reserved]

theorem delete_follows {s io : IoState} {i delQp sqStatus cqStatus : Nat}
    (bound : i < s.aqp.numIoQueuePairsSupported) (marked : s.aqp.queueUseMark i = true)
    (listed : s.aqp.ioQpList i = some delQp)
    (returned : adminDeleteIoQueuePair s i sqStatus cqStatus = some io) :
    Follows s none (QpAction.wholeDelete i delQp sqStatus cqStatus) io none := by
  simp only [adminDeleteIoQueuePair, marked, listed, Option.map_some] at returned
  simpa [QpAction.wholeDelete, Follows, QpAction.before, QpAction.validIndex, QpAction.effect,
    QpAction.after, bound, marked, listed] using returned

theorem create_run {cap0 : Dword} {cpl : Cpl} (s : QpSystem ι) {t : ι} (idle : s.call t = none)
    (cqAddr sqAddr : BitVec 64) (cqStatus sqStatus : Nat) :
    ∃ (as : List QpAction) (s' : QpSystem ι),
      (machine ι cap0 cpl).run s (as.map (QpEvent.mk t)) = some s' ∧
      s'.io = (adminCreateIoQueuePair s.io cqAddr sqAddr cqStatus sqStatus).2 ∧
      s'.call t = none := by
  cases taken : s.io.reserve.1 with
  | none =>
      obtain ⟨io, refused⟩ : ∃ io, s.io.reserve = (none, io) := ⟨s.io.reserve.2, Prod.ext taken rfl⟩
      refine ⟨[.reserve], run_follows ?_⟩
      simp [Follows, idle, QpAction.before, QpAction.validIndex, QpAction.effect, QpAction.after,
        adminCreateIoQueuePair, refused]
  | some slot =>
      refine ⟨QpAction.wholeCreate slot.1 slot.2 cqAddr sqAddr cqStatus sqStatus, run_follows ?_⟩
      rw [idle]
      exact create_follows taken cqAddr sqAddr cqStatus sqStatus

theorem delete_run {cap0 : Dword} {cpl : Cpl} (s : QpSystem ι) {t : ι} (idle : s.call t = none)
    {i : Nat} (bound : i < s.io.aqp.numIoQueuePairsSupported) {sqStatus cqStatus : Nat}
    {io : IoState} (returned : adminDeleteIoQueuePair s.io i sqStatus cqStatus = some io) :
    ∃ (as : List QpAction) (s' : QpSystem ι),
      (machine ι cap0 cpl).run s (as.map (QpEvent.mk t)) = some s' ∧ s'.io = io ∧
      s'.call t = none := by
  cases marked : s.io.aqp.queueUseMark i with
  | false =>
      rw [adminDeleteIoQueuePair, if_pos marked, Option.some.injEq] at returned
      subst returned
      refine ⟨[.enter i, .test i (s.io.aqp.ioQpList i)], run_follows ?_⟩
      simp [Follows, idle, QpAction.before, QpAction.validIndex, QpAction.effect, QpAction.after,
        bound, marked]
  | true =>
      cases listed : s.io.aqp.ioQpList i with
      | none => simp [adminDeleteIoQueuePair, marked, listed] at returned
      | some delQp =>
          refine ⟨QpAction.wholeDelete i delQp sqStatus cqStatus, run_follows ?_⟩
          rw [idle]
          exact delete_follows bound marked listed returned

end QpSystem

end BafsNvme
