import BafsNvme.NodeListRefinement

/-! One list whose nodes lie in numbered blocks of memory, as the driver keeps its controllers
and its host buffers: the sequence it stands for and what each call of `list.c` does to it. -/

namespace BafsNvme

open Links ListSystem

namespace ListHeap

variable {L N : Type} [DecidableEq L] [DecidableEq N]

def walk (h : ListHeap L N) : Nat → Option (NodePtr L N) → List N
  | fuel + 1, some (.node n) => n :: walk h fuel (h.listNext (.node n))
  | _, _ => []

theorem walk_visits {h : ListHeap L N} (ns : List N) (a : NodePtr L N) (fuel : Nat)
    (visits : Visits h.listNext a (ns.map .node)) (enough : ns.length ≤ fuel) :
    h.walk fuel (h.listNext a) = ns := by
  induction ns generalizing a fuel with
  | nil =>
      have ended : h.listNext a = none := visits
      rw [ended]
      cases fuel <;> rfl
  | cons n rest ih =>
      obtain ⟨found, later⟩ := visits
      obtain ⟨fuel, rfl⟩ := Nat.exists_eq_succ_of_ne_zero
        (Nat.ne_of_gt (Nat.lt_of_lt_of_le (Nat.succ_pos _) enough))
      rw [found, walk, ih (.node n) fuel later (Nat.le_of_succ_le_succ enough)]

end ListHeap

/-- The heap holds one list, of the blocks `seq`, which were all handed out before `blocks`. -/
structure BlockList (h : ListHeap Unit Nat) (blocks : Nat) (seq : List Nat) : Prop where
  held : ∃ spec : ListSpec Unit Nat, Represents h spec ∧ spec.live () = true ∧ spec.seq () = seq
  bound : ∀ n ∈ seq, n < blocks

namespace BlockList

variable {h : ListHeap Unit Nat} {blocks : Nat} {seq : List Nat}

theorem listInit (h : ListHeap Unit Nat) (blocks : Nat) : BlockList (h.listInit ()) blocks [] := by
  have anywhere : Represents h ⟨fun _ => false, fun _ => [], fun _ => none, fun _ => false⟩ := by
    constructor <;> simp
  have start := anywhere.init (l := ()) rfl
  refine ⟨⟨_, start, ?_, ?_⟩, ?_⟩
  · simp [ListSpec.apply]
  · simp [ListSpec.apply]
  · intro n member
    cases member

theorem nodup (list : BlockList h blocks seq) : seq.Nodup := by
  obtain ⟨spec, rep, live, rfl⟩ := list.held
  exact rep.seq_nodup live

theorem length_le (list : BlockList h blocks seq) : seq.length ≤ blocks := by
  have inside : seq ⊆ List.range blocks := fun n member => List.mem_range.mpr (list.bound n member)
  calc
    seq.length ≤ (List.range blocks).length := (list.nodup.subperm inside).length_le
    _ = blocks := List.length_range

theorem visits (list : BlockList h blocks seq) :
    Visits h.listNext (.head ()) (seq.map .node) := by
  obtain ⟨spec, rep, live, rfl⟩ := list.held
  exact rep.forward live

theorem walk (list : BlockList h blocks seq) : h.walk blocks (h.listNext (.head ())) = seq :=
  ListHeap.walk_visits seq (.head ()) blocks list.visits list.length_le

theorem findLoop (list : BlockList h blocks seq) (test : Nat → Bool) :
    h.findLoop test (blocks + 1) (h.listNext (.head ())) = some (seq.find? test) :=
  ListHeap.findLoop_visits test seq _ _ list.visits (Nat.lt_succ_of_le list.length_le)

theorem listNext_head (list : BlockList h blocks seq) :
    h.listNext (.head ()) = seq.head?.map .node := by
  have visits := list.visits
  cases seq with
  | nil => exact visits
  | cons n rest => exact visits.1

theorem fresh (list : BlockList h blocks seq) : blocks ∉ seq :=
  fun member => lt_irrefl _ (list.bound blocks member)

theorem grow (list : BlockList h blocks seq) : BlockList h (blocks + 1) seq :=
  ⟨list.held, fun n member => Nat.lt_succ_of_lt (list.bound n member)⟩

theorem listNodeInit (list : BlockList h blocks seq) {n : Nat} (away : n ∉ seq) :
    BlockList (h.listNodeInit (.node n)) blocks seq := by
  obtain ⟨⟨spec, rep, live, rfl⟩, bound⟩ := list
  have unplaced : spec.place n = none := by
    cases place : spec.place n with
    | none => rfl
    | some l => exact absurd ((rep.placed n l).mp place) away
  exact ⟨⟨_, rep.nodeInit unplaced, live, rfl⟩, bound⟩

theorem listInsert (list : BlockList h blocks seq) {n : Nat} (away : n ∉ seq) (known : n < blocks) :
    ∃ h', h.listInsert () (.node n) = some h' ∧ BlockList h' blocks (seq ++ [n]) := by
  obtain ⟨⟨spec, rep, live, rfl⟩, bound⟩ := list
  have unplaced : spec.place n = none := by
    cases place : spec.place n with
    | none => rfl
    | some l => exact absurd ((rep.placed n l).mp place) away
  obtain ⟨h', ran, represents, _⟩ := rep.insert live unplaced
  refine ⟨h', ran, ⟨_, represents, live_kept live, ?_⟩, ?_⟩
  · simp [ListSpec.apply]
  · intro m member
    rcases List.mem_append.mp member with old | new
    · exact bound m old
    · exact List.mem_singleton.mp new ▸ known

theorem listRemove (list : BlockList h blocks seq) {n : Nat} (member : n ∈ seq) :
    ∃ h', h.listRemove (some (.node n)) = some h' ∧ BlockList h' blocks (seq.erase n) := by
  obtain ⟨⟨spec, rep, live, rfl⟩, bound⟩ := list
  have place := (rep.placed n ()).mpr member
  obtain ⟨h', ran, represents, _⟩ := rep.removeMember place
  refine ⟨h', ran, ⟨_, represents, live_kept live, ?_⟩, ?_⟩
  · simp [ListSpec.apply, place]
  · exact fun m inside => bound m (List.mem_of_mem_erase inside)

end BlockList

end BafsNvme
