import BafsNvme.QueuePairCalls

/-! Which call a slot belongs to, and what is torn down when, in runs whose deletes only find
standing pairs. -/

namespace BafsNvme

open Machine

def TearDown.rank : TearDown → Nat
  | delSq => 2
  | delCq => 3
  | freeCq => 4
  | freeSq => 5
  | freePair => 6

def CreatePoint.rank : CreatePoint → Nat
  | reserved => 0
  | listed => 1
  | cqReady => 2
  | cqCreated => 3
  | sqReady => 4
  | sqCreated => 5

def DeletePoint.rank : DeletePoint → Nat
  | entered => 0
  | tested => 1
  | sqDeleted => 2
  | cqDeleted => 3
  | cqFreed => 4
  | sqFreed => 5
  | pairFreed => 6

/-- The slot a call works on: a create from its first lock section on, a delete once it has
found the mark. -/
def slotOf : Option QpCall → Option Nat
  | some (.create i _ _) => some i
  | c => deleting c

theorem slotOf_delete {i : Nat} {delQp : Option Nat} {point : DeletePoint}
    (found : point ≠ .entered) : slotOf (some (.delete i delQp point)) = some i := by
  simp [slotOf, deleting, found]

namespace QpSystem

variable {ι : Type} [DecidableEq ι]

/-- A delete that finds its mark set finds a pair that its create has returned, that the
pointer it read still names, and that no other delete works on. -/
def findsStanding (s : QpSystem ι) (e : QpEvent ι) : Prop :=
  match e.action with
  | .test i delQp => s.io.aqp.queueUseMark i = true →
      s.hist.built (s.hist.owner i) = true ∧ s.io.aqp.ioQpList i = delQp ∧
        ∀ t, deleting (s.call t) ≠ some i
  | _ => True

instance [Fintype ι] (s : QpSystem ι) (e : QpEvent ι) : Decidable (s.findsStanding e) :=
  match e with
  | ⟨_, .test i delQp⟩ =>
      inferInstanceAs (Decidable (s.io.aqp.queueUseMark i = true →
        s.hist.built (s.hist.owner i) = true ∧ s.io.aqp.ioQpList i = delQp ∧
          ∀ t, deleting (s.call t) ≠ some i))
  | ⟨_, .reserve⟩ | ⟨_, .allocPair ..⟩ | ⟨_, .allocCq ..⟩ | ⟨_, .crtIoCq ..⟩ | ⟨_, .allocSq ..⟩
  | ⟨_, .crtIoSq ..⟩ | ⟨_, .finishPair ..⟩ | ⟨_, .enter _⟩ | ⟨_, .delIoSq ..⟩ | ⟨_, .delIoCq ..⟩
  | ⟨_, .freeCq ..⟩ | ⟨_, .freeSq ..⟩ | ⟨_, .freePair ..⟩ | ⟨_, .clearMark ..⟩ => .isTrue trivial

def TornOnce (s : QpSystem ι) : Prop :=
  (s.hist.torn.map fun p => (p.part, p.pair)).Nodup ∧ ∀ p ∈ s.hist.torn, p.built = true

def PastPart (s : QpSystem ι) (part : TearDown) (i : Nat) : Prop :=
  ∃ t delQp point, s.call t = some (.delete i delQp point) ∧ part.rank ≤ point.rank

structure PairInv (s : QpSystem ι) : Prop where
  creating : ∀ t i newQp point, s.call t = some (.create i newQp point) →
    s.io.aqp.queueUseMark i = true ∧ s.hist.owner i = newQp ∧ s.hist.built newQp = false ∧
      (point ≠ .reserved → s.io.aqp.ioQpList i = some newQp)
  deletes : ∀ t i delQp point, s.call t = some (.delete i delQp point) → point ≠ .entered →
    s.io.aqp.queueUseMark i = true ∧ delQp = some (s.hist.owner i) ∧
      s.hist.built (s.hist.owner i) = true
  alone : ∀ t t' i, slotOf (s.call t) = some i → slotOf (s.call t') = some i → t = t'
  listed : ∀ i, s.io.aqp.queueUseMark i = true → s.hist.built (s.hist.owner i) = true →
    s.io.aqp.ioQpList i = some (s.hist.owner i)
  owners : ∀ i, s.io.aqp.queueUseMark i = true → s.hist.owner i < s.io.blocks
  distinct : ∀ i j, s.io.aqp.queueUseMark i = true → s.io.aqp.queueUseMark j = true →
    s.hist.owner i = s.hist.owner j → i = j
  places : ∀ h i, s.hist.place h = some i → s.io.aqp.queueUseMark i = true ∧ s.hist.owner i = h
  unborn : ∀ h, s.io.blocks ≤ h → s.hist.built h = false
  torn : ∀ p ∈ s.hist.torn, p.built = true ∧ s.hist.built p.pair = true ∧
    ∀ i, s.io.aqp.queueUseMark i = true → s.hist.owner i = p.pair → s.PastPart p.part i
  once : (s.hist.torn.map fun p => (p.part, p.pair)).Nodup

theorem PairInv.start {cap0 : Dword} {cpl : Cpl} {s : QpSystem ι}
    (initial : (machine ι cap0 cpl).init s) : PairInv s := by
  obtain ⟨dstrd, cqDb, sqDb, sqDmaAddrs, cqDmaAddrs, heap, dma, rfl⟩ := initial
  constructor <;> simp [QpSystem.start, adminInitTables, slotOf, deleting]

variable {s : QpSystem ι} {t : ι}

theorem call_next {a : QpAction} {t' : ι} {c : QpCall} (now : (s.next ⟨t, a⟩).call t' = some c) :
    (t' = t ∧ a.after s.io = some c) ∨ (t' ≠ t ∧ s.call t' = some c) := by
  by_cases mine : t' = t
  · subst mine
    exact .inl ⟨rfl, (next_same s ⟨t', a⟩).symm.trans now⟩
  · exact .inr ⟨mine, (next_other mine).symm.trans now⟩

omit [DecidableEq ι] in
theorem PastPart.busy {part : TearDown} {i : Nat} (past : s.PastPart part i) :
    ∃ t, slotOf (s.call t) = some i ∧ ∃ delQp point, s.call t = some (.delete i delQp point) ∧
      part.rank ≤ point.rank := by
  obtain ⟨t, delQp, point, there, rank⟩ := past
  refine ⟨t, ?_, delQp, point, there, rank⟩
  rw [there]
  apply slotOf_delete
  rintro rfl
  cases part <;> simp [TearDown.rank, DeletePoint.rank] at rank

theorem PastPart.next {part : TearDown} {i : Nat} (past : s.PastPart part i) {a : QpAction}
    (other : ∀ delQp point, s.call t = some (.delete i delQp point) → point = .entered) :
    (s.next ⟨t, a⟩).PastPart part i := by
  obtain ⟨t', _, delQp, point, there, rank⟩ := past.busy
  have elsewhere : t' ≠ t := by
    rintro rfl
    rw [other delQp point there] at rank
    cases part <;> simp [TearDown.rank, DeletePoint.rank] at rank
  exact ⟨t', delQp, point, (next_other (e := ⟨t, a⟩) elsewhere).trans there, rank⟩

theorem PairInv.torn_next (inv : PairInv s) {a : QpAction}
    (torn : (s.next ⟨t, a⟩).hist.torn = s.hist.torn)
    (stays : ∀ h, s.hist.built h = true → (s.next ⟨t, a⟩).hist.built h = true)
    (slots : ∀ h i, s.hist.built h = true → (s.next ⟨t, a⟩).io.aqp.queueUseMark i = true →
      (s.next ⟨t, a⟩).hist.owner i = h → s.io.aqp.queueUseMark i = true ∧ s.hist.owner i = h ∧
        ∀ delQp point, s.call t = some (.delete i delQp point) → point = .entered) :
    ∀ p ∈ (s.next ⟨t, a⟩).hist.torn, p.built = true ∧ (s.next ⟨t, a⟩).hist.built p.pair = true ∧
      ∀ i, (s.next ⟨t, a⟩).io.aqp.queueUseMark i = true → (s.next ⟨t, a⟩).hist.owner i = p.pair →
        (s.next ⟨t, a⟩).PastPart p.part i := by
  intro p member
  rw [torn] at member
  obtain ⟨flagged, whole, under_way⟩ := inv.torn p member
  refine ⟨flagged, stays _ whole, ?_⟩
  intro i marked owned
  obtain ⟨marked', owned', begun⟩ := slots _ i whole marked owned
  exact (under_way i marked' owned').next begun

theorem alone_next (index : Option QpCall → Option Nat)
    (alone : ∀ t t' i, index (s.call t) = some i → index (s.call t') = some i → t = t')
    {a : QpAction}
    (only : ∀ i, index (a.after s.io) = some i → ∀ t', t' ≠ t → index (s.call t') ≠ some i) :
    ∀ t₁ t₂ i, index ((s.next ⟨t, a⟩).call t₁) = some i →
      index ((s.next ⟨t, a⟩).call t₂) = some i → t₁ = t₂ := by
  have mine : (s.next ⟨t, a⟩).call t = a.after s.io := next_same s ⟨t, a⟩
  intro t₁ t₂ i first second
  by_cases one : t₁ = t <;> by_cases two : t₂ = t
  · rw [one, two]
  · rw [one, mine] at first
    rw [next_other (e := ⟨t, a⟩) two] at second
    exact absurd second (only i first t₂ two)
  · rw [two, mine] at second
    rw [next_other (e := ⟨t, a⟩) one] at first
    exact absurd first (only i second t₁ one)
  · rw [next_other (e := ⟨t, a⟩) one] at first
    rw [next_other (e := ⟨t, a⟩) two] at second
    exact alone t₁ t₂ i first second

omit [DecidableEq ι] in
theorem PairInv.alone_same (inv : PairInv s) {a : QpAction} (here : s.call t = a.before)
    (same : slotOf (a.after s.io) = slotOf a.before) :
    ∀ i, slotOf (a.after s.io) = some i → ∀ t', t' ≠ t → slotOf (s.call t') ≠ some i := by
  intro i after t' other there
  rw [same, ← here] at after
  exact other (inv.alone t' t i there after)

structure TablesKept (s : QpSystem ι) (a : QpAction) : Prop where
  marks : (a.effect s.io).aqp.queueUseMark = s.io.aqp.queueUseMark
  list : (a.effect s.io).aqp.ioQpList = s.io.aqp.ioQpList
  blocks : (a.effect s.io).blocks = s.io.blocks
  owner : (s.hist.record s.io a).owner = s.hist.owner
  place : (s.hist.record s.io a).place = s.hist.place
  built : (s.hist.record s.io a).built = s.hist.built
  torn : (s.hist.record s.io a).torn = s.hist.torn

theorem PairInv.kept (inv : PairInv s) {a : QpAction} (kept : TablesKept s a)
    (creating : ∀ i newQp point, a.after s.io = some (.create i newQp point) →
      s.io.aqp.queueUseMark i = true ∧ s.hist.owner i = newQp ∧ s.hist.built newQp = false ∧
        (point ≠ .reserved → s.io.aqp.ioQpList i = some newQp))
    (deletes : ∀ i delQp point, a.after s.io = some (.delete i delQp point) → point ≠ .entered →
      s.io.aqp.queueUseMark i = true ∧ delQp = some (s.hist.owner i) ∧
        s.hist.built (s.hist.owner i) = true)
    (only : ∀ i, slotOf (a.after s.io) = some i → ∀ t', t' ≠ t → slotOf (s.call t') ≠ some i)
    (begun : ∀ i delQp point, s.call t = some (.delete i delQp point) → point = .entered) :
    PairInv (s.next ⟨t, a⟩) := by
  constructor
  · intro t' j newQp point now
    simp only [next, kept.marks, kept.list, kept.owner, kept.built]
    rcases call_next now with ⟨_, now⟩ | ⟨_, now⟩
    · exact creating j newQp point now
    · exact inv.creating t' j newQp point now
  · intro t' j delQp point now found
    simp only [next, kept.marks, kept.owner, kept.built]
    rcases call_next now with ⟨_, now⟩ | ⟨_, now⟩
    · exact deletes j delQp point now found
    · exact inv.deletes t' j delQp point now found
  · exact alone_next slotOf inv.alone only
  · simp only [next, kept.marks, kept.list, kept.owner, kept.built]
    exact inv.listed
  · simp only [next, kept.marks, kept.blocks, kept.owner]
    exact inv.owners
  · simp only [next, kept.marks, kept.owner]
    exact inv.distinct
  · simp only [next, kept.marks, kept.owner, kept.place]
    exact inv.places
  · simp only [next, kept.blocks, kept.built]
    exact inv.unborn
  · apply inv.torn_next kept.torn
    · simp only [next, kept.built]
      exact fun _ whole => whole
    · simp only [next, kept.marks, kept.owner]
      exact fun _ j _ marked owned => ⟨marked, owned, begun j⟩
  · simp only [next, kept.torn]
    exact inv.once

theorem PairInv.build (inv : PairInv s) {a : QpAction} {i newQp : Nat}
    {point point' : CreatePoint} (here : s.call t = a.before)
    (before : a.before = some (.create i newQp point))
    (after : a.after s.io = some (.create i newQp point')) (past : point ≠ .reserved)
    (kept : TablesKept s a) : PairInv (s.next ⟨t, a⟩) := by
  have mine := here.trans before
  apply inv.kept kept
  · intro j newQp' point'' now
    rw [after, Option.some.injEq, QpCall.create.injEq] at now
    obtain ⟨rfl, rfl, _⟩ := now
    obtain ⟨marked, owned, unbuilt, listed⟩ := inv.creating t i newQp point mine
    exact ⟨marked, owned, unbuilt, fun _ => listed past⟩
  · intro j delQp point'' now
    rw [after] at now
    cases now
  · apply inv.alone_same here
    rw [before, after]
    rfl
  · intro j delQp point'' there
    rw [mine] at there
    cases there

omit [DecidableEq ι] in
theorem PairInv.slot_marked (inv : PairInv s) {i : Nat} (there : slotOf (s.call t) = some i) :
    s.io.aqp.queueUseMark i = true := by
  rcases now : s.call t with _ | ⟨j, newQp, point⟩ | ⟨j, delQp, point⟩
  · rw [now] at there
    cases there
  · rw [now, slotOf, Option.some.injEq] at there
    exact there ▸ (inv.creating t j newQp point now).1
  · by_cases found : point = .entered
    · rw [now, found] at there
      cases there
    · rw [now, slotOf_delete found, Option.some.injEq] at there
      exact there ▸ (inv.deletes t j delQp point now found).1

theorem PairInv.outside (inv : PairInv s) {a : QpAction} (here : s.call t = a.before)
    (before : slotOf a.before = none) (after : slotOf (a.after s.io) = none)
    (kept : TablesKept s a) : PairInv (s.next ⟨t, a⟩) := by
  apply inv.kept kept
  · intro j newQp point now
    rw [now] at after
    cases after
  · intro j delQp point now found
    rw [now, slotOf_delete found] at after
    cases after
  · intro j now
    rw [after] at now
    cases now
  · intro j delQp point there
    by_contra found
    rw [← here, there, slotOf_delete found] at before
    cases before

theorem PairInv.take (inv : PairInv s) {i : Nat} {aqp : AdminQueuePair} (here : s.call t = none)
    (free : s.io.aqp.queueUseMark i = false)
    (reserved : s.io.reserve =
      (some (i, s.io.blocks), { s.io with blocks := s.io.blocks + 1, aqp := aqp }))
    (marks : aqp.queueUseMark = Function.update s.io.aqp.queueUseMark i true)
    (list : aqp.ioQpList = s.io.aqp.ioQpList) : PairInv (s.next ⟨t, .reserve⟩) := by
  have io : (s.next ⟨t, .reserve⟩).io = { s.io with aqp := aqp, blocks := s.io.blocks + 1 } := by
    simp [next, QpAction.effect, reserved]
  have hist : (s.next ⟨t, .reserve⟩).hist = { s.hist with
      owner := Function.update s.hist.owner i s.io.blocks
      place := Function.update s.hist.place s.io.blocks (some i) } := by
    simp [next, QpHistory.record, reserved]
  have after : QpAction.reserve.after s.io = some (.create i s.io.blocks .reserved) := by
    simp [QpAction.after, reserved]
  have unborn := inv.unborn s.io.blocks le_rfl
  have marked_other : ∀ j, s.io.aqp.queueUseMark j = true → j ≠ i := by
    rintro j marked rfl
    rw [free] at marked
    cases marked
  constructor
  · intro t' j newQp point now
    simp only [io, hist, marks, list]
    rcases call_next now with ⟨_, now⟩ | ⟨_, now⟩
    · rw [after, Option.some.injEq, QpCall.create.injEq] at now
      obtain ⟨rfl, rfl, rfl⟩ := now
      simp [unborn]
    · have facts := inv.creating t' j newQp point now
      have other := marked_other j facts.1
      simpa only [Function.update_of_ne other] using facts
  · intro t' j delQp point now found
    simp only [io, hist, marks]
    rcases call_next now with ⟨_, now⟩ | ⟨_, now⟩
    · rw [after] at now
      cases now
    · have facts := inv.deletes t' j delQp point now found
      have other := marked_other j facts.1
      simpa only [Function.update_of_ne other] using facts
  · apply alone_next slotOf inv.alone
    intro j now t' _ there
    rw [after, slotOf, Option.some.injEq] at now
    subst now
    rw [inv.slot_marked there] at free
    cases free
  · intro j marked whole
    simp only [io, hist, marks, list] at marked whole ⊢
    by_cases same : j = i
    · rw [same, Function.update_self, unborn] at whole
      cases whole
    · rw [Function.update_of_ne same] at marked whole ⊢
      exact inv.listed j marked whole
  · intro j marked
    simp only [io, hist, marks] at marked ⊢
    by_cases same : j = i
    · rw [same, Function.update_self]
      exact Nat.lt_succ_self _
    · rw [Function.update_of_ne same] at marked ⊢
      exact Nat.lt_succ_of_lt (inv.owners j marked)
  · intro j k first second owned
    simp only [io, hist, marks] at first second owned
    by_cases one : j = i <;> by_cases two : k = i
    · rw [one, two]
    · rw [Function.update_of_ne two] at second owned
      rw [one, Function.update_self] at owned
      exact absurd owned.symm (inv.owners k second).ne
    · rw [Function.update_of_ne one] at first owned
      rw [two, Function.update_self] at owned
      exact absurd owned (inv.owners j first).ne
    · rw [Function.update_of_ne one] at first owned
      rw [Function.update_of_ne two] at second owned
      exact inv.distinct j k first second owned
  · intro h j placed
    simp only [io, hist, marks] at placed ⊢
    by_cases same : h = s.io.blocks
    · rw [same, Function.update_self, Option.some.injEq] at placed
      subst placed
      simp [same]
    · rw [Function.update_of_ne same] at placed
      have facts := inv.places h j placed
      have other := marked_other j facts.1
      simpa only [Function.update_of_ne other] using facts
  · intro h beyond
    simp only [io, hist] at beyond ⊢
    exact inv.unborn h (by omega)
  · apply inv.torn_next (by rw [hist])
    · rw [hist]
      exact fun _ whole => whole
    · intro h j whole marked owned
      simp only [io, hist, marks] at marked owned
      by_cases same : j = i
      · rw [same, Function.update_self] at owned
        rw [← owned, unborn] at whole
        cases whole
      · rw [Function.update_of_ne same] at marked owned
        refine ⟨marked, owned, ?_⟩
        intro delQp point there
        rw [here] at there
        cases there
  · simp only [hist]
    exact inv.once

theorem PairInv.reserve (inv : PairInv s) (here : s.call t = none) :
    PairInv (s.next ⟨t, .reserve⟩) := by
  rcases s.io.reserve_cases with ⟨used, taken⟩ | ⟨i, used, _, free, taken⟩
  · have kept : TablesKept s .reserve := by
      constructor <;> simp [QpAction.effect, QpHistory.record, taken]
    exact inv.outside here rfl (by simp [QpAction.after, taken, slotOf, deleting]) kept
  · exact inv.take here free taken rfl rfl

theorem PairInv.allocPair (inv : PairInv s) {i newQp : Nat}
    (here : s.call t = some (.create i newQp .reserved)) :
    PairInv (s.next ⟨t, .allocPair i newQp⟩) := by
  obtain ⟨marked, owned, unbuilt, _⟩ := inv.creating t i newQp _ here
  have busy : ∀ t' j, t' ≠ t → slotOf (s.call t') = some j → j ≠ i := by
    rintro t' j other there rfl
    exact other (inv.alone t' t j there (by rw [here]; rfl))
  constructor
  · intro t' j newQp' point now
    show s.io.aqp.queueUseMark j = true ∧ s.hist.owner j = newQp' ∧ s.hist.built newQp' = false ∧
      (point ≠ .reserved → Function.update s.io.aqp.ioQpList i (some newQp) j = some newQp')
    rcases call_next now with ⟨_, now⟩ | ⟨other, now⟩
    · simp only [QpAction.after, Option.some.injEq, QpCall.create.injEq] at now
      obtain ⟨rfl, rfl, _⟩ := now
      exact ⟨marked, owned, unbuilt, fun _ => Function.update_self ..⟩
    · have elsewhere := busy t' j other (by rw [now]; rfl)
      rw [Function.update_of_ne elsewhere]
      exact inv.creating t' j newQp' point now
  · intro t' j delQp point now
    rcases call_next now with ⟨_, now⟩ | ⟨_, now⟩
    · cases now
    · exact inv.deletes t' j delQp point now
  · exact alone_next slotOf inv.alone (inv.alone_same here rfl)
  · intro j marked' whole
    have elsewhere : j ≠ i := by
      rintro rfl
      have built : s.hist.built (s.hist.owner j) = true := whole
      rw [owned, unbuilt] at built
      cases built
    show Function.update s.io.aqp.ioQpList i (some newQp) j = some (s.hist.owner j)
    rw [Function.update_of_ne elsewhere]
    exact inv.listed j marked' whole
  · exact inv.owners
  · exact inv.distinct
  · exact inv.places
  · exact inv.unborn
  · refine inv.torn_next (a := .allocPair i newQp) rfl (fun _ whole => whole) ?_
    intro h j _ marked' owned'
    refine ⟨marked', owned', ?_⟩
    intro delQp point there
    rw [here] at there
    cases there
  · exact inv.once

theorem PairInv.finishPair (inv : PairInv s) {i newQp : Nat}
    (here : s.call t = some (.create i newQp .sqCreated)) :
    PairInv (s.next ⟨t, .finishPair i newQp⟩) := by
  obtain ⟨marked, owned, unbuilt, listed⟩ := inv.creating t i newQp _ here
  have elsewhere : ∀ j, s.io.aqp.queueUseMark j = true → j ≠ i → s.hist.owner j ≠ newQp := by
    intro j marked' other same
    exact other (inv.distinct j i marked' marked (same.trans owned.symm))
  have stays : ∀ h, s.hist.built h = true → Function.update s.hist.built newQp true h = true := by
    intro h whole
    by_cases same : h = newQp
    · rw [same, Function.update_self]
    · rwa [Function.update_of_ne same]
  constructor
  · intro t' j newQp' point now
    show s.io.aqp.queueUseMark j = true ∧ s.hist.owner j = newQp' ∧
      Function.update s.hist.built newQp true newQp' = false ∧
        (point ≠ .reserved → s.io.aqp.ioQpList j = some newQp')
    rcases call_next now with ⟨_, now⟩ | ⟨other, now⟩
    · cases now
    · have facts := inv.creating t' j newQp' point now
      have there : slotOf (s.call t') = some j := by
        rw [now]
        rfl
      have slot : j ≠ i := by
        rintro rfl
        exact other (inv.alone t' t j there (by rw [here]; rfl))
      have distinct : newQp' ≠ newQp := facts.2.1 ▸ elsewhere j facts.1 slot
      rw [Function.update_of_ne distinct]
      exact facts
  · intro t' j delQp point now found
    rcases call_next now with ⟨_, now⟩ | ⟨_, now⟩
    · cases now
    · obtain ⟨marked', pointer, whole⟩ := inv.deletes t' j delQp point now found
      exact ⟨marked', pointer, stays _ whole⟩
  · apply alone_next slotOf inv.alone
    intro j now
    cases now
  · intro j marked' whole
    by_cases same : j = i
    · subst same
      show s.io.aqp.ioQpList j = some (s.hist.owner j)
      rw [owned]
      exact listed (by decide)
    · have whole' : Function.update s.hist.built newQp true (s.hist.owner j) = true := whole
      rw [Function.update_of_ne (elsewhere j marked' same)] at whole'
      exact inv.listed j marked' whole'
  · exact inv.owners
  · exact inv.distinct
  · exact inv.places
  · intro h beyond
    have older := inv.owners i marked
    have other : h ≠ newQp := by
      have beyond' : s.io.blocks ≤ h := beyond
      omega
    show Function.update s.hist.built newQp true h = false
    rw [Function.update_of_ne other]
    exact inv.unborn h beyond
  · refine inv.torn_next (a := .finishPair i newQp) rfl stays ?_
    intro h j _ marked' owned'
    refine ⟨marked', owned', ?_⟩
    intro delQp point there
    rw [here] at there
    cases there
  · exact inv.once

theorem PairInv.found (inv : PairInv s) {i : Nat} {delQp : Option Nat}
    (here : s.call t = some (.delete i delQp .entered))
    (marked : s.io.aqp.queueUseMark i = true)
    (standing : s.hist.built (s.hist.owner i) = true) (pointer : s.io.aqp.ioQpList i = delQp)
    (only : ∀ t', deleting (s.call t') ≠ some i) : PairInv (s.next ⟨t, .test i delQp⟩) := by
  have after : (QpAction.test i delQp).after s.io = some (.delete i delQp .tested) := by
    simp [QpAction.after, marked]
  have hist : s.hist.record s.io (.test i delQp) = { s.hist with passed := s.hist.passed + 1 } := by
    simp [QpHistory.record, marked]
  have kept : TablesKept s (.test i delQp) := by
    constructor <;> simp only [QpAction.effect, hist]
  apply inv.kept kept
  · intro j newQp point now
    rw [after] at now
    cases now
  · intro j delQp' point now found
    rw [after, Option.some.injEq, QpCall.delete.injEq] at now
    obtain ⟨rfl, rfl, _⟩ := now
    exact ⟨marked, pointer.symm.trans (inv.listed i marked standing), standing⟩
  · intro j now t' other there
    rw [after, slotOf_delete (by decide), Option.some.injEq] at now
    subst now
    rcases call : s.call t' with _ | ⟨k, newQp, point⟩ | ⟨k, delQp', point⟩
    · rw [call] at there
      cases there
    · rw [call, slotOf, Option.some.injEq] at there
      subst there
      obtain ⟨_, owned, unbuilt, _⟩ := inv.creating t' k newQp point call
      rw [owned, unbuilt] at standing
      cases standing
    · rw [call] at there
      exact only t' (call ▸ there)
  · intro j delQp' point there
    rw [here, Option.some.injEq, QpCall.delete.injEq] at there
    exact there.2.2.symm

theorem PairInv.tear (inv : PairInv s) {a : QpAction} {i : Nat} {delQp : Option Nat}
    {point point' : DeletePoint} {part : TearDown} (here : s.call t = a.before)
    (before : a.before = some (.delete i delQp point))
    (after : a.after s.io = some (.delete i delQp point')) (found : point ≠ .entered)
    (earlier : point.rank < part.rank) (later : part.rank = point'.rank)
    (tables : (a.effect s.io).aqp = s.io.aqp) (blocks : (a.effect s.io).blocks = s.io.blocks)
    (owner : (s.hist.record s.io a).owner = s.hist.owner)
    (place : (s.hist.record s.io a).place = s.hist.place)
    (built : (s.hist.record s.io a).built = s.hist.built)
    (torn : (s.hist.record s.io a).torn =
      s.hist.torn ++ [⟨part, s.hist.owner i, s.hist.built (s.hist.owner i)⟩]) :
    PairInv (s.next ⟨t, a⟩) := by
  have mine := here.trans before
  obtain ⟨marked, pointer, whole⟩ := inv.deletes t i delQp point mine found
  have found' : point' ≠ .entered := by
    rintro rfl
    simp only [DeletePoint.rank] at later
    omega
  have now_mine : (s.next ⟨t, a⟩).call t = some (.delete i delQp point') :=
    (next_same s ⟨t, a⟩).trans after
  constructor
  · intro t' j newQp point'' now
    simp only [next, tables, owner, built]
    rcases call_next now with ⟨_, now⟩ | ⟨_, now⟩
    · rw [after] at now
      cases now
    · exact inv.creating t' j newQp point'' now
  · intro t' j delQp' point'' now found''
    simp only [next, tables, owner, built]
    rcases call_next now with ⟨_, now⟩ | ⟨_, now⟩
    · rw [after, Option.some.injEq, QpCall.delete.injEq] at now
      obtain ⟨rfl, rfl, _⟩ := now
      exact ⟨marked, pointer, whole⟩
    · exact inv.deletes t' j delQp' point'' now found''
  · apply alone_next slotOf inv.alone (inv.alone_same here _)
    rw [after, before, slotOf_delete found, slotOf_delete found']
  · simp only [next, tables, owner, built]
    exact inv.listed
  · simp only [next, tables, blocks, owner]
    exact inv.owners
  · simp only [next, tables, owner]
    exact inv.distinct
  · simp only [next, tables, owner, place]
    exact inv.places
  · simp only [next, blocks, built]
    exact inv.unborn
  · intro p member
    simp only [next, torn, List.mem_append, List.mem_singleton] at member
    simp only [next, tables, owner, built]
    rcases member with member | rfl
    · obtain ⟨flagged, whole', under_way⟩ := inv.torn p member
      refine ⟨flagged, whole', ?_⟩
      intro j marked' owned
      obtain ⟨t', delQp', point'', there, rank⟩ := under_way j marked' owned
      by_cases same : t' = t
      · subst same
        rw [mine, Option.some.injEq, QpCall.delete.injEq] at there
        obtain ⟨rfl, rfl, rfl⟩ := there
        exact ⟨t', delQp, point', now_mine, by omega⟩
      · exact ⟨t', delQp', point'', (next_other (e := ⟨t, a⟩) same).trans there, rank⟩
    · refine ⟨whole, whole, ?_⟩
      intro j marked' owned
      obtain rfl := inv.distinct j i marked' marked owned
      exact ⟨t, delQp, point', now_mine, later.le⟩
  · simp only [next, torn, List.map_append, List.map_cons, List.map_nil]
    apply List.Nodup.append inv.once (List.nodup_singleton _)
    rw [List.disjoint_singleton]
    intro already
    obtain ⟨p, member, same⟩ := List.mem_map.mp already
    obtain ⟨samePart, samePair⟩ := Prod.mk.inj same
    obtain ⟨_, _, under_way⟩ := inv.torn p member
    obtain ⟨t', busy, delQp', point'', there, rank⟩ := (under_way i marked samePair.symm).busy
    obtain rfl := inv.alone t' t i busy (by rw [mine]; exact slotOf_delete found)
    rw [mine, Option.some.injEq, QpCall.delete.injEq] at there
    obtain ⟨_, _, rfl⟩ := there
    rw [samePart] at rank
    omega

theorem PairInv.clearMark (inv : PairInv s) {i delQp : Nat}
    (here : s.call t = some (.delete i (some delQp) .pairFreed)) :
    PairInv (s.next ⟨t, .clearMark i delQp⟩) := by
  have mine : slotOf (s.call t) = some i := by
    rw [here]
    exact slotOf_delete (by decide)
  have busy : ∀ t' j, t' ≠ t → slotOf (s.call t') = some j → j ≠ i := by
    rintro t' j other there rfl
    exact other (inv.alone t' t j there mine)
  have kept : ∀ j, Function.update s.io.aqp.queueUseMark i false j = true →
      j ≠ i ∧ s.io.aqp.queueUseMark j = true := by
    intro j marked
    by_cases same : j = i
    · rw [same, Function.update_self] at marked
      cases marked
    · exact ⟨same, by rwa [Function.update_of_ne same] at marked⟩
  constructor
  · intro t' j newQp point now
    rcases call_next now with ⟨_, now⟩ | ⟨other, now⟩
    · cases now
    · have elsewhere := busy t' j other (by rw [now]; rfl)
      have facts := inv.creating t' j newQp point now
      exact ⟨(Function.update_of_ne elsewhere ..).trans facts.1, facts.2⟩
  · intro t' j delQp' point now found
    rcases call_next now with ⟨_, now⟩ | ⟨other, now⟩
    · cases now
    · have elsewhere := busy t' j other (by rw [now]; exact slotOf_delete found)
      have facts := inv.deletes t' j delQp' point now found
      exact ⟨(Function.update_of_ne elsewhere ..).trans facts.1, facts.2⟩
  · apply alone_next slotOf inv.alone
    intro j now
    cases now
  · intro j marked
    exact inv.listed j (kept j marked).2
  · intro j marked
    exact inv.owners j (kept j marked).2
  · intro j k first second
    exact inv.distinct j k (kept j first).2 (kept k second).2
  · intro h j placed
    have placed' : Function.update s.hist.place (s.hist.owner i) none h = some j := placed
    by_cases same : h = s.hist.owner i
    · rw [same, Function.update_self] at placed'
      cases placed'
    · rw [Function.update_of_ne same] at placed'
      obtain ⟨marked, owned⟩ := inv.places h j placed'
      have elsewhere : j ≠ i := by
        rintro rfl
        exact same owned.symm
      exact ⟨(Function.update_of_ne elsewhere ..).trans marked, owned⟩
  · exact inv.unborn
  · refine inv.torn_next (a := .clearMark i delQp) rfl (fun _ whole => whole) ?_
    intro h j _ marked owned
    obtain ⟨elsewhere, marked'⟩ := kept j marked
    refine ⟨marked', owned, ?_⟩
    intro delQp' point there
    rw [here, Option.some.injEq, QpCall.delete.injEq] at there
    exact absurd there.1.symm elsewhere
  · exact inv.once

theorem PairInv.step {s' : QpSystem ι} {e : QpEvent ι} (inv : PairInv s)
    (permitted : s.findsStanding e) (taken : s.step e = some s') : PairInv s' := by
  obtain ⟨t, a⟩ := e
  obtain ⟨here, _, rfl⟩ := step_cases taken
  cases a with
  | reserve => exact inv.reserve here
  | allocPair i newQp => exact inv.allocPair here
  | finishPair i newQp => exact inv.finishPair here
  | allocCq i newQp addr | crtIoCq i newQp status | allocSq i newQp addr | crtIoSq i newQp status =>
      exact inv.build here rfl rfl (by decide) ⟨rfl, rfl, rfl, rfl, rfl, rfl, rfl⟩
  | enter i => exact inv.outside here rfl rfl ⟨rfl, rfl, rfl, rfl, rfl, rfl, rfl⟩
  | test i delQp =>
      cases marked : s.io.aqp.queueUseMark i with
      | true =>
          obtain ⟨standing, pointer, only⟩ := permitted marked
          exact inv.found here marked standing pointer only
      | false =>
          have kept : TablesKept s (.test i delQp) := by
            constructor <;> simp [QpAction.effect, QpHistory.record, marked]
          exact inv.outside here rfl (by simp [QpAction.after, marked, slotOf, deleting]) kept
  | delIoSq i delQp status =>
      exact inv.tear here rfl rfl (by decide) (by decide) (by decide : TearDown.delSq.rank = _)
        rfl rfl rfl rfl rfl rfl
  | delIoCq i delQp status =>
      exact inv.tear here rfl rfl (by decide) (by decide) (by decide : TearDown.delCq.rank = _)
        rfl rfl rfl rfl rfl rfl
  | freeCq i delQp =>
      obtain ⟨_, pointer, _⟩ := inv.deletes t i _ _ here (by decide)
      obtain rfl := Option.some.inj pointer
      exact inv.tear here rfl rfl (by decide) (by decide) (by decide : TearDown.freeCq.rank = _)
        rfl rfl rfl rfl rfl rfl
  | freeSq i delQp =>
      obtain ⟨_, pointer, _⟩ := inv.deletes t i _ _ here (by decide)
      obtain rfl := Option.some.inj pointer
      exact inv.tear here rfl rfl (by decide) (by decide) (by decide : TearDown.freeSq.rank = _)
        rfl rfl rfl rfl rfl rfl
  | freePair i delQp =>
      obtain ⟨marked, _, standing⟩ := inv.deletes t i _ _ here (by decide)
      have listed := inv.listed i marked standing
      apply inv.tear here rfl rfl (by decide) (by decide)
        (by decide : TearDown.freePair.rank = _) rfl rfl <;>
        simp [QpHistory.record, listed, QpHistory.tear]
  | clearMark i delQp => exact inv.clearMark here

/-- Where every delete that finds its mark set finds a standing pair, each part of each pair
is torn down at most once and only after the create has returned the pair. -/
theorem torn_once (cap0 : Dword) (cpl : Cpl) (s : QpSystem ι)
    (reached : Reachable (machine ι cap0 cpl) findsStanding s) : s.TornOnce := by
  have inv : PairInv s := reached.invariant (fun _ => PairInv.start)
    (fun _ _ _ inv permitted taken => inv.step permitted taken)
  exact ⟨inv.once, fun p member => (inv.torn p member).1⟩

theorem torn_once_single_delete :
    ∃ s, Reachable (machine Unit 1#32 Cpl.zero) findsStanding s ∧ s.hist.torn.length = 5 ∧
      s.TornOnce := by
  let events := (QpAction.wholeCreate 0 0 0 0 0 0 ++ QpAction.wholeDelete 0 0 0 0).map
    (QpEvent.mk ())
  have begins : Reachable (machine Unit 1#32 Cpl.zero) findsStanding (fresh 1#32 Cpl.zero) :=
    .start (fresh_init 1#32 Cpl.zero)
  have ended : ((machine Unit 1#32 Cpl.zero).runAllowed findsStanding (fresh 1#32 Cpl.zero)
      events).map (fun s => s.hist.torn.length) = some 5 := by
    decide +kernel
  obtain ⟨s, ran, five⟩ := Option.map_eq_some_iff.mp ended
  have reached := begins.extendAllowed events ran
  exact ⟨s, reached, five, torn_once 1#32 Cpl.zero s reached⟩

/-- Two deletes of one pair both find the mark set before either clears it. -/
theorem pair_torn_twice :
    ¬ ∀ (ι : Type) [DecidableEq ι] (cap0 : Dword) (cpl : Cpl) (s : QpSystem ι),
      Reachable (machine ι cap0 cpl) anyEvent s → s.TornOnce := by
  intro always_torn_once
  let events : List (QpEvent Bool) :=
    (QpAction.wholeCreate 0 0 0 0 0 0).map (QpEvent.mk true) ++
      [⟨true, QpAction.enter 0⟩, ⟨false, QpAction.enter 0⟩, ⟨true, .test 0 (some 0)⟩,
        ⟨false, .test 0 (some 0)⟩, ⟨true, .delIoSq 0 (some 0) 0⟩, ⟨false, .delIoSq 0 (some 0) 0⟩]
  have begins : Reachable (machine Bool 1#32 Cpl.zero) anyEvent (fresh 1#32 Cpl.zero) :=
    .start (fresh_init 1#32 Cpl.zero)
  have ended : ((machine Bool 1#32 Cpl.zero).run (fresh 1#32 Cpl.zero) events).map
      (fun s => s.hist.torn) = some [⟨.delSq, 0, true⟩, ⟨.delSq, 0, true⟩] := by
    decide +kernel
  obtain ⟨s, ran, twice⟩ := Option.map_eq_some_iff.mp ended
  obtain ⟨once, _⟩ := always_torn_once Bool 1#32 Cpl.zero s (begins.extendAny events ran)
  rw [twice] at once
  simp at once

end QpSystem

end BafsNvme
