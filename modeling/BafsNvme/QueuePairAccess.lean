import BafsNvme.DriverRuns

/-! Which entries of the four queue pair arrays a create, a delete and the deletes of
`admin_clean` read and write. -/

namespace BafsNvme

structure PairArrays where
  queueUseMark : Nat → Bool
  ioQpList : Nat → Option Nat
  sqDmaAddrs : Nat → BitVec 64
  cqDmaAddrs : Nat → BitVec 64

def PairArrays.entry (a : PairArrays) (k : Nat) : Bool × Option Nat × BitVec 64 × BitVec 64 :=
  (a.queueUseMark k, a.ioQpList k, a.sqDmaAddrs k, a.cqDmaAddrs k)

theorem PairArrays.entry_iff {a b : PairArrays} {k : Nat} : a.entry k = b.entry k ↔
    a.queueUseMark k = b.queueUseMark k ∧ a.ioQpList k = b.ioQpList k ∧
      a.sqDmaAddrs k = b.sqDmaAddrs k ∧ a.cqDmaAddrs k = b.cqDmaAddrs k := by
  simp only [PairArrays.entry, Prod.mk.injEq]

namespace IoState

def arrays (s : IoState) : PairArrays where
  queueUseMark := s.aqp.queueUseMark
  ioQpList := s.aqp.ioQpList
  sqDmaAddrs := s.aqp.sqDmaAddrs
  cqDmaAddrs := s.aqp.cqDmaAddrs

def withArrays (s : IoState) (a : PairArrays) : IoState :=
  { s with aqp := { s.aqp with
      queueUseMark := a.queueUseMark
      ioQpList := a.ioQpList
      sqDmaAddrs := a.sqDmaAddrs
      cqDmaAddrs := a.cqDmaAddrs } }

/-- `t` is `s` but for entries of the arrays that are not `used`. -/
def SameAt (used : Nat → Prop) (s t : IoState) : Prop :=
  ∃ a, t = s.withArrays a ∧ ∀ k, used k → a.entry k = s.arrays.entry k

/-- The entry `i` is the only one that `f` reads or writes. -/
structure OnlyAt (i : Nat) (f : IoState → IoState) : Prop where
  reads : ∀ {used : Nat → Prop} {s t : IoState}, used i → SameAt used s t → SameAt used (f s) (f t)
  writes : ∀ (s : IoState) (k : Nat), k ≠ i → (f s).arrays.entry k = s.arrays.entry k

variable {used : Nat → Prop} {s s' t : IoState} {i : Nat}

theorem SameAt.entries (same : SameAt used s t) {k : Nat} (inside : used k) :
    t.aqp.queueUseMark k = s.aqp.queueUseMark k ∧ t.aqp.ioQpList k = s.aqp.ioQpList k ∧
      t.aqp.sqDmaAddrs k = s.aqp.sqDmaAddrs k ∧ t.aqp.cqDmaAddrs k = s.aqp.cqDmaAddrs k := by
  obtain ⟨a, rfl, agree⟩ := same
  exact PairArrays.entry_iff.mp (agree k inside)

theorem SameAt.supported (same : SameAt used s t) :
    t.aqp.numIoQueuePairsSupported = s.aqp.numIoQueuePairsSupported := by
  obtain ⟨a, rfl, _⟩ := same
  rfl

theorem SameAt.ioQueueSize (same : SameAt used s t) : t.aqp.ioQueueSize = s.aqp.ioQueueSize := by
  obtain ⟨a, rfl, _⟩ := same
  rfl

theorem SameAt.mapArrays (same : SameAt used s t) {f : IoState → IoState}
    {g : PairArrays → PairArrays}
    (acts : ∀ a, f (s.withArrays a) = (f s).withArrays (g a)) (result : (f s).arrays = g s.arrays)
    (pointwise : ∀ a k, a.entry k = s.arrays.entry k → (g a).entry k = (g s.arrays).entry k) :
    SameAt used (f s) (f t) := by
  obtain ⟨a, rfl, agree⟩ := same
  refine ⟨g a, acts a, fun k inside => ?_⟩
  rw [result]
  exact pointwise a k (agree k inside)

theorem SameAt.submit (same : SameAt used s t) (cmd : Cmd) (status : Nat) :
    SameAt used (s.submit cmd status) (t.submit cmd status) :=
  same.mapArrays (f := fun s => s.submit cmd status) (g := id) (fun _ => rfl) rfl
    fun _ _ agree => agree

namespace OnlyAt

theorem comp {f g : IoState → IoState} (first : OnlyAt i f) (second : OnlyAt i g) :
    OnlyAt i fun s => g (f s) where
  reads inside same := second.reads inside (first.reads inside same)
  writes s k other := (second.writes (f s) k other).trans (first.writes s k other)

theorem submit (cmd : Cmd) (status : Nat) : OnlyAt i fun s => s.submit cmd status where
  reads _ same := same.submit cmd status
  writes _ _ _ := rfl

/-- An operation that changes at most the entry `i` of the arrays, by what is there. -/
theorem mapArrays {f : IoState → IoState} {g : PairArrays → PairArrays}
    (acts : ∀ s a, f (s.withArrays a) = (f s).withArrays (g a))
    (result : ∀ s, (f s).arrays = g s.arrays)
    (pointwise : ∀ a b k, a.entry k = b.entry k → (g a).entry k = (g b).entry k)
    (elsewhere : ∀ a k, k ≠ i → (g a).entry k = a.entry k) : OnlyAt i f where
  reads {_ s _} _ same := same.mapArrays (acts s) (result s) fun a => pointwise a s.arrays
  writes s k other := by rw [result, elsewhere s.arrays k other]

theorem allocPair (newQp : Nat) : OnlyAt i fun s => s.allocPair i newQp := by
  refine mapArrays (g := fun a =>
    { a with ioQpList := Function.update a.ioQpList i (some newQp) })
    (fun _ _ => rfl) (fun _ => rfl) ?_ ?_
  · intro a b k agree
    rw [PairArrays.entry_iff] at agree
    simp [PairArrays.entry, Function.update_apply, agree]
  · intro a k other
    simp [PairArrays.entry, other]

theorem allocCq (newQp : Nat) (addr : BitVec 64) : OnlyAt i fun s => s.allocCq i newQp addr := by
  refine mapArrays (g := fun a => { a with cqDmaAddrs := Function.update a.cqDmaAddrs i addr })
    (fun _ _ => rfl) (fun _ => rfl) ?_ ?_
  · intro a b k agree
    rw [PairArrays.entry_iff] at agree
    simp [PairArrays.entry, Function.update_apply, agree]
  · intro a k other
    simp [PairArrays.entry, other]

theorem allocSq (newQp : Nat) (addr : BitVec 64) : OnlyAt i fun s => s.allocSq i newQp addr := by
  refine mapArrays (g := fun a => { a with sqDmaAddrs := Function.update a.sqDmaAddrs i addr })
    (fun _ _ => rfl) (fun _ => rfl) ?_ ?_
  · intro a b k agree
    rw [PairArrays.entry_iff] at agree
    simp [PairArrays.entry, Function.update_apply, agree]
  · intro a k other
    simp [PairArrays.entry, other]

theorem clearMark : OnlyAt i fun s => s.clearMark i := by
  refine mapArrays (g := fun a =>
    { a with queueUseMark := Function.update a.queueUseMark i false })
    (fun _ _ => rfl) (fun _ => rfl) ?_ ?_
  · intro a b k agree
    rw [PairArrays.entry_iff] at agree
    simp [PairArrays.entry, Function.update_apply, agree]
  · intro a k other
    simp [PairArrays.entry, other]

theorem finishPair (newQp : Nat) : OnlyAt i fun s => s.finishPair i newQp :=
  mapArrays (g := id) (fun _ _ => rfl) (fun _ => rfl) (fun _ _ _ agree => agree) fun _ _ _ => rfl

theorem crtIoCq (status : Nat) : OnlyAt i fun s => s.crtIoCq i status where
  reads {_ s t} inside same := by
    obtain ⟨_, _, _, addr⟩ := same.entries inside
    have command : t.crtIoCq i status =
        t.submit (crtIoCqCmd (s.aqp.cqDmaAddrs i) s.aqp.ioQueueSize i) status := by
      rw [IoState.crtIoCq, addr, same.ioQueueSize]
    rw [command]
    exact same.submit _ status
  writes _ _ _ := rfl

theorem crtIoSq (status : Nat) : OnlyAt i fun s => s.crtIoSq i status where
  reads {_ s t} inside same := by
    obtain ⟨_, _, addr, _⟩ := same.entries inside
    have command : t.crtIoSq i status =
        t.submit (crtIoSqCmd (s.aqp.sqDmaAddrs i) s.aqp.ioQueueSize i) status := by
      rw [IoState.crtIoSq, addr, same.ioQueueSize]
    rw [command]
    exact same.submit _ status
  writes _ _ _ := rfl

theorem freeCq (delQp : Nat) : OnlyAt i fun s => s.freeCq i delQp where
  reads inside same := by
    obtain ⟨_, _, _, addr⟩ := same.entries inside
    obtain ⟨a, rfl, agree⟩ := same
    refine ⟨a, ?_, agree⟩
    simp only [IoState.freeCq, addr]
    rfl
  writes _ _ _ := rfl

theorem freeSq (delQp : Nat) : OnlyAt i fun s => s.freeSq i delQp where
  reads inside same := by
    obtain ⟨_, _, addr, _⟩ := same.entries inside
    obtain ⟨a, rfl, agree⟩ := same
    refine ⟨a, ?_, agree⟩
    simp only [IoState.freeSq, addr]
    rfl
  writes _ _ _ := rfl

theorem freePair : OnlyAt i fun s => s.freePair i where
  reads inside same := by
    obtain ⟨_, pointer, _⟩ := same.entries inside
    obtain ⟨a, rfl, agree⟩ := same
    refine ⟨a, ?_, agree⟩
    simp only [IoState.freePair, pointer]
    rfl
  writes _ _ _ := rfl

theorem build (newQp : Nat) (cqAddr sqAddr : BitVec 64) (cqStatus sqStatus : Nat) :
    OnlyAt i fun s =>
      (((((s.allocPair i newQp).allocCq i newQp cqAddr).crtIoCq i cqStatus).allocSq i newQp
        sqAddr).crtIoSq i sqStatus).finishPair i newQp :=
  (allocPair newQp).comp <| (allocCq newQp cqAddr).comp <| (crtIoCq cqStatus).comp <|
    (allocSq newQp sqAddr).comp <| (crtIoSq sqStatus).comp (finishPair newQp)

theorem tearDown (delQp sqStatus cqStatus : Nat) :
    OnlyAt i fun s => (((((s.delIoSq i sqStatus).delIoCq i cqStatus).freeCq i delQp).freeSq i
      delQp).freePair i).clearMark i :=
  (submit _ sqStatus).comp <| (submit _ cqStatus).comp <| (freeCq delQp).comp <|
    (freeSq delQp).comp <| freePair.comp clearMark

end OnlyAt

def Searched (s : IoState) (k : Nat) : Prop :=
  s.aqp.numIoQueuePairsUsed ≠ s.aqp.numIoQueuePairsSupported ∧
    k < s.aqp.numIoQueuePairsSupported ∧ ∀ j, j < k → s.aqp.queueUseMark j = true

theorem reserve_full (full : s.aqp.numIoQueuePairsUsed = s.aqp.numIoQueuePairsSupported) :
    s.reserve = (none, s) := by
  rw [IoState.reserve, AdminQueuePair.reserve, if_pos full]

theorem reserve_none (room : s.aqp.numIoQueuePairsUsed ≠ s.aqp.numIoQueuePairsSupported)
    (search : firstFree s.aqp.queueUseMark 0 s.aqp.numIoQueuePairsSupported = none) :
    s.reserve = (none, { s with aqp := { s.aqp with
      numIoQueuePairsUsed := (s.aqp.numIoQueuePairsUsed + 1) % 2 ^ 32 } }) := by
  simp only [IoState.reserve, AdminQueuePair.reserve, if_neg room, search]

theorem reserve_some (room : s.aqp.numIoQueuePairsUsed ≠ s.aqp.numIoQueuePairsSupported)
    (search : firstFree s.aqp.queueUseMark 0 s.aqp.numIoQueuePairsSupported = some i) :
    s.reserve = (some (i, s.blocks), { s with
      blocks := s.blocks + 1
      aqp := { s.aqp with
        numIoQueuePairsUsed := (s.aqp.numIoQueuePairsUsed + 1) % 2 ^ 32
        queueUseMark := Function.update s.aqp.queueUseMark i true } }) := by
  simp only [IoState.reserve, AdminQueuePair.reserve, if_neg room, search]

theorem SameAt.reserve (same : SameAt used s t) (covers : ∀ k, s.Searched k → used k) :
    t.reserve.1 = s.reserve.1 ∧ SameAt used s.reserve.2 t.reserve.2 := by
  have marks {k : Nat} (inside : used k) := (same.entries inside).1
  obtain ⟨a, rfl, agree⟩ := same
  by_cases full : s.aqp.numIoQueuePairsUsed = s.aqp.numIoQueuePairsSupported
  · rw [reserve_full full, reserve_full (s := s.withArrays a) full]
    exact ⟨rfl, a, rfl, agree⟩
  · have looks : firstFree (s.withArrays a).aqp.queueUseMark 0 s.aqp.numIoQueuePairsSupported =
        firstFree s.aqp.queueUseMark 0 s.aqp.numIoQueuePairsSupported := by
      apply firstFree_congr
      intro k _ below before
      have bound : k < s.aqp.numIoQueuePairsSupported := by omega
      exact marks (covers k ⟨full, bound, fun j earlier => before j j.zero_le earlier⟩)
    cases search : firstFree s.aqp.queueUseMark 0 s.aqp.numIoQueuePairsSupported with
    | none =>
        rw [reserve_none full search,
          reserve_none (s := s.withArrays a) full (looks.trans search)]
        exact ⟨rfl, a, rfl, agree⟩
    | some i =>
        rw [reserve_some full search,
          reserve_some (s := s.withArrays a) full (looks.trans search)]
        refine ⟨rfl, { a with queueUseMark := Function.update a.queueUseMark i true }, rfl, ?_⟩
        intro k inside
        have agrees := PairArrays.entry_iff.mp (agree k inside)
        simp only [arrays] at agrees
        simp [PairArrays.entry, arrays, Function.update_apply, agrees]

theorem reserve_searched {newQp : Nat} {s₁ : IoState} (taken : s.reserve = (some (i, newQp), s₁)) :
    s.Searched i ∧ ∀ k, k ≠ i → s₁.arrays.entry k = s.arrays.entry k := by
  by_cases full : s.aqp.numIoQueuePairsUsed = s.aqp.numIoQueuePairsSupported
  · rw [reserve_full full] at taken
    cases taken
  · cases search : firstFree s.aqp.queueUseMark 0 s.aqp.numIoQueuePairsSupported with
    | none =>
        rw [reserve_none full search] at taken
        cases taken
    | some j =>
        obtain ⟨_, below, _, before⟩ := firstFree_some search
        rw [reserve_some full search] at taken
        cases taken
        refine ⟨⟨full, by omega, fun j => before j j.zero_le⟩, fun k other => ?_⟩
        simp [PairArrays.entry, arrays, other]

theorem SameAt.create (same : SameAt used s t) (covers : ∀ k, s.Searched k → used k)
    (cqAddr sqAddr : BitVec 64) (cqStatus sqStatus : Nat) :
    SameAt used (adminCreateIoQueuePair s cqAddr sqAddr cqStatus sqStatus).2
      (adminCreateIoQueuePair t cqAddr sqAddr cqStatus sqStatus).2 := by
  obtain ⟨taken, after⟩ := same.reserve covers
  rcases found : s.reserve with ⟨_ | ⟨i, newQp⟩, s₁⟩ <;> rw [found] at taken after
  · obtain ⟨t₁, other⟩ : ∃ t₁, t.reserve = (none, t₁) := ⟨t.reserve.2, Prod.ext taken rfl⟩
    rw [other] at after
    rw [create_refused found, create_refused other]
    exact after
  · obtain ⟨t₁, other⟩ : ∃ t₁, t.reserve = (some (i, newQp), t₁) :=
      ⟨t.reserve.2, Prod.ext taken rfl⟩
    rw [other] at after
    simp only [adminCreateIoQueuePair, found, other]
    exact (OnlyAt.build newQp cqAddr sqAddr cqStatus sqStatus).reads
      (covers i (reserve_searched found).1) after

theorem create_writes (cqAddr sqAddr : BitVec 64) (cqStatus sqStatus : Nat) {k : Nat}
    (apart : ¬ s.Searched k) :
    (adminCreateIoQueuePair s cqAddr sqAddr cqStatus sqStatus).2.arrays.entry k =
      s.arrays.entry k := by
  rcases found : s.reserve with ⟨_ | ⟨i, newQp⟩, s₁⟩
  · rw [create_refused found]
    rcases s.reserve_cases with ⟨used, refused⟩ | ⟨i, used, _, _, taken⟩
    · rw [refused, Prod.mk.injEq] at found
      rw [← found.2]
      rfl
    · rw [found] at taken
      cases taken
  · obtain ⟨searched, kept⟩ := reserve_searched found
    have other : k ≠ i := fun same => apart (same ▸ searched)
    simp only [adminCreateIoQueuePair, found]
    exact ((OnlyAt.build newQp cqAddr sqAddr cqStatus sqStatus).writes s₁ k other).trans
      (kept k other)

theorem SameAt.delete (same : SameAt used s t) (inside : used i) {sqStatus cqStatus : Nat}
    (returned : adminDeleteIoQueuePair s i sqStatus cqStatus = some s') :
    ∃ t', adminDeleteIoQueuePair t i sqStatus cqStatus = some t' ∧ SameAt used s' t' := by
  obtain ⟨mark, pointer, _⟩ := same.entries inside
  rw [adminDeleteIoQueuePair] at returned
  rw [adminDeleteIoQueuePair, mark, pointer]
  split at returned
  · next clear =>
    rw [if_pos clear]
    exact ⟨t, rfl, Option.some.inj returned ▸ same⟩
  · next marked =>
    obtain ⟨delQp, listed, rfl⟩ := Option.map_eq_some_iff.mp returned
    rw [if_neg marked, listed]
    exact ⟨_, rfl, (OnlyAt.tearDown delQp sqStatus cqStatus).reads inside same⟩

theorem delete_writes {sqStatus cqStatus : Nat}
    (returned : adminDeleteIoQueuePair s i sqStatus cqStatus = some s') {k : Nat} (other : k ≠ i) :
    s'.arrays.entry k = s.arrays.entry k := by
  rw [adminDeleteIoQueuePair] at returned
  split at returned
  · rw [Option.some.inj returned]
  · obtain ⟨delQp, _, rfl⟩ := Option.map_eq_some_iff.mp returned
    exact (OnlyAt.tearDown delQp sqStatus cqStatus).writes s k other

theorem SameAt.deletePairs (same : SameAt used s t) {n : Nat} (covers : ∀ k, k < n → used k)
    {statuses : Nat → Nat × Nat} (returned : DriverState.deletePairs statuses s n = some s') :
    ∃ t', DriverState.deletePairs statuses t n = some t' ∧ SameAt used s' t' := by
  induction n generalizing s' with
  | zero => exact ⟨t, rfl, Option.some.inj returned ▸ same⟩
  | succ n ih =>
      obtain ⟨before, earlier, last⟩ := Option.bind_eq_some_iff.mp returned
      obtain ⟨t₁, first, same₁⟩ := ih (fun k below => covers k (by omega)) earlier
      obtain ⟨t', second, same'⟩ := same₁.delete (covers n n.lt_succ_self) last
      exact ⟨t', by rw [DriverState.deletePairs, first, Option.bind_some, second], same'⟩

theorem deletePairs_writes {n : Nat} {statuses : Nat → Nat × Nat}
    (returned : DriverState.deletePairs statuses s n = some s') {k : Nat} (beyond : ¬ k < n) :
    s'.arrays.entry k = s.arrays.entry k := by
  induction n generalizing s' with
  | zero => rw [Option.some.inj returned]
  | succ n ih =>
      obtain ⟨before, earlier, last⟩ := Option.bind_eq_some_iff.mp returned
      exact (delete_writes last (by omega)).trans (ih earlier (by omega))

end IoState

end BafsNvme
