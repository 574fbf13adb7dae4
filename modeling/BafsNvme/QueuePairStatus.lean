import BafsNvme.QueuePairCalls

/-! Create and delete calls one after another, against a controller that completes each of
their commands with any status and performs it on success only. -/

namespace BafsNvme

open Machine

inductive PairCall where
  | create (cqAddr sqAddr : BitVec 64) (cqStatus sqStatus : Nat)
  | delete (i sqStatus cqStatus : Nat)

namespace PairCall

def step (s : IoState) : PairCall → Option IoState
  | create cqAddr sqAddr cqStatus sqStatus =>
      some (adminCreateIoQueuePair s cqAddr sqAddr cqStatus sqStatus).2
  | delete i sqStatus cqStatus =>
      if i < s.aqp.numIoQueuePairsSupported then adminDeleteIoQueuePair s i sqStatus cqStatus
      else none

def machine (cap0 : Dword) (cpl : Cpl) : Machine IoState PairCall where
  init s := ∃ dstrd cqDb sqDb sqDmaAddrs cqDmaAddrs heap dma,
    s = ⟨adminInitTables cap0 dstrd cqDb sqDb cpl sqDmaAddrs cqDmaAddrs, heap, 0, [], dma, .empty⟩
  step := step

def HoldsPair (s : IoState) (i : Nat) : Prop :=
  s.ctl.cqs (i + 1) = some ⟨s.aqp.cqDmaAddrs i, s.aqp.ioQueueSize⟩ ∧
    s.ctl.sqs (i + 1) = some ⟨s.aqp.sqDmaAddrs i, s.aqp.ioQueueSize, i + 1⟩

/-- What is asked of one call. A create returns a pair only if the controller holds its
queues; if one of its commands fails it returns NULL and leaves everything as it was. A
delete frees no memory that a queue still held by the controller lies in; the controller does
not change any more once the commands are completed. -/
def Safe (s : IoState) : PairCall → Prop
  | create cqAddr sqAddr cqStatus sqStatus =>
      let call := adminCreateIoQueuePair s cqAddr sqAddr cqStatus sqStatus
      (∀ newQp, call.1 = some newQp → ∃ i, call.2.aqp.ioQpList i = some newQp ∧
          HoldsPair call.2 i) ∧
        (s.reserve.1 ≠ none → cqStatus ≠ 0 ∨ sqStatus ≠ 0 →
          call.1 = none ∧ call.2.aqp.queueUseMark = s.aqp.queueUseMark ∧
            call.2.aqp.numIoQueuePairsUsed = s.aqp.numIoQueuePairsUsed ∧ call.2.ctl = s.ctl)
  | delete i sqStatus cqStatus => s.aqp.queueUseMark i = true →
      ∀ s', adminDeleteIoQueuePair s i sqStatus cqStatus = some s' →
        (∀ cq, s'.ctl.cqs (i + 1) = some cq → cq.addr ≠ s.aqp.cqDmaAddrs i) ∧
          ∀ sq, s'.ctl.sqs (i + 1) = some sq → sq.addr ≠ s.aqp.sqDmaAddrs i

def Succeeds (s : IoState) : PairCall → Prop
  | create _ _ cqStatus sqStatus =>
      ∀ i newQp, s.reserve.1 = some (i, newQp) → cqStatus = 0 ∧ sqStatus = 0 ∧ i + 1 < 2 ^ 16
  | delete i sqStatus cqStatus => s.aqp.queueUseMark i = true → sqStatus = 0 ∧ cqStatus = 0

structure PairsHeld (s : IoState) : Prop where
  positive : 0 < s.aqp.ioQueueSize
  size : s.aqp.ioQueueSize ≤ 4096
  listed : ∀ i, s.aqp.queueUseMark i = true → ∃ newQp, s.aqp.ioQpList i = some newQp
  held : ∀ i, s.aqp.queueUseMark i = true → i + 1 < 2 ^ 16 ∧ HoldsPair s i
  far : ∀ q, 2 ^ 16 ≤ q → s.ctl.cqs q = none
  blocks : ∀ i newQp, s.aqp.ioQpList i = some newQp → newQp < s.blocks

theorem PairsHeld.start {cap0 : Dword} {cpl : Cpl} {s : IoState}
    (initial : (machine cap0 cpl).init s) : PairsHeld s := by
  obtain ⟨dstrd, cqDb, sqDb, sqDmaAddrs, cqDmaAddrs, heap, dma, rfl⟩ := initial
  have largest : (adminInitTables cap0 dstrd cqDb sqDb cpl sqDmaAddrs cqDmaAddrs).ioQueueSize =
      min (mqes cap0 + 1) 4096 := by
    simp only [AdminQueuePair.ioQueueSize, adminInitTables, maxQueueSize_eq]
    split <;> omega
  constructor
  · simp only [largest]
    omega
  · simp only [largest]
    omega
  · intro i marked
    cases marked
  · intro i marked
    cases marked
  · intro q _
    rfl
  · intro i newQp listed
    cases listed

theorem PairsHeld.pairs {s : IoState} (held : PairsHeld s) : PairsHold (fun _ _ => True) s :=
  ⟨held.listed, held.blocks, fun _ _ _ _ => trivial⟩

section Create

variable {s : IoState} {i used : Nat}
  (taken : s.reserve = (some (i, s.blocks), { s with
    blocks := s.blocks + 1
    aqp := { s.aqp with
      numIoQueuePairsUsed := used
      queueUseMark := Function.update s.aqp.queueUseMark i true } }))

include taken

theorem PairsHeld.create_succeeds (held : PairsHeld s) (slot : i + 1 < 2 ^ 16)
    (cqAddr sqAddr : BitVec 64) :
    HoldsPair (adminCreateIoQueuePair s cqAddr sqAddr 0 0).2 i ∧
      ∀ j, j ≠ i → HoldsPair s j →
        HoldsPair (adminCreateIoQueuePair s cqAddr sqAddr 0 0).2 j := by
  obtain ⟨_, tables, _, ctl⟩ := IoState.create_taken taken cqAddr sqAddr 0 0
  rw [IoController.answer_success, IoController.answer_success,
    IoController.execute_crtIoCq held.positive held.size slot,
    IoController.execute_crtIoSq held.positive held.size slot] at ctl
  constructor
  · unfold HoldsPair
    rw [tables, ctl]
    simp [AdminQueuePair.ioQueueSize]
  · intro j other before
    unfold HoldsPair at before ⊢
    rw [tables, ctl]
    simpa [AdminQueuePair.ioQueueSize, other] using before

theorem PairsHeld.create_kept (held : PairsHeld s) (slot : i + 1 < 2 ^ 16)
    (cqAddr sqAddr : BitVec 64) : PairsHeld (adminCreateIoQueuePair s cqAddr sqAddr 0 0).2 := by
  obtain ⟨_, tables, _, ctl⟩ := IoState.create_taken taken cqAddr sqAddr 0 0
  obtain ⟨mine, others⟩ := held.create_succeeds taken slot cqAddr sqAddr
  have pairs := held.pairs.create cqAddr sqAddr 0 0 fun _ _ _ _ => trivial
  constructor
  · rw [tables]
    exact held.positive
  · rw [tables]
    exact held.size
  · exact pairs.listed
  · intro j marked
    rw [tables] at marked
    by_cases same : j = i
    · exact same ▸ ⟨slot, mine⟩
    · simp only [Function.update_of_ne same] at marked
      exact ⟨(held.held j marked).1, others j same (held.held j marked).2⟩
  · intro q far
    rw [ctl, IoController.answer_far _ _ _ far, IoController.answer_far _ _ _ far]
    exact held.far q far
  · exact pairs.blocks

/-- A create that meets what is asked of it gave two commands that succeeded, for an identifier
that fits. -/
theorem PairsHeld.create_succeeded (held : PairsHeld s) {cqAddr sqAddr : BitVec 64}
    {cqStatus sqStatus : Nat} (safe : Safe s (.create cqAddr sqAddr cqStatus sqStatus)) :
    cqStatus = 0 ∧ sqStatus = 0 ∧ i + 1 < 2 ^ 16 := by
  obtain ⟨returned, rollback⟩ := safe
  obtain ⟨result, tables, _, ctl⟩ := IoState.create_taken taken cqAddr sqAddr cqStatus sqStatus
  have success : cqStatus = 0 ∧ sqStatus = 0 := by
    by_contra failed
    have failure := rollback (by rw [taken]; simp) (by tauto)
    rw [result] at failure
    cases failure.1
  refine ⟨success.1, success.2, ?_⟩
  obtain ⟨k, listed, cq, _⟩ := returned s.blocks result
  have same : k = i := by
    by_contra other
    rw [tables] at listed
    have before : s.aqp.ioQpList k = some s.blocks :=
      (Function.update_of_ne other ..).symm.trans listed
    exact lt_irrefl _ (held.blocks k s.blocks before)
  by_contra wide
  have far : 2 ^ 16 ≤ i + 1 := by omega
  rw [same, ctl, IoController.answer_far _ _ _ far, IoController.answer_far _ _ _ far,
    held.far _ far] at cq
  cases cq

end Create

variable {s : IoState}

theorem PairsHeld.create (held : PairsHeld s) (cqAddr sqAddr : BitVec 64)
    (cqStatus sqStatus : Nat) :
    (Safe s (.create cqAddr sqAddr cqStatus sqStatus) ↔
        Succeeds s (.create cqAddr sqAddr cqStatus sqStatus)) ∧
      (Succeeds s (.create cqAddr sqAddr cqStatus sqStatus) →
        PairsHeld (adminCreateIoQueuePair s cqAddr sqAddr cqStatus sqStatus).2) := by
  rcases s.reserve_cases with ⟨used, refused⟩ | ⟨i, used, _, _, taken⟩
  · have call := IoState.create_refused refused cqAddr sqAddr cqStatus sqStatus
    refine ⟨iff_of_true ⟨?_, ?_⟩ ?_, fun _ => ?_⟩
    · intro newQp returned
      rw [call] at returned
      cases returned
    · intro some_slot
      rw [refused] at some_slot
      exact absurd rfl some_slot
    · intro i newQp slot
      rw [refused] at slot
      cases slot
    · rw [call]
      exact ⟨held.positive, held.size, held.listed, held.held, held.far, held.blocks⟩
  · have reserved : s.reserve.1 = some (i, s.blocks) := congrArg Prod.fst taken
    refine ⟨⟨?_, ?_⟩, ?_⟩
    · intro safe j newQp slot
      rw [reserved, Option.some.injEq, Prod.mk.injEq] at slot
      exact slot.1 ▸ held.create_succeeded taken safe
    · intro success
      obtain ⟨rfl, rfl, slot⟩ := success i s.blocks reserved
      obtain ⟨result, tables, _, _⟩ := IoState.create_taken taken cqAddr sqAddr 0 0
      refine ⟨?_, ?_⟩
      · intro newQp returned
        rw [result, Option.some.injEq] at returned
        refine ⟨i, ?_, (held.create_succeeds taken slot cqAddr sqAddr).1⟩
        rw [tables, ← returned]
        exact Function.update_self ..
      · intro _ failed
        simp at failed
    · intro success
      obtain ⟨rfl, rfl, slot⟩ := success i s.blocks reserved
      exact held.create_kept taken slot cqAddr sqAddr

theorem PairsHeld.delete_kept (held : PairsHeld s) {i : Nat} {s' : IoState}
    (tables : s'.aqp = { s.aqp with queueUseMark := Function.update s.aqp.queueUseMark i false })
    (blocks : s'.blocks = s.blocks)
    (ctl : s'.ctl = ⟨Function.update s.ctl.cqs (i + 1) none,
      Function.update s.ctl.sqs (i + 1) none⟩) : PairsHeld s' := by
  constructor
  · rw [tables]
    exact held.positive
  · rw [tables]
    exact held.size
  · intro j set
    rw [tables] at set ⊢
    by_cases mine : j = i
    · simp [mine] at set
    · simp only [Function.update_of_ne mine] at set
      exact held.listed j set
  · intro j set
    rw [tables] at set
    by_cases mine : j = i
    · simp [mine] at set
    · simp only [Function.update_of_ne mine] at set
      refine ⟨(held.held j set).1, ?_⟩
      have before := (held.held j set).2
      unfold HoldsPair at before ⊢
      rw [tables, ctl]
      simpa [AdminQueuePair.ioQueueSize, mine] using before
  · intro q far
    rw [ctl]
    by_cases mine : q = i + 1
    · simp [mine]
    · simpa [mine] using held.far q far
  · intro j newQp now
    rw [tables] at now
    rw [blocks]
    exact held.blocks j newQp now

theorem PairsHeld.delete (held : PairsHeld s) (i sqStatus cqStatus : Nat) :
    (Safe s (.delete i sqStatus cqStatus) ↔ Succeeds s (.delete i sqStatus cqStatus)) ∧
      (Succeeds s (.delete i sqStatus cqStatus) →
        ∀ s', adminDeleteIoQueuePair s i sqStatus cqStatus = some s' → PairsHeld s') := by
  cases marked : s.aqp.queueUseMark i with
  | false =>
      have call := IoState.delete_unmarked marked sqStatus cqStatus
      refine ⟨iff_of_true ?_ ?_, ?_⟩
      · intro set
        rw [marked] at set
        cases set
      · intro set
        rw [marked] at set
        cases set
      · intro _ s' returned
        rw [call, Option.some.injEq] at returned
        exact returned ▸ held
  | true =>
      obtain ⟨delQp, listed⟩ := held.listed i marked
      obtain ⟨slot, cq, sq⟩ := held.held i marked
      have call := IoState.delete_marked marked listed sqStatus cqStatus
      have emptied : sqStatus = 0 → cqStatus = 0 →
          (s.ctl.answer (delIoSqCmd i) sqStatus).answer (delIoCqCmd i) cqStatus =
            ⟨Function.update s.ctl.cqs (i + 1) none, Function.update s.ctl.sqs (i + 1) none⟩ := by
        rintro rfl rfl
        rw [IoController.answer_success, IoController.answer_success,
          IoController.execute_delIoSq slot, IoController.execute_delIoCq slot]
      refine ⟨⟨?_, ?_⟩, ?_⟩
      · intro safe _
        obtain ⟨cqGone, sqGone⟩ := safe marked _ call
        constructor
        · by_contra failed
          apply sqGone ⟨s.aqp.sqDmaAddrs i, s.aqp.ioQueueSize, i + 1⟩ _ rfl
          rw [IoController.answer_failure _ _ failed, IoController.answer_delIoCq_sqs slot]
          exact sq
        · by_contra failed
          apply cqGone ⟨s.aqp.cqDmaAddrs i, s.aqp.ioQueueSize⟩ _ rfl
          rw [IoController.answer_failure _ _ failed, IoController.answer_delIoSq_cqs slot]
          exact cq
      · intro success _ s' returned
        obtain ⟨sqDone, cqDone⟩ := success marked
        rw [call, Option.some.injEq] at returned
        subst returned
        simp [emptied sqDone cqDone]
      · intro success s' returned
        obtain ⟨sqDone, cqDone⟩ := success marked
        rw [call, Option.some.injEq] at returned
        subst returned
        exact held.delete_kept rfl rfl (emptied sqDone cqDone)

/-- A run of calls meets what is asked of each of them exactly if all its commands succeed
and its queue identifiers fit. -/
theorem safe_iff_succeeds (cap0 : Dword) (cpl : Cpl) (s : IoState)
    (initial : (machine cap0 cpl).init s) (calls : List PairCall) :
    RunMeets (machine cap0 cpl) Safe s calls ↔ RunMeets (machine cap0 cpl) Succeeds s calls := by
  have held := PairsHeld.start initial
  clear initial
  induction calls generalizing s with
  | nil => exact Iff.rfl
  | cons call rest ih =>
      have here : (Safe s call ↔ Succeeds s call) ∧
          (Succeeds s call → ∀ s', step s call = some s' → PairsHeld s') := by
        cases call with
        | create cqAddr sqAddr cqStatus sqStatus =>
            obtain ⟨same, kept⟩ := held.create cqAddr sqAddr cqStatus sqStatus
            refine ⟨same, fun success s' taken => ?_⟩
            rw [step, Option.some.injEq] at taken
            exact taken ▸ kept success
        | delete i sqStatus cqStatus =>
            obtain ⟨same, kept⟩ := held.delete i sqStatus cqStatus
            refine ⟨same, fun success s' taken => kept success s' ?_⟩
            rw [step] at taken
            split at taken
            · exact taken
            · cases taken
      constructor
      · rintro ⟨safe, later⟩
        have success := here.1.mp safe
        exact ⟨success, fun s' taken => (ih s' (here.2 success s' taken)).mp (later s' taken)⟩
      · rintro ⟨success, later⟩
        exact ⟨here.1.mpr success,
          fun s' taken => (ih s' (here.2 success s' taken)).mpr (later s' taken)⟩

theorem safe_create_delete :
    RunMeets (machine 1#32 Cpl.zero) Safe (QpSystem.fresh (ι := Unit) 1#32 Cpl.zero).io
      [.create 0x1000#64 0x2000#64 0 0, .delete 0 0 0] := by
  apply (safe_iff_succeeds 1#32 Cpl.zero _ ⟨_, _, _, _, _, _, _, rfl⟩ _).mpr
  refine ⟨?_, fun _ _ => ⟨fun _ => ⟨rfl, rfl⟩, fun _ _ => trivial⟩⟩
  intro i newQp slot
  have taken : (QpSystem.fresh (ι := Unit) 1#32 Cpl.zero).io.reserve.1 = some (0, 0) := by
    decide +kernel
  obtain ⟨rfl, _⟩ := Prod.mk.inj (Option.some.inj (taken.symm.trans slot))
  exact ⟨rfl, rfl, by norm_num⟩

/-- The first Create I/O Completion Queue command fails with status 1; the create returns its
pair all the same. -/
theorem pair_returned_after_failure :
    ¬ ∀ (cap0 : Dword) (cpl : Cpl) (s : IoState) (calls : List PairCall),
      (machine cap0 cpl).init s → RunMeets (machine cap0 cpl) Safe s calls := by
  intro statuses_always_read
  obtain ⟨⟨_, rollback⟩, _⟩ := statuses_always_read 1#32 Cpl.zero
    (QpSystem.fresh (ι := Unit) 1#32 Cpl.zero).io [.create 0x1000#64 0x2000#64 1 0]
    ⟨_, _, _, _, _, _, _, rfl⟩
  have taken : (QpSystem.fresh (ι := Unit) 1#32 Cpl.zero).io.reserve.1 ≠ none := by
    decide +kernel
  have returned : (adminCreateIoQueuePair (QpSystem.fresh (ι := Unit) 1#32 Cpl.zero).io
      0x1000#64 0x2000#64 1 0).1 = some 0 := by
    decide +kernel
  have result := (rollback taken (.inl one_ne_zero)).1
  rw [returned] at result
  cases result

end PairCall

end BafsNvme
