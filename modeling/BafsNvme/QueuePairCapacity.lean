import BafsNvme.QueuePairCalls

/-! The counter of used pairs against the mark array, over every interleaving of create and
delete calls. -/

namespace BafsNvme

open Machine

def CapacityAgrees (s : IoState) : Prop :=
  s.aqp.numIoQueuePairsUsed = setCount s.aqp.queueUseMark s.aqp.numIoQueuePairsSupported ∧
    ∀ cqAddr sqAddr cqStatus sqStatus,
      (adminCreateIoQueuePair s cqAddr sqAddr cqStatus sqStatus).1 = none ↔
        ∀ i, i < s.aqp.numIoQueuePairsSupported → s.aqp.queueUseMark i = true

theorem create_none (s : IoState) (cqAddr sqAddr : BitVec 64) (cqStatus sqStatus : Nat) :
    (adminCreateIoQueuePair s cqAddr sqAddr cqStatus sqStatus).1 = none ↔ s.aqp.reserve.1 = none := by
  rcases taken : s.aqp.reserve with ⟨_ | i, aqp⟩
  · simp [adminCreateIoQueuePair, IoState.reserve, taken]
  · simp [adminCreateIoQueuePair, IoState.reserve, taken]

theorem reserve_tables (s : IoState) : s.reserve.2.aqp = s.aqp.reserve.2 := by
  rcases taken : s.aqp.reserve with ⟨_ | i, aqp⟩
  · simp [IoState.reserve, taken]
  · simp [IoState.reserve, taken]

namespace QpSystem

variable {ι : Type} [DecidableEq ι]

/-- The counter counts the set marks and the marks that deletes have cleared since. -/
structure CapacityInv (n : Nat) (s : QpSystem ι) : Prop where
  supported : s.io.aqp.numIoQueuePairsSupported = n
  most : s.io.aqp.numIoQueuePairsUsed ≤ n
  count : s.io.aqp.numIoQueuePairsUsed = setCount s.io.aqp.queueUseMark n + s.hist.cleared
  inside : ∀ t i delQp point, s.call t = some (.delete i delQp point) → i < n
  marked : s.hist.cleared = 0 → ∀ t i, deleting (s.call t) = some i → s.io.aqp.queueUseMark i = true
  unpassed : s.hist.passed = 0 → s.hist.cleared = 0 ∧ ∀ t, deleting (s.call t) = none
  passed : s.hist.passed ≠ 0 → s.hist.cleared ≠ 0 ∨ ∃ t i, deleting (s.call t) = some i

theorem CapacityInv.start {cap0 : Dword} {cpl : Cpl} {s : QpSystem ι}
    (initial : (machine ι cap0 cpl).init s) : CapacityInv (numQueuesSupported cpl) s := by
  obtain ⟨dstrd, cqDb, sqDb, sqDmaAddrs, cqDmaAddrs, heap, dma, rfl⟩ := initial
  have clear : setCount (fun _ => false) (numQueuesSupported cpl) = 0 := setCount_eq_zero.mpr (by simp)
  constructor
  · rfl
  · exact Nat.zero_le _
  · exact clear.symm
  · intro t i delQp point now
    cases now
  · intro _ t i now
    cases now
  · exact fun _ => ⟨rfl, fun _ => rfl⟩
  · exact fun none => absurd rfl none

variable {n : Nat} {s : QpSystem ι} {t : ι}

theorem deleting_next {a : QpAction} (here : s.call t = a.before)
    (same : deleting (a.after s.io) = deleting a.before) (t' : ι) :
    deleting ((s.next ⟨t, a⟩).call t') = deleting (s.call t') := by
  by_cases mine : t' = t
  · rw [mine, here, ← same]
    exact congrArg deleting (next_same s ⟨t, a⟩)
  · exact congrArg deleting (next_other mine)

theorem CapacityInv.inside_next (inv : CapacityInv n s) {a : QpAction}
    (here : s.call t = a.before) (valid : a.validIndex s.io = true) :
    ∀ t' i delQp point, (s.next ⟨t, a⟩).call t' = some (.delete i delQp point) → i < n := by
  intro t' i delQp point now
  by_cases mine : t' = t
  · subst mine
    have after : a.after s.io = some (.delete i delQp point) := (next_same s ⟨t', a⟩).symm.trans now
    cases a with
    | enter j =>
        simp only [QpAction.after, Option.some.injEq, QpCall.delete.injEq] at after
        simpa [QpAction.validIndex, after.1, inv.supported] using valid
    | reserve => simp [QpAction.after] at after
    | test j p =>
        by_cases set : s.io.aqp.queueUseMark j = true
        · simp only [QpAction.after, set, if_true, Option.some.injEq, QpCall.delete.injEq] at after
          exact after.1 ▸ inv.inside _ _ _ _ here
        · simp [QpAction.after, set] at after
    | delIoSq j p status | delIoCq j p status | freeCq j p | freeSq j p | freePair j p =>
        simp only [QpAction.after, Option.some.injEq, QpCall.delete.injEq] at after
        exact after.1 ▸ inv.inside _ _ _ _ here
    | _ => simp [QpAction.after] at after
  · exact inv.inside t' i delQp point ((next_other mine).symm.trans now)

theorem CapacityInv.plain (inv : CapacityInv n s) {a : QpAction} (here : s.call t = a.before)
    (valid : a.validIndex s.io = true)
    (supported : (a.effect s.io).aqp.numIoQueuePairsSupported = s.io.aqp.numIoQueuePairsSupported)
    (used : (a.effect s.io).aqp.numIoQueuePairsUsed = s.io.aqp.numIoQueuePairsUsed)
    (marks : (a.effect s.io).aqp.queueUseMark = s.io.aqp.queueUseMark)
    (passed : (s.hist.record s.io a).passed = s.hist.passed)
    (cleared : (s.hist.record s.io a).cleared = s.hist.cleared)
    (same : deleting (a.after s.io) = deleting a.before) : CapacityInv n (s.next ⟨t, a⟩) := by
  have deletes := deleting_next here same
  constructor
  · exact supported.trans inv.supported
  · simp only [next, used]
    exact inv.most
  · simp only [next, used, marks, cleared]
    exact inv.count
  · exact inv.inside_next here valid
  · simp only [deletes]
    simp only [next, cleared, marks]
    exact inv.marked
  · simp only [deletes]
    simp only [next, passed, cleared]
    exact inv.unpassed
  · simp only [deletes]
    simp only [next, passed, cleared]
    exact inv.passed

omit [DecidableEq ι] in
theorem CapacityInv.slot_free (inv : CapacityInv n s) (room : s.io.aqp.numIoQueuePairsUsed ≠ n) :
    ∃ i, i < n ∧ s.io.aqp.queueUseMark i = false := by
  have most := inv.most
  have count := inv.count
  exact setCount_lt_exists (by omega)

theorem CapacityInv.reserve (inv : CapacityInv n s) (small : n ≤ 2 ^ 16)
    (here : s.call t = none) : CapacityInv n (s.next ⟨t, .reserve⟩) := by
  have deletes := deleting_next (a := .reserve) here (by
    rcases taken : s.io.reserve with ⟨_ | ⟨i, newQp⟩, io⟩ <;>
      simp [QpAction.after, QpAction.before, deleting, taken])
  have inside := inv.inside_next (a := .reserve) here rfl
  have history : (s.next ⟨t, .reserve⟩).hist.passed = s.hist.passed ∧
      (s.next ⟨t, .reserve⟩).hist.cleared = s.hist.cleared := by
    rcases taken : s.io.reserve with ⟨_ | ⟨i, newQp⟩, io⟩ <;>
      simp [next, QpHistory.record, taken]
  have tables : (s.next ⟨t, .reserve⟩).io.aqp = s.io.aqp.reserve.2 := reserve_tables s.io
  have most := inv.most
  rcases reserve_cases s.io.aqp with ⟨taken, _⟩ | ⟨room, _, all⟩ | ⟨i, room, bound, free, taken⟩
  · rw [taken] at tables
    constructor
    · rw [tables]; exact inv.supported
    · rw [tables]; exact inv.most
    · rw [tables, history.2]; exact inv.count
    · exact inside
    · simp only [deletes, history.2, tables]; exact inv.marked
    · simp only [deletes, history.1, history.2]; exact inv.unpassed
    · simp only [deletes, history.1, history.2]; exact inv.passed
  · rw [inv.supported] at room all
    obtain ⟨i, bound, free⟩ := inv.slot_free room
    rw [all i bound] at free
    cases free
  · rw [taken] at tables
    rw [inv.supported] at room bound
    have counted : (s.io.aqp.numIoQueuePairsUsed + 1) % 2 ^ 32 = s.io.aqp.numIoQueuePairsUsed + 1 :=
      Nat.mod_eq_of_lt (by omega)
    constructor
    · rw [tables]; exact inv.supported
    · rw [tables]
      simp only [counted]
      omega
    · rw [tables, history.2]
      have count := inv.count
      simp only [counted, setCount_set bound free]
      omega
    · exact inside
    · simp only [deletes, history.2, tables]
      intro none_cleared t' j mine
      by_cases same : j = i
      · rw [same, Function.update_self]
      · rw [Function.update_of_ne same]
        exact inv.marked none_cleared t' j mine
    · simp only [deletes, history.1, history.2]; exact inv.unpassed
    · simp only [deletes, history.1, history.2]; exact inv.passed

theorem CapacityInv.test (inv : CapacityInv n s) {i : Nat} {delQp : Option Nat}
    (here : s.call t = some (.delete i delQp .entered)) :
    CapacityInv n (s.next ⟨t, .test i delQp⟩) := by
  cases set : s.io.aqp.queueUseMark i with
  | false =>
      exact inv.plain here rfl rfl rfl rfl (by simp [QpHistory.record, set])
        (by simp [QpHistory.record, set]) (by simp [QpAction.after, set, deleting, QpAction.before])
  | true =>
      have mine : deleting ((s.next ⟨t, .test i delQp⟩).call t) = some i := by
        rw [show (s.next ⟨t, .test i delQp⟩).call t = _ from next_same s ⟨t, _⟩]
        simp [QpAction.after, set, deleting]
      have cleared : (s.next ⟨t, .test i delQp⟩).hist.cleared = s.hist.cleared := by
        simp [next, QpHistory.record, set]
      have passed : (s.next ⟨t, .test i delQp⟩).hist.passed = s.hist.passed + 1 := by
        simp [next, QpHistory.record, set]
      constructor
      · exact inv.supported
      · exact inv.most
      · rw [cleared]
        exact inv.count
      · exact inv.inside_next here rfl
      · rw [cleared]
        intro none_cleared t' j now
        by_cases same : t' = t
        · rw [same, mine, Option.some.injEq] at now
          exact now ▸ set
        · rw [next_other (e := ⟨t, _⟩) same] at now
          exact inv.marked none_cleared t' j now
      · rw [passed]
        intro impossible
        omega
      · exact fun _ => .inr ⟨t, i, mine⟩

theorem CapacityInv.clearMark (inv : CapacityInv n s) {i delQp : Nat}
    (here : s.call t = some (.delete i (some delQp) .pairFreed)) :
    CapacityInv n (s.next ⟨t, .clearMark i delQp⟩) := by
  have bound := inv.inside t i _ _ here
  have mine : deleting (s.call t) = some i := by simp [here, deleting]
  have under_way : s.hist.passed ≠ 0 := by
    intro none_passed
    rw [(inv.unpassed none_passed).2 t] at mine
    cases mine
  have now_cleared : (s.next ⟨t, .clearMark i delQp⟩).hist.cleared ≠ 0 := by
    intro zero
    have sum : s.hist.cleared + (s.io.aqp.queueUseMark i).toNat = 0 := zero
    have set := inv.marked (by omega) t i mine
    rw [set] at sum
    simp at sum
  constructor
  · exact inv.supported
  · exact inv.most
  · show s.io.aqp.numIoQueuePairsUsed =
      setCount (Function.update s.io.aqp.queueUseMark i false) n +
        (s.hist.cleared + (s.io.aqp.queueUseMark i).toNat)
    rw [inv.count]
    cases set : s.io.aqp.queueUseMark i with
    | true =>
        rw [← setCount_clear bound set, Bool.toNat_true]
        omega
    | false =>
        rw [← set, Function.update_eq_self, set, Bool.toNat_false, Nat.add_zero]
  · exact inv.inside_next here rfl
  · exact fun zero => absurd zero now_cleared
  · exact fun zero => absurd zero under_way
  · exact fun _ => .inl now_cleared

theorem CapacityInv.step {s' : QpSystem ι} {e : QpEvent ι} (inv : CapacityInv n s)
    (small : n ≤ 2 ^ 16) (taken : s.step e = some s') : CapacityInv n s' := by
  obtain ⟨t, a⟩ := e
  obtain ⟨here, valid, rfl⟩ := step_cases taken
  cases a with
  | reserve => exact inv.reserve small here
  | test i delQp => exact inv.test here
  | clearMark i delQp => exact inv.clearMark here
  | freePair i delQp =>
      apply inv.plain here valid rfl rfl rfl _ _ rfl <;>
        cases list : s.io.aqp.ioQpList i <;> simp [QpHistory.record, list, QpHistory.tear]
  | _ => exact inv.plain here valid rfl rfl rfl rfl rfl rfl

/-- In a state with no call in progress the counter and the marks agree, and a create returns
NULL exactly when all slots are in use, if and only if no delete has found its mark set. -/
theorem capacity_agrees (cap0 : Dword) (cpl : Cpl) (s : QpSystem ι)
    (reached : Reachable (machine ι cap0 cpl) anyEvent s) (quiet : s.Quiet) :
    CapacityAgrees s.io ↔ s.hist.passed = 0 := by
  obtain ⟨positive, small⟩ := numQueuesSupported_bounds cpl
  have inv : CapacityInv (numQueuesSupported cpl) s :=
    reached.invariant (fun _ => CapacityInv.start) (fun _ _ _ inv _ taken => inv.step small taken)
  have supported := inv.supported
  have count := inv.count
  constructor
  · rintro ⟨agrees, _⟩
    rw [supported] at agrees
    by_contra some_passed
    rcases inv.passed some_passed with cleared | ⟨t, i, under_way⟩
    · omega
    · rw [quiet t] at under_way
      cases under_way
  · intro none_passed
    have none_cleared := (inv.unpassed none_passed).1
    refine ⟨by rw [supported]; omega, ?_⟩
    intro cqAddr sqAddr cqStatus sqStatus
    rw [create_none, supported]
    constructor
    · intro refused i bound
      by_contra clear
      rcases reserve_cases s.io.aqp with ⟨_, full⟩ | ⟨_, _, all⟩ | ⟨j, _, _, _, taken⟩
      · have room : setCount s.io.aqp.queueUseMark (numQueuesSupported cpl) <
            numQueuesSupported cpl := by
          have set := setCount_set bound (by simpa using clear)
          have most := setCount_le (Function.update s.io.aqp.queueUseMark i true)
            (numQueuesSupported cpl)
          omega
        omega
      · exact clear (all i (by omega))
      · rw [taken] at refused
        cases refused
    · intro all
      rcases reserve_cases s.io.aqp with ⟨taken, _⟩ | ⟨_, taken, _⟩ | ⟨i, _, bound, free, _⟩
      · rw [taken]
      · rw [taken]
      · rw [all i (by omega)] at free
        cases free

theorem capacity_agrees_after_create :
    ∃ s, (machine Unit 1#32 Cpl.zero).run (fresh 1#32 Cpl.zero)
        ((QpAction.wholeCreate 0 0 0 0 0 0).map (QpEvent.mk ())) = some s ∧
      CapacityAgrees s.io := by
  have begins : Reachable (machine Unit 1#32 Cpl.zero) anyEvent (fresh 1#32 Cpl.zero) :=
    .start (fresh_init 1#32 Cpl.zero)
  have ended : ((machine Unit 1#32 Cpl.zero).run (fresh 1#32 Cpl.zero)
      ((QpAction.wholeCreate 0 0 0 0 0 0).map (QpEvent.mk ()))).map (fun s =>
        (s.call (), s.hist.passed)) = some (none, 0) := by
    decide +kernel
  obtain ⟨s, ran, reached, facts⟩ := begins.computed ended
  simp only [Prod.mk.injEq] at facts
  exact ⟨s, ran, (capacity_agrees 1#32 Cpl.zero s reached fun _ => facts.1).mpr
    facts.2⟩

/-- A controller that grants one pair: after it is created and deleted no slot is marked, but
the counter still stands at one and the next create returns NULL. -/
theorem deleted_pair_still_counted :
    ¬ ∀ (ι : Type) [DecidableEq ι] (cap0 : Dword) (cpl : Cpl) (s : QpSystem ι),
      Reachable (machine ι cap0 cpl) anyEvent s → s.Quiet → CapacityAgrees s.io := by
  intro counter_always_agrees
  have begins : Reachable (machine Unit 1#32 Cpl.zero) anyEvent (fresh 1#32 Cpl.zero) :=
    .start (fresh_init 1#32 Cpl.zero)
  have ended : ((machine Unit 1#32 Cpl.zero).run (fresh 1#32 Cpl.zero)
      ((QpAction.wholeCreate 0 0 0 0 0 0 ++ QpAction.wholeDelete 0 0 0 0).map
        (QpEvent.mk ()))).map (fun s =>
        (s.call (), s.io.aqp.numIoQueuePairsUsed, s.io.aqp.numIoQueuePairsSupported,
          s.io.aqp.queueUseMark 0)) = some (none, 1, 1, false) := by
    decide +kernel
  obtain ⟨s, _, reached, facts⟩ := begins.computed ended
  simp only [Prod.mk.injEq] at facts
  obtain ⟨quiet, used, supported, clear⟩ := facts
  obtain ⟨agrees, _⟩ := counter_always_agrees Unit 1#32 Cpl.zero s reached fun _ => quiet
  have none_set : setCount s.io.aqp.queueUseMark 1 = 0 := by
    rw [setCount_eq_zero]
    intro i bound
    obtain rfl : i = 0 := by omega
    exact clear
  rw [supported, none_set, used] at agrees
  cases agrees

end QpSystem

end BafsNvme
