import BafsNvme.QueuePairAgreement
import BafsNvme.QueuePairCapacity

/-! The queue identifiers that Create and Delete commands carry against the two numbers of queues
that the controller grants, over every interleaving of calls. -/

namespace BafsNvme

open Machine

theorem reserve_lowest {aqp : AdminQueuePair} {i : Nat} (taken : aqp.reserve.1 = some i) :
    aqp.numIoQueuePairsUsed ≠ aqp.numIoQueuePairsSupported ∧ i < aqp.numIoQueuePairsSupported ∧
      aqp.queueUseMark i = false ∧ ∀ j, j < i → aqp.queueUseMark j = true := by
  rw [AdminQueuePair.reserve] at taken
  split at taken
  · cases taken
  · next room =>
    simp only at taken
    split at taken
    · cases taken
    · next found =>
      simp only [Option.some.injEq] at taken
      subst taken
      obtain ⟨_, bound, free, before⟩ := firstFree_some found
      exact ⟨room, by omega, free, fun j => before j (Nat.zero_le j)⟩

namespace QpSystem

variable {ι : Type} [DecidableEq ι]

def SlotGranted (limits : IoLimits) (s : QpSystem ι) (e : QpEvent ι) : Prop :=
  e.action = .reserve → s.io.aqp.numIoQueuePairsUsed ≠ s.io.aqp.numIoQueuePairsSupported →
    (∃ i, i < s.io.aqp.numIoQueuePairsSupported ∧ s.io.aqp.queueUseMark i = false) →
      ∃ i, i ≤ limits.nsqa ∧ s.io.aqp.queueUseMark i = false

/-- The identifier in a command is that of its slot, a Create command's is one the controller has
granted for that kind of queue, and the queue size stands whole beside it. -/
structure QidsGranted (limits : IoLimits) (s : QpSystem ι) (e : QpEvent ι) : Prop where
  slot : ∀ cmd status, e.action.command s.io = some (cmd, status) →
    ∃ i, slotOf e.action.before = some i ∧ cmd.qid = i + 1
  cq : ∀ cmd status, e.action.command s.io = some (cmd, status) →
    cmd.opcode = AdminCmdOpcode.CRT_IO_CQ.code →
      cmd.qid ≤ limits.ncqa + 1 ∧ cmd.qsize + 1 = s.io.aqp.ioQueueSize
  sq : ∀ cmd status, e.action.command s.io = some (cmd, status) →
    cmd.opcode = AdminCmdOpcode.CRT_IO_SQ.code →
      cmd.qid ≤ limits.nsqa + 1 ∧ cmd.qsize + 1 = s.io.aqp.ioQueueSize

omit [DecidableEq ι] in
theorem QidsGranted.of_command {limits : IoLimits} {s : QpSystem ι} {e : QpEvent ι} {cmd : Cmd}
    {i status : Nat} (command : e.action.command s.io = some (cmd, status))
    (slot : slotOf e.action.before = some i) (qid : cmd.qid = i + 1)
    (cq : cmd.opcode = AdminCmdOpcode.CRT_IO_CQ.code →
      cmd.qid ≤ limits.ncqa + 1 ∧ cmd.qsize + 1 = s.io.aqp.ioQueueSize)
    (sq : cmd.opcode = AdminCmdOpcode.CRT_IO_SQ.code →
      cmd.qid ≤ limits.nsqa + 1 ∧ cmd.qsize + 1 = s.io.aqp.ioQueueSize) :
    QidsGranted limits s e := by
  have only {cmd' : Cmd} {status' : Nat} (same : e.action.command s.io = some (cmd', status')) :
      cmd' = cmd := congrArg Prod.fst (Option.some.inj (same.symm.trans command))
  constructor
  · intro cmd' status' same
    exact ⟨i, slot, only same ▸ qid⟩
  · intro cmd' status' same
    exact only same ▸ cq
  · intro cmd' status' same
    exact only same ▸ sq

structure GrantInv (limits : IoLimits) (n : Nat) (s : QpSystem ι) : Prop where
  capacity : CapacityInv n s
  size : 1 ≤ s.io.aqp.ioQueueSize ∧ s.io.aqp.ioQueueSize ≤ 4096
  creates : ∀ t i newQp point, s.call t = some (.create i newQp point) → i < n ∧ i ≤ limits.nsqa

variable {limits : IoLimits} {n : Nat} {s : QpSystem ι}

theorem GrantInv.start {cap0 : Dword} {cpl : Cpl} (initial : (machine ι cap0 cpl).init s) :
    GrantInv limits (numQueuesSupported cpl) s := by
  have capacity := CapacityInv.start initial
  obtain ⟨dstrd, cqDb, sqDb, sqDmaAddrs, cqDmaAddrs, heap, dma, rfl⟩ := initial
  refine ⟨capacity, ?_, ?_⟩
  · have size := maxQueueSize_eq cap0
    simp only [QpSystem.start, adminInitTables, AdminQueuePair.ioQueueSize, size]
    split <;> omega
  · intro t i newQp point now
    cases now

theorem GrantInv.creates_next (inv : GrantInv limits n s) {t : ι} {a : QpAction}
    (here : s.call t = a.before) (granted : s.SlotGranted limits ⟨t, a⟩) :
    ∀ t' i newQp point, (s.next ⟨t, a⟩).call t' = some (.create i newQp point) →
      i < n ∧ i ≤ limits.nsqa := by
  intro t' i newQp point now
  by_cases mine : t' = t
  · subst mine
    have after : a.after s.io = some (.create i newQp point) := (next_same s ⟨t', a⟩).symm.trans now
    cases a with
    | reserve =>
        obtain ⟨⟨j, block⟩, taken, call⟩ := Option.map_eq_some_iff.mp after
        cases call
        have slot : s.io.aqp.reserve.1 = some i := by
          rcases reserved : s.io.aqp.reserve with ⟨_ | k, aqp⟩
          · simp [IoState.reserve, reserved] at taken
          · simp only [IoState.reserve, reserved, Option.some.injEq, Prod.mk.injEq] at taken
            exact congrArg some taken.1
        obtain ⟨room, bound, free, before⟩ := reserve_lowest slot
        obtain ⟨k, few, other⟩ := granted rfl room ⟨i, bound, free⟩
        refine ⟨inv.capacity.supported ▸ bound, ?_⟩
        -- a free slot below `i` would have been taken instead
        by_contra above
        have set := before k (by omega)
        rw [other] at set
        cases set
    | allocPair j p | allocCq j p addr | crtIoCq j p status | allocSq j p addr
    | crtIoSq j p status =>
        simp only [QpAction.after, Option.some.injEq, QpCall.create.injEq] at after
        exact after.1 ▸ inv.creates _ _ _ _ here
    | test j p =>
        by_cases set : s.io.aqp.queueUseMark j = true
        · simp [QpAction.after, set] at after
        · simp [QpAction.after, set] at after
    | _ => simp [QpAction.after] at after
  · exact inv.creates t' i newQp point ((next_other mine).symm.trans now)

theorem GrantInv.step (inv : GrantInv limits n s) (small : n ≤ 2 ^ 16) {e : QpEvent ι}
    {s' : QpSystem ι} (granted : s.SlotGranted limits e) (taken : s.step e = some s') :
    GrantInv limits n s' := by
  have capacity := inv.capacity.step small taken
  obtain ⟨here, _, rfl⟩ := step_cases taken
  refine ⟨capacity, ?_, inv.creates_next here granted⟩
  have same := (effect_constants s.io e.action).2
  exact same.symm ▸ inv.size

theorem GrantInv.qids (inv : GrantInv limits n s) (cqs : n = limits.ncqa + 1)
    (most : limits.ncqa ≤ 65534) {e : QpEvent ι} {s' : QpSystem ι} (taken : s.step e = some s') :
    QidsGranted limits s e := by
  obtain ⟨t, a⟩ := e
  obtain ⟨here, _, _⟩ := step_cases taken
  obtain ⟨one, size⟩ := inv.size
  cases a with
  | crtIoCq i newQp status =>
      obtain ⟨bound, _⟩ := inv.creates t i newQp .cqReady here
      obtain ⟨code, qid, qsize, _⟩ :=
        crtIoCqCmd_fields (s.io.aqp.cqDmaAddrs i) size (by omega : i + 1 < 2 ^ 16)
      apply QidsGranted.of_command rfl rfl qid
      · intro _
        rw [qid, qsize]
        omega
      · intro other
        exact absurd (code.symm.trans other) (by decide)
  | crtIoSq i newQp status =>
      obtain ⟨bound, few⟩ := inv.creates t i newQp .sqReady here
      obtain ⟨code, qid, qsize, _, _⟩ :=
        crtIoSqCmd_fields (s.io.aqp.sqDmaAddrs i) size (by omega : i + 1 < 2 ^ 16)
      apply QidsGranted.of_command rfl rfl qid
      · intro other
        exact absurd (code.symm.trans other) (by decide)
      · intro _
        rw [qid, qsize]
        omega
  | delIoSq i delQp status =>
      have bound := inv.capacity.inside t i delQp .tested here
      obtain ⟨code, qid⟩ := delIoSqCmd_fields (by omega : i + 1 < 2 ^ 16)
      apply QidsGranted.of_command rfl rfl qid
      · intro other
        exact absurd (code.symm.trans other) (by decide)
      · intro other
        exact absurd (code.symm.trans other) (by decide)
  | delIoCq i delQp status =>
      have bound := inv.capacity.inside t i delQp .sqDeleted here
      obtain ⟨code, qid⟩ := delIoCqCmd_fields (by omega : i + 1 < 2 ^ 16)
      apply QidsGranted.of_command rfl rfl qid
      · intro other
        exact absurd (code.symm.trans other) (by decide)
      · intro other
        exact absurd (code.symm.trans other) (by decide)
  | _ => exact ⟨nofun, nofun, nofun⟩

omit [DecidableEq ι] in
theorem slotGranted_of_enough (supported : s.io.aqp.numIoQueuePairsSupported = limits.ncqa + 1)
    (enough : limits.ncqa ≤ limits.nsqa) (e : QpEvent ι) : s.SlotGranted limits e := by
  rintro _ _ ⟨i, bound, free⟩
  exact ⟨i, by omega, free⟩

/-! With fewer submission queues granted one thread gets to an identifier beyond them. -/

section Fill

variable {cap0 : Dword} {cpl : Cpl} {t : ι}

structure Filled (cpl : Cpl) (t : ι) (m : Nat) (s : QpSystem ι) : Prop where
  supported : s.io.aqp.numIoQueuePairsSupported = numQueuesSupported cpl
  used : s.io.aqp.numIoQueuePairsUsed = m
  marks : ∀ i, s.io.aqp.queueUseMark i = decide (i < m)
  idle : s.call t = none

omit [DecidableEq ι] in
theorem Filled.reserve {m : Nat} (filled : Filled cpl t m s) (room : m < numQueuesSupported cpl) :
    s.io.reserve = (some (m, s.io.blocks), { s.io with
      blocks := s.io.blocks + 1
      aqp := { s.io.aqp with
        numIoQueuePairsUsed := m + 1
        queueUseMark := Function.update s.io.aqp.queueUseMark m true } }) := by
  have most := (numQueuesSupported_bounds cpl).2
  have free : s.io.aqp.queueUseMark m = false := by
    rw [filled.marks]
    exact decide_eq_false (lt_irrefl m)
  obtain ⟨found, first⟩ := firstFree_exists room free
  obtain ⟨_, _, clear, before⟩ := firstFree_some first
  have lowest : found = m := by
    rcases Nat.lt_trichotomy found m with less | same | more
    · rw [filled.marks, decide_eq_true less] at clear
      cases clear
    · exact same
    · rw [before m (Nat.zero_le m) more] at free
      cases free
  have counted : (m + 1) % 2 ^ 32 = m + 1 := Nat.mod_eq_of_lt (by omega)
  have unlike : m ≠ numQueuesSupported cpl := room.ne
  rw [lowest] at first
  simp only [IoState.reserve, AdminQueuePair.reserve, filled.used, filled.supported, if_neg unlike,
    first, counted]

theorem exists_filled (cap0 : Dword) (cpl : Cpl) (t : ι) {m : Nat}
    (bound : m ≤ numQueuesSupported cpl) :
    ∃ s, Reachable (machine ι cap0 cpl) anyEvent s ∧ Filled cpl t m s := by
  induction m with
  | zero =>
      exact ⟨fresh cap0 cpl, .start (fresh_init cap0 cpl), rfl, rfl, fun _ => rfl, rfl⟩
  | succ m ih =>
      obtain ⟨s, reached, filled⟩ := ih (by omega)
      have taken := filled.reserve bound
      obtain ⟨as, s', ran, io, idle⟩ := create_run s filled.idle 0 0 0 0
      obtain ⟨_, tables, _, _⟩ := IoState.create_taken taken 0 0 0 0
      have marks : s'.io.aqp.queueUseMark = Function.update s.io.aqp.queueUseMark m true := by
        rw [io, tables]
      refine ⟨s', reached.extendAny _ ran, ?_, ?_, ?_, idle⟩
      · rw [io, tables]
        exact filled.supported
      · rw [io, tables]
      · intro i
        rw [marks, Function.update_apply, filled.marks]
        by_cases last : i = m
        · simp [last]
        · rw [if_neg last]
          exact decide_eq_decide.mpr (by omega)

theorem Filled.submits {m : Nat} (filled : Filled cpl t m s) (room : m < numQueuesSupported cpl)
    (reached : Reachable (machine ι cap0 cpl) anyEvent s) :
    ∃ s', Reachable (machine ι cap0 cpl) anyEvent s' ∧
      s'.call t = some (.create m s.io.blocks .sqReady) := by
  have taken := filled.reserve room
  let actions : List QpAction := [.reserve, .allocPair m s.io.blocks, .allocCq m s.io.blocks 0,
    .crtIoCq m s.io.blocks 0, .allocSq m s.io.blocks 0]
  have follows : Follows s.io (s.call t) actions
      ((((s.io.reserve.2.allocPair m s.io.blocks).allocCq m s.io.blocks 0).crtIoCq m 0).allocSq m
        s.io.blocks 0)
      (some (.create m s.io.blocks .sqReady)) := by
    simp [actions, Follows, filled.idle, QpAction.before, QpAction.validIndex, QpAction.effect,
      QpAction.after, taken]
  obtain ⟨s', ran, _, call⟩ : ∃ s', (machine ι cap0 cpl).run s (actions.map (QpEvent.mk t)) = some s' ∧
      _ ∧ s'.call t = _ := run_follows follows
  exact ⟨s', reached.extendAny _ ran, call⟩

theorem identifier_exceeds (t : ι)
    (fewer : (grantedLimits cap0 cpl).nsqa < (grantedLimits cap0 cpl).ncqa) :
    ∃ s e s', Reachable (machine ι cap0 cpl) anyEvent s ∧ s.step e = some s' ∧
      ¬ QidsGranted (grantedLimits cap0 cpl) s e := by
  -- pair `nsqa + 1` is the first one without a submission queue
  have room : (grantedLimits cap0 cpl).nsqa + 1 < numQueuesSupported cpl := Nat.succ_lt_succ fewer
  obtain ⟨s, reached, filled⟩ := exists_filled cap0 cpl t room.le
  obtain ⟨s', later, call⟩ := filled.submits room reached
  have taken := step_taken (e := ⟨t, .crtIoSq ((grantedLimits cap0 cpl).nsqa + 1) s.io.blocks 0⟩)
    call rfl
  refine ⟨s', _, _, later, taken, ?_⟩
  intro granted
  obtain ⟨i, slot, qid⟩ := granted.slot _ _ rfl
  cases slot
  have code : (crtIoSqCmd (s'.io.aqp.sqDmaAddrs ((grantedLimits cap0 cpl).nsqa + 1))
      s'.io.aqp.ioQueueSize ((grantedLimits cap0 cpl).nsqa + 1)).opcode =
      AdminCmdOpcode.CRT_IO_SQ.code := by
    simp [crtIoSqCmd, Cmd.opcode, Cmd.set, AdminCmdOpcode.code]
  have bound := (granted.sq _ _ rfl code).1
  omega

end Fill

/-- Every identifier is a granted one in the runs whose creates find a granted slot, and in all runs
if and only if no fewer submission queues are granted than completion queues. -/
theorem qids_granted (t : ι) (cap0 : Dword) (cpl : Cpl)
    (most : (grantedLimits cap0 cpl).ncqa ≤ 65534) :
    (∀ s, Reachable (machine ι cap0 cpl) (SlotGranted (grantedLimits cap0 cpl)) s →
        ∀ e s', s.step e = some s' → QidsGranted (grantedLimits cap0 cpl) s e) ∧
      ((∀ s : QpSystem ι, Reachable (machine ι cap0 cpl) anyEvent s →
          ∀ e s', s.step e = some s' → QidsGranted (grantedLimits cap0 cpl) s e) ↔
        (grantedLimits cap0 cpl).ncqa ≤ (grantedLimits cap0 cpl).nsqa) := by
  obtain ⟨_, small⟩ := numQueuesSupported_bounds cpl
  refine ⟨?_, ?_, ?_⟩
  · intro s reached e s' taken
    have inv : GrantInv (grantedLimits cap0 cpl) (numQueuesSupported cpl) s :=
      reached.invariant (fun _ => GrantInv.start)
        (fun _ _ _ inv granted taken => inv.step small granted taken)
    exact inv.qids rfl most taken
  · intro granted
    by_contra fewer
    obtain ⟨s, e, s', reached, taken, exceeds⟩ := identifier_exceeds t (Nat.lt_of_not_le fewer)
    exact exceeds (granted s reached e s' taken)
  · intro enough s reached e s' taken
    have inv : GrantInv (grantedLimits cap0 cpl) (numQueuesSupported cpl) s :=
      reached.invariant (fun _ => GrantInv.start) (fun s e s' inv _ taken =>
        inv.step small (slotGranted_of_enough inv.capacity.supported enough e) taken)
    exact inv.qids rfl most taken

theorem qids_granted_two_pairs : ∃ (s s' : QpSystem Unit) (newQp : Nat),
    Reachable (machine Unit 1#32 (grants 1 1)) anyEvent s ∧
      s.step ⟨(), .crtIoSq 1 newQp 0⟩ = some s' ∧
      QidsGranted (grantedLimits 1#32 (grants 1 1)) s ⟨(), .crtIoSq 1 newQp 0⟩ := by
  have room : 1 < numQueuesSupported (grants 1 1) := by decide
  obtain ⟨s, reached, filled⟩ := exists_filled 1#32 (grants 1 1) () room.le
  obtain ⟨s', later, call⟩ := filled.submits room reached
  have taken := step_taken (e := ⟨(), .crtIoSq 1 s.io.blocks 0⟩) call rfl
  exact ⟨s', _, _, later, taken,
    (qids_granted () 1#32 (grants 1 1) (by decide)).2.mpr (by decide) s' later _ _ taken⟩

/-- With two completion queues and one submission queue granted the second pair asks for a
submission queue that does not exist. -/
theorem second_sq_not_granted :
    ¬ ∀ (ι : Type) [DecidableEq ι] (cap0 : Dword) (cpl : Cpl), (grantedLimits cap0 cpl).ncqa ≤ 65534 →
      (grantedLimits cap0 cpl).nsqa ≤ 65534 →
      ∀ s : QpSystem ι, Reachable (machine ι cap0 cpl) anyEvent s →
      ∀ e s', s.step e = some s' → QidsGranted (grantedLimits cap0 cpl) s e := by
  intro always_granted
  have fewer : (grantedLimits 1#32 (grants 1 0)).nsqa < (grantedLimits 1#32 (grants 1 0)).ncqa := by
    decide
  obtain ⟨s, e, s', reached, taken, exceeds⟩ := identifier_exceeds () fewer
  exact exceeds (always_granted Unit 1#32 (grants 1 0) (by decide) (by decide) s reached e s' taken)

end QpSystem

end BafsNvme
