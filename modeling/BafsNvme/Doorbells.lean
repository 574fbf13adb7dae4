import BafsNvme.QueuePairTables

/-! The doorbell registers of the admin pair and of the I/O pairs against the register layout of
the controller. -/

namespace BafsNvme

open Machine

/-- A submission or a completion queue by its identifier; the admin pair has identifier 0. -/
inductive QueueId where
  | sq (y : Nat)
  | cq (y : Nat)
  deriving DecidableEq

namespace QueueId

def index : QueueId → Nat
  | sq y => 2 * y
  | cq y => 2 * y + 1

def layout (base : BitVec 64) (dstrd : Nat) (q : QueueId) : BitVec 64 :=
  base + 0x1000#64 + BitVec.ofNat 64 (q.index * (4 <<< dstrd))

end QueueId

theorem stride_bounds {dstrd : Nat} (small : dstrd < 16) :
    0 < 4 <<< dstrd ∧ 4 <<< dstrd < 2 ^ 18 := by
  have positive : 0 < 2 ^ dstrd := Nat.two_pow_pos dstrd
  have power : 2 ^ dstrd ≤ 2 ^ 15 := Nat.pow_le_pow_right (by norm_num) (Nat.le_of_lt_succ small)
  rw [Nat.shiftLeft_eq]
  omega

theorem stride_ofNat (dstrd : Nat) : 4#32 <<< dstrd = BitVec.ofNat 32 (4 <<< dstrd) := by
  apply BitVec.eq_of_toNat_eq
  simp only [BitVec.toNat_shiftLeft, BitVec.toNat_ofNat, Nat.shiftLeft_eq, Nat.mod_mul_mod]

/-- The 32-bit offset of a doorbell from the admin pair's doorbell. -/
def doorbellOffset (n dstrd : Nat) : BitVec 64 :=
  (BitVec.ofNat 32 (n * (4 <<< dstrd))).setWidth 64

theorem doorbellOffset_toNat (n dstrd : Nat) :
    (doorbellOffset n dstrd).toNat = n * (4 <<< dstrd) % 2 ^ 32 := by
  rw [doorbellOffset, BitVec.toNat_setWidth, BitVec.toNat_ofNat]
  omega

theorem sqDoorbell_eq (aqp : AdminQueuePair) (i : Nat) :
    aqp.sqDoorbell i = aqp.sqDb + doorbellOffset (2 * (i + 1)) aqp.dstrd := by
  rw [AdminQueuePair.sqDoorbell, doorbellOffset, stride_ofNat, BitVec.ofNat_mul, BitVec.ofNat_mul]

theorem cqDoorbell_eq (aqp : AdminQueuePair) (i : Nat) :
    aqp.cqDoorbell i = aqp.cqDb + doorbellOffset (2 * (i + 1) + 1) aqp.dstrd := by
  rw [AdminQueuePair.cqDoorbell, doorbellOffset, stride_ofNat, BitVec.ofNat_mul,
    BitVec.ofNat_add (2 * (i + 1)) 1, BitVec.ofNat_mul]

namespace InitInput

variable (input : InitInput)

theorem dstrd_lt : input.dstrd < 16 := by
  rw [dstrd, rdBits_toNat _ (by norm_num) (by norm_num)]
  exact Nat.mod_lt _ (by norm_num)

theorem cqDb_eq : input.cqDb = input.sqDb + doorbellOffset 1 input.dstrd := by
  rw [cqDb, doorbellOffset, stride_ofNat, Nat.one_mul]

theorem admin_layout : input.sqDb = (QueueId.sq 0).layout input.regAddr input.dstrd ∧
    input.cqDb = (QueueId.cq 0).layout input.regAddr input.dstrd := by
  obtain ⟨_, small⟩ := stride_bounds input.dstrd_lt
  constructor
  · simp [sqDb, QueueId.layout, QueueId.index]
  · rw [cqDb_eq, sqDb, QueueId.layout, QueueId.index]
    congr 1
    apply BitVec.eq_of_toNat_eq
    rw [doorbellOffset_toNat, BitVec.toNat_ofNat]
    omega

theorem sq_layout_iff {i : Nat} (bound : i < 2 ^ 16) :
    input.sqDb + doorbellOffset (2 * (i + 1)) input.dstrd =
        (QueueId.sq (i + 1)).layout input.regAddr input.dstrd ↔
      2 * (i + 1) * (4 <<< input.dstrd) < 2 ^ 32 := by
  obtain ⟨_, small⟩ := stride_bounds input.dstrd_lt
  have product : 2 * (i + 1) * (4 <<< input.dstrd) ≤ 2 ^ 17 * 2 ^ 18 :=
    Nat.mul_le_mul (by omega) small.le
  rw [sqDb, QueueId.layout, QueueId.index, BitVec.add_right_inj, ← BitVec.toNat_inj,
    doorbellOffset_toNat, BitVec.toNat_ofNat]
  omega

/-- The completion doorbell of a pair is computed from the completion doorbell of the admin pair,
one place further than the layout has it. -/
theorem cq_ne_layout (i : Nat) : input.cqDb + doorbellOffset (2 * (i + 1) + 1) input.dstrd ≠
    (QueueId.cq (i + 1)).layout input.regAddr input.dstrd := by
  obtain ⟨positive, small⟩ := stride_bounds input.dstrd_lt
  intro same
  rw [cqDb_eq, sqDb, QueueId.layout, QueueId.index, BitVec.add_assoc, BitVec.add_right_inj,
    ← BitVec.toNat_inj, BitVec.toNat_add, doorbellOffset_toNat, doorbellOffset_toNat,
    BitVec.toNat_ofNat] at same
  omega

theorem cq_eq_next_sq {i : Nat} (fits : 2 * (i + 2) * (4 <<< input.dstrd) < 2 ^ 32) :
    input.cqDb + doorbellOffset (2 * (i + 1) + 1) input.dstrd =
      input.sqDb + doorbellOffset (2 * (i + 2)) input.dstrd := by
  have next : 2 * (i + 2) * (4 <<< input.dstrd) =
      1 * (4 <<< input.dstrd) + (2 * (i + 1) + 1) * (4 <<< input.dstrd) := by
    ring
  calc
    input.cqDb + doorbellOffset (2 * (i + 1) + 1) input.dstrd
        = input.sqDb +
          (doorbellOffset 1 input.dstrd + doorbellOffset (2 * (i + 1) + 1) input.dstrd) := by
      rw [cqDb_eq, BitVec.add_assoc]
    _ = input.sqDb + doorbellOffset (2 * (i + 2)) input.dstrd := by
      rw [BitVec.add_right_inj, ← BitVec.toNat_inj, BitVec.toNat_add, doorbellOffset_toNat,
        doorbellOffset_toNat, doorbellOffset_toNat]
      omega

end InitInput

namespace DriverState

variable {T : Type}

def serving (T : Type) [DecidableEq T] (input : InitInput) :
    Machine (DriverState T) (DriverEvent T) where
  init s := ∃ before : DriverState T, s = before.adminInit input
  step s e :=
    match e with
    | .adminClean _ => none
    | e => s.step e

theorem serving_takes [DecidableEq T] {input : InitInput} {s s' : DriverState T} {e : DriverEvent T}
    (taken : (serving T input).step s e = some s') : s.Takes e s' := by
  cases e with
  | adminClean statuses => cases taken
  | _ => exact step_takes taken

structure RegistersRead (input : InitInput) (aqp : AdminQueuePair) : Prop where
  sqDb : aqp.sqDb = input.sqDb
  cqDb : aqp.cqDb = input.cqDb
  dstrd : aqp.dstrd = input.dstrd
  supported : aqp.numIoQueuePairsSupported = numQueuesSupported input.cpl

structure Serving (input : InitInput) (s : DriverState T) : Prop where
  up : s.stage = .up
  sq : s.admin.sq.db = input.sqDb
  cq : s.admin.cq.db = input.cqDb
  registers : RegistersRead input s.io.aqp

variable {input : InitInput}

theorem RegistersRead.create {s : IoState} (read : RegistersRead input s.aqp)
    (cqAddr sqAddr : BitVec 64) (cqStatus sqStatus : Nat) :
    RegistersRead input (adminCreateIoQueuePair s cqAddr sqAddr cqStatus sqStatus).2.aqp := by
  obtain ⟨_, _, _, _, _, tables⟩ := s.create_tables cqAddr sqAddr cqStatus sqStatus
  rw [tables]
  exact ⟨read.sqDb, read.cqDb, read.dstrd, read.supported⟩

theorem RegistersRead.delete {s s' : IoState} (read : RegistersRead input s.aqp)
    {i sqStatus cqStatus : Nat}
    (returned : adminDeleteIoQueuePair s i sqStatus cqStatus = some s') :
    RegistersRead input s'.aqp := by
  obtain ⟨_, tables⟩ := IoState.delete_tables returned
  rw [tables]
  exact ⟨read.sqDb, read.cqDb, read.dstrd, read.supported⟩

namespace Serving

variable {s : DriverState T}

theorem start (before : DriverState T) (input : InitInput) :
    Serving input (before.adminInit input) := by
  have read : RegistersRead input (before.initTables input).io.aqp := ⟨rfl, rfl, rfl, rfl⟩
  exact ⟨rfl, rfl, rfl, read.create ..⟩

theorem step [DecidableEq T] (inv : Serving input s) {e : DriverEvent T} {s' : DriverState T}
    (taken : (serving T input).step s e = some s') : Serving input s' := by
  have up := inv.up
  have takes := serving_takes taken
  cases e with
  | adminInit input' => exact nomatch up.symm.trans takes.1
  | createPair cqAddr sqAddr cqStatus sqStatus =>
      obtain ⟨_, rfl⟩ := takes
      exact ⟨inv.up, inv.sq, inv.cq, inv.registers.create ..⟩
  | deletePair i sqStatus cqStatus =>
      obtain ⟨_, _, io, deleted, rfl⟩ := takes
      exact ⟨inv.up, inv.sq, inv.cq, inv.registers.delete deleted⟩
  | createHostIoBuf current env pageSize pagesPerEntry numEntries vaddr prpAddr =>
      obtain ⟨_, _, host, dma, _, rfl⟩ := takes
      exact ⟨inv.up, inv.sq, inv.cq, inv.registers⟩
  | deleteHostIoBuf current vaddr =>
      obtain ⟨_, host, dma, _, rfl⟩ := takes
      exact ⟨inv.up, inv.sq, inv.cq, inv.registers⟩
  | adminClean statuses => cases taken
  | clearHostIoRound => exact nomatch up.symm.trans takes.1
  | cleared => exact nomatch up.symm.trans takes.1

end Serving

end DriverState

namespace QueueId

def driverAddr (input : InitInput) : QueueId → BitVec 64
  | sq 0 => input.sqDb
  | cq 0 => input.cqDb
  | sq (i + 1) => input.sqDb + doorbellOffset (2 * (i + 1)) input.dstrd
  | cq (i + 1) => input.cqDb + doorbellOffset (2 * (i + 1) + 1) input.dstrd

/-- The queues whose doorbell the driver computes rightly: the admin pair, and the submission
queues whose 32-bit product does not wrap. -/
def Placed (dstrd : Nat) : QueueId → Prop
  | sq y => 2 * y * (4 <<< dstrd) < 2 ^ 32
  | cq y => y = 0

def number : QueueId → Nat
  | sq y => y
  | cq y => y

theorem driverAddr_iff (input : InitInput) (q : QueueId) (bound : q.number ≤ 2 ^ 16) :
    q.driverAddr input = q.layout input.regAddr input.dstrd ↔ q.Placed input.dstrd := by
  obtain ⟨sqPlace, cqPlace⟩ := input.admin_layout
  cases q with
  | sq y =>
      cases y with
      | zero => exact iff_of_true sqPlace (by simp [Placed])
      | succ i => exact input.sq_layout_iff bound
  | cq y =>
      cases y with
      | zero => exact iff_of_true cqPlace rfl
      | succ i => exact iff_of_false (input.cq_ne_layout i) (Nat.succ_ne_zero i)

end QueueId

def IoState.createdDoorbells (s s' : IoState) : List (QueueId × BitVec 64) :=
  match s.reserve.1 with
  | none => []
  | some (i, newQp) =>
      [(.cq (i + 1), (s'.heap newQp).cq.db), (.sq (i + 1), (s'.heap newQp).sq.db)]

/-- The driver and every doorbell address that its calls have computed so far, also those of
pairs that are deleted again. -/
structure DoorbellRun (T : Type) where
  driver : DriverState T
  computed : List (QueueId × BitVec 64)

namespace DoorbellRun

variable {T : Type}

def afterInit (before : DriverState T) (input : InitInput) : DoorbellRun T :=
  let driver := before.adminInit input
  { driver := driver
    computed := [(.sq 0, driver.admin.sq.db), (.cq 0, driver.admin.cq.db)] ++
      (before.initTables input).io.createdDoorbells driver.io }

def computes (s s' : DriverState T) : DriverEvent T → List (QueueId × BitVec 64)
  | .createPair .. => s.io.createdDoorbells s'.io
  | _ => []

def machine (T : Type) [DecidableEq T] (input : InitInput) :
    Machine (DoorbellRun T) (DriverEvent T) where
  init s := ∃ before : DriverState T, s = afterInit before input
  step s e := ((DriverState.serving T input).step s.driver e).map fun driver =>
    ⟨driver, s.computed ++ computes s.driver driver e⟩

def DoorbellsExact (input : InitInput) (s : DoorbellRun T) : Prop :=
  (∀ q addr, (q, addr) ∈ s.computed → addr = q.layout input.regAddr input.dstrd) ∧
    ∀ q q' addr, (q, addr) ∈ s.computed → (q', addr) ∈ s.computed → q = q'

structure DoorbellInv (input : InitInput) (s : DoorbellRun T) : Prop where
  serving : DriverState.Serving input s.driver
  computed : ∀ q addr, (q, addr) ∈ s.computed →
    addr = q.driverAddr input ∧ q.number ≤ numQueuesSupported input.cpl
  first : (.cq 1, (QueueId.cq 1).driverAddr input) ∈ s.computed

variable {input : InitInput} {s s' : DoorbellRun T}

theorem created_computed {io : IoState} (read : DriverState.RegistersRead input io.aqp)
    (cqAddr sqAddr : BitVec 64) (cqStatus sqStatus : Nat) {q : QueueId} {addr : BitVec 64}
    (member : (q, addr) ∈ io.createdDoorbells
      (adminCreateIoQueuePair io cqAddr sqAddr cqStatus sqStatus).2) :
    addr = q.driverAddr input ∧ q.number ≤ numQueuesSupported input.cpl := by
  rcases io.reserve_cases with ⟨used, refused⟩ | ⟨i, used, bound, _, taken⟩
  · simp [IoState.createdDoorbells, refused] at member
  · obtain ⟨cq, sq⟩ := IoState.create_doorbells taken cqAddr sqAddr cqStatus sqStatus
    have supported : i + 1 ≤ numQueuesSupported input.cpl := read.supported ▸ bound
    simp only [IoState.createdDoorbells, taken, cq, sq, List.mem_cons, Prod.mk.injEq,
      List.not_mem_nil, or_false] at member
    rcases member with ⟨rfl, rfl⟩ | ⟨rfl, rfl⟩
    · refine ⟨?_, supported⟩
      rw [cqDoorbell_eq, read.cqDb, read.dstrd]
      rfl
    · refine ⟨?_, supported⟩
      rw [sqDoorbell_eq, read.sqDb, read.dstrd]
      rfl

namespace DoorbellInv

theorem first_reserve (before : DriverState T) (input : InitInput) :
    (before.initTables input).io.reserve.1 = some (0, before.io.blocks) := by
  simp [IoState.reserve, AdminQueuePair.reserve, DriverState.initTables, DriverState.initRings,
    adminInitTables, numQueuesSupported, firstFree]

theorem start (before : DriverState T) (input : InitInput) :
    DoorbellInv input (afterInit before input) := by
  have serving := DriverState.Serving.start before input
  have read : DriverState.RegistersRead input (before.initTables input).io.aqp :=
    ⟨rfl, rfl, rfl, rfl⟩
  refine ⟨serving, ?_, ?_⟩
  · intro q addr member
    simp only [afterInit, List.cons_append, List.nil_append, List.mem_cons, Prod.mk.injEq] at member
    rcases member with ⟨rfl, rfl⟩ | ⟨rfl, rfl⟩ | member
    · exact ⟨serving.sq, Nat.zero_le _⟩
    · exact ⟨serving.cq, Nat.zero_le _⟩
    · exact created_computed read _ _ _ _ member
  · have reserved := first_reserve before input
    rcases (before.initTables input).io.reserve_cases with
      ⟨used, refused⟩ | ⟨i, used, _, _, taken⟩
    · rw [refused] at reserved
      cases reserved
    · rw [taken, Option.some.injEq, Prod.mk.injEq] at reserved
      obtain ⟨rfl, _⟩ := reserved
      have created := (IoState.create_doorbells taken input.cqAddr input.sqAddr input.cqStatus
        input.sqStatus).1
      rw [cqDoorbell_eq] at created
      simp only [afterInit, IoState.createdDoorbells, taken, List.mem_append, List.mem_cons,
        Prod.mk.injEq, true_and]
      exact .inr (.inl created.symm)

theorem step [DecidableEq T] (inv : DoorbellInv input s) {e : DriverEvent T}
    (taken : (machine T input).step s e = some s') : DoorbellInv input s' := by
  obtain ⟨driver, moved, rfl⟩ := Option.map_eq_some_iff.mp taken
  refine ⟨inv.serving.step moved, ?_, List.mem_append_left _ inv.first⟩
  intro q addr member
  rcases List.mem_append.mp member with earlier | new
  · exact inv.computed q addr earlier
  · cases e with
    | createPair cqAddr sqAddr cqStatus sqStatus =>
        obtain ⟨_, rfl⟩ := DriverState.serving_takes moved
        exact created_computed inv.serving.registers _ _ _ _ new
    | _ => cases new

theorem of_reachable [DecidableEq T] (reached : Reachable (machine T input) anyEvent s) :
    DoorbellInv input s := by
  refine reached.invariant ?_ fun _ _ _ inv _ taken => inv.step taken
  rintro _ ⟨before, rfl⟩
  exact start before input

end DoorbellInv

variable [DecidableEq T]

/-- Whatever the stride and the number of pairs, `admin_init` computes a wrong doorbell already.
Of all the addresses computed, exactly those of the admin pair and of the submission queues below
the 32-bit bound are right, and each completion queue gets the doorbell of the submission queue of
the next pair. -/
theorem doorbells_computed (input : InitInput) (s : DoorbellRun T)
    (reached : Reachable (machine T input) anyEvent s) :
    ¬ s.DoorbellsExact input ∧
      (∀ q addr, (q, addr) ∈ s.computed →
        (addr = q.layout input.regAddr input.dstrd ↔ q.Placed input.dstrd)) ∧
      ∀ i cqAddr sqAddr, (.cq (i + 1), cqAddr) ∈ s.computed → (.sq (i + 2), sqAddr) ∈ s.computed →
        2 * (i + 2) * (4 <<< input.dstrd) < 2 ^ 32 → cqAddr = sqAddr := by
  have inv := DoorbellInv.of_reachable reached
  have most := (numQueuesSupported_bounds input.cpl).2
  refine ⟨?_, ?_, ?_⟩
  · rintro ⟨placed, _⟩
    exact input.cq_ne_layout 0 (placed _ _ inv.first)
  · intro q addr member
    obtain ⟨rfl, bound⟩ := inv.computed q addr member
    exact q.driverAddr_iff input (bound.trans most)
  · intro i cqAddr sqAddr cqMember sqMember fits
    rw [(inv.computed _ _ cqMember).1, (inv.computed _ _ sqMember).1]
    exact input.cq_eq_next_sq fits

def twoPairs : InitInput := { DriverState.smallInit with cpl := TableSystem.answered 0x10000#32 }

theorem doorbells_computed_deleted :
    ∃ s : DoorbellRun Unit, (machine Unit twoPairs).run (afterInit DriverState.blank twoPairs)
        [.deletePair 0 0 0] = some s ∧ s.driver.io.aqp.queueUseMark 0 = false ∧
      s.computed = [(.sq 0, 0x80001000#64), (.cq 0, 0x80001004#64), (.cq 1, 0x80001010#64),
        (.sq 1, 0x80001008#64)] ∧ ¬ s.DoorbellsExact twoPairs := by
  have begins : Reachable (machine Unit twoPairs) anyEvent
      (afterInit DriverState.blank twoPairs) := .start ⟨_, rfl⟩
  have ended : ((machine Unit twoPairs).run (afterInit DriverState.blank twoPairs)
      [.deletePair 0 0 0]).map (fun s => (s.driver.io.aqp.queueUseMark 0, s.computed)) =
      some (false, [(.sq 0, 0x80001000#64), (.cq 0, 0x80001004#64), (.cq 1, 0x80001010#64),
        (.sq 1, 0x80001008#64)]) := by
    decide +kernel
  obtain ⟨s, ran, reached, facts⟩ := begins.computed ended
  simp only [Prod.mk.injEq] at facts
  exact ⟨s, ran, facts.1, facts.2, (doorbells_computed twoPairs s reached).1⟩

/-- With both pairs created, the completion queue of the first and the submission queue of the
second ring the register at `0x80001010`. -/
theorem doorbell_of_two_queues :
    ¬ ∀ (T : Type) [DecidableEq T] (input : InitInput) (s : DoorbellRun T),
      Reachable (machine T input) anyEvent s → s.DoorbellsExact input := by
  intro allExact
  have begins : Reachable (machine Unit twoPairs) anyEvent
      (afterInit DriverState.blank twoPairs) := .start ⟨_, rfl⟩
  have ended : ((machine Unit twoPairs).run (afterInit DriverState.blank twoPairs)
      [.createPair 0x6000#64 0x7000#64 0 0]).map (fun s =>
        decide ((.cq 1, 0x80001010#64) ∈ s.computed ∧ (.sq 2, 0x80001010#64) ∈ s.computed)) =
      some true := by
    decide +kernel
  obtain ⟨s, _, reached, shared⟩ := begins.computed ended
  obtain ⟨first, second⟩ := of_decide_eq_true shared
  have distinct := (allExact Unit twoPairs s reached).2
  cases distinct _ _ _ first second

end DoorbellRun

end BafsNvme
