import BafsNvme.HostBuffers

/-! The driver's life at one controller: `admin_init`, calls one after another, and
`admin_clean`. -/

namespace BafsNvme

structure AdminQueues where
  cq : IoQueue
  sq : IoQueue
  cqDmaAddr : BitVec 64
  sqDmaAddr : BitVec 64

/-- Before `admin_init`, between it and `admin_clean`, and inside `clear_host_io_list`. -/
inductive Stage where
  | down
  | up
  | clearing
  deriving DecidableEq

structure DriverState (T : Type) where
  admin : AdminQueues
  io : IoState
  host : HostBuffers T
  stage : Stage

/-- What `admin_init` finds: the two words of CAP, the mapped registers, the completion of Set
Features, the bus addresses of the four areas and the answers to the commands of the first
pair, and the uninitialised address arrays. -/
structure InitInput where
  cap0 : Dword
  cap1 : Dword
  regAddr : BitVec 64
  cpl : Cpl
  adminCqAddr : BitVec 64
  adminSqAddr : BitVec 64
  cqAddr : BitVec 64
  sqAddr : BitVec 64
  cqStatus : Nat
  sqStatus : Nat
  sqDmaAddrs : Nat → BitVec 64
  cqDmaAddrs : Nat → BitVec 64

namespace InitInput

def queueSize (input : InitInput) : Nat := initQueueSize input.cap0

def dstrd (input : InitInput) : Nat := (rdBits (input.cap1.setWidth 64) 3 0).toNat

def sqDb (input : InitInput) : BitVec 64 := input.regAddr + 0x1000#64

def cqDb (input : InitInput) : BitVec 64 := input.sqDb + (4#32 <<< input.dstrd).setWidth 64

end InitInput

namespace DriverState

variable {T : Type}

def initRings (s : DriverState T) (input : InitInput) : DriverState T :=
  let dma := s.io.dma
  let cq : IoQueue :=
    { no := 0, es := 16, qs := input.queueSize, head := 0, tail := 0, db := input.cqDb
      addr := dma.next }
  let dma := dma.alloc (input.queueSize * cq.es % 2 ^ 64) input.adminCqAddr
  let sq : IoQueue :=
    { no := 0, es := 64, qs := input.queueSize, head := 0, tail := 0, db := input.sqDb
      addr := dma.next }
  let dma := dma.alloc (input.queueSize * sq.es % 2 ^ 64) input.adminSqAddr
  { s with
    admin := ⟨cq, sq, input.adminCqAddr, input.adminSqAddr⟩
    io := { s.io with dma := dma } }

/-- `admin_init` up to the create of the first pair; the reset empties the controller's queue
tables. -/
def initTables (s : DriverState T) (input : InitInput) : DriverState T :=
  let s := s.initRings input
  let tables := adminInitTables input.cap0 input.dstrd input.cqDb input.sqDb input.cpl
    input.sqDmaAddrs input.cqDmaAddrs
  { s with io := { s.io with aqp := tables, ctl := .empty } }

def adminInit (s : DriverState T) (input : InitInput) : DriverState T :=
  let s := s.initTables input
  let io :=
    (adminCreateIoQueuePair s.io input.cqAddr input.sqAddr input.cqStatus input.sqStatus).2
  { s with
    io := io
    host := { s.host with list := s.host.list.listInit () }
    stage := .up }

/-- The loop of `admin_clean` over the first `n` indices; `statuses` answers the commands. -/
def deletePairs (statuses : Nat → Nat × Nat) (io : IoState) : Nat → Option IoState
  | 0 => some io
  | n + 1 => (deletePairs statuses io n).bind fun io =>
      adminDeleteIoQueuePair io n (statuses n).1 (statuses n).2

/-- `admin_clean` up to the call of `clear_host_io_list`. -/
def adminClean (s : DriverState T) (statuses : Nat → Nat × Nat) : Option (DriverState T) :=
  (deletePairs statuses s.io s.io.aqp.numIoQueuePairsSupported).map fun io =>
    let sq := s.admin.sq
    let cq := s.admin.cq
    let dma := io.dma.free (sq.es * sq.qs % 2 ^ 64) sq.addr s.admin.sqDmaAddr
    let dma := dma.free (cq.es * cq.qs % 2 ^ 64) cq.addr s.admin.cqDmaAddr
    { s with io := { io with dma := dma }, stage := .clearing }

end DriverState

inductive DriverEvent (T : Type) where
  | adminInit (input : InitInput)
  | createPair (cqAddr sqAddr : BitVec 64) (cqStatus sqStatus : Nat)
  | deletePair (i sqStatus cqStatus : Nat)
  | createHostIoBuf (current : T) (env : PageEnv)
      (pageSize pagesPerEntry numEntries vaddr prpAddr : BitVec 64)
  | deleteHostIoBuf (current : T) (vaddr : BitVec 64)
  | adminClean (statuses : Nat → Nat × Nat)
  | clearHostIoRound
  | cleared

namespace DriverState

variable {T : Type} [DecidableEq T]

/-- One call, or inside `admin_clean` one round of the last loop and its end. -/
def step (s : DriverState T) : DriverEvent T → Option (DriverState T)
  | .adminInit input => if s.stage = .down then some (s.adminInit input) else none
  | .createPair cqAddr sqAddr cqStatus sqStatus =>
      if s.stage = .up then
        some { s with io := (adminCreateIoQueuePair s.io cqAddr sqAddr cqStatus sqStatus).2 }
      else none
  | .deletePair i sqStatus cqStatus =>
      if s.stage = .up ∧ i < s.io.aqp.numIoQueuePairsSupported then
        (adminDeleteIoQueuePair s.io i sqStatus cqStatus).map fun io => { s with io := io }
      else none
  | .createHostIoBuf current env pageSize pagesPerEntry numEntries vaddr prpAddr =>
      if s.stage = .up then
        (s.host.createHostIoBuf s.io.dma current env pageSize pagesPerEntry numEntries vaddr
          prpAddr).map fun (_, host, dma) => { s with host := host, io := { s.io with dma := dma } }
      else none
  | .deleteHostIoBuf current vaddr =>
      if s.stage = .up then
        (s.host.deleteHostIoBuf s.io.dma current vaddr).map fun (host, dma) =>
          { s with host := host, io := { s.io with dma := dma } }
      else none
  | .adminClean statuses => if s.stage = .up then s.adminClean statuses else none
  | .clearHostIoRound =>
      if s.stage = .clearing then
        (s.host.clearHostIoRound s.io.dma).map fun (host, dma) =>
          { s with host := host, io := { s.io with dma := dma } }
      else none
  | .cleared =>
      if s.stage = .clearing ∧ s.host.list.listNext (.head ()) = none then
        some { s with stage := .down }
      else none

def Takes (s : DriverState T) : DriverEvent T → DriverState T → Prop
  | .adminInit input, s' => s.stage = .down ∧ s' = s.adminInit input
  | .createPair cqAddr sqAddr cqStatus sqStatus, s' => s.stage = .up ∧
      s' = { s with io := (adminCreateIoQueuePair s.io cqAddr sqAddr cqStatus sqStatus).2 }
  | .deletePair i sqStatus cqStatus, s' => s.stage = .up ∧
      i < s.io.aqp.numIoQueuePairsSupported ∧
      ∃ io, adminDeleteIoQueuePair s.io i sqStatus cqStatus = some io ∧ s' = { s with io := io }
  | .createHostIoBuf current env pageSize pagesPerEntry numEntries vaddr prpAddr, s' =>
      s.stage = .up ∧ ∃ result host dma,
        s.host.createHostIoBuf s.io.dma current env pageSize pagesPerEntry numEntries vaddr prpAddr =
          some (result, host, dma) ∧
        s' = { s with host := host, io := { s.io with dma := dma } }
  | .deleteHostIoBuf current vaddr, s' => s.stage = .up ∧ ∃ host dma,
      s.host.deleteHostIoBuf s.io.dma current vaddr = some (host, dma) ∧
      s' = { s with host := host, io := { s.io with dma := dma } }
  | .adminClean statuses, s' => s.stage = .up ∧ s.adminClean statuses = some s'
  | .clearHostIoRound, s' => s.stage = .clearing ∧ ∃ host dma,
      s.host.clearHostIoRound s.io.dma = some (host, dma) ∧
      s' = { s with host := host, io := { s.io with dma := dma } }
  | .cleared, s' => s.stage = .clearing ∧ s.host.list.listNext (.head ()) = none ∧
      s' = { s with stage := .down }

theorem step_takes {s s' : DriverState T} {e : DriverEvent T} (taken : s.step e = some s') :
    s.Takes e s' := by
  cases e with
  | adminInit input | createPair cqAddr sqAddr cqStatus sqStatus =>
      simp only [step, Option.ite_none_right_eq_some, Option.some.injEq] at taken
      exact ⟨taken.1, taken.2.symm⟩
  | deletePair i sqStatus cqStatus =>
      simp only [step, Option.ite_none_right_eq_some, Option.map_eq_some_iff] at taken
      obtain ⟨⟨up, bound⟩, io, deleted, rfl⟩ := taken
      exact ⟨up, bound, io, deleted, rfl⟩
  | createHostIoBuf current env pageSize pagesPerEntry numEntries vaddr prpAddr =>
      simp only [step, Option.ite_none_right_eq_some, Option.map_eq_some_iff] at taken
      obtain ⟨up, ⟨result, host, dma⟩, created, rfl⟩ := taken
      exact ⟨up, result, host, dma, created, rfl⟩
  | deleteHostIoBuf current vaddr | clearHostIoRound =>
      simp only [step, Option.ite_none_right_eq_some, Option.map_eq_some_iff] at taken
      obtain ⟨enabled, ⟨host, dma⟩, called, rfl⟩ := taken
      exact ⟨enabled, host, dma, called, rfl⟩
  | adminClean statuses =>
      simp only [step, Option.ite_none_right_eq_some] at taken
      exact taken
  | cleared =>
      simp only [step, Option.ite_none_right_eq_some, Option.some.injEq] at taken
      obtain ⟨⟨clearing, ended⟩, rfl⟩ := taken
      exact ⟨clearing, ended, rfl⟩

def machine (T : Type) [DecidableEq T] : Machine (DriverState T) (DriverEvent T) where
  init s := s.stage = .down ∧ s.io.dma = ⟨[], []⟩ ∧ s.host.kfreed = []
  step := step

end DriverState

end BafsNvme
