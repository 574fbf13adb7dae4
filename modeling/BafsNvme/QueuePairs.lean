import BafsNvme.AdminRing
import BafsNvme.IoController

/-! The I/O queue pair tables of `struct admin_queue_pair` and the two operations on them,
`admin_create_io_queue_pair` and `admin_delete_io_queue_pair`, cut where another call can
come in between: at the lock sections, the commands and the steps between them. -/

namespace BafsNvme

/-- `struct queue` of one I/O queue: `db` is the doorbell's address and `addr` names the DMA
area that holds the entries. -/
structure IoQueue where
  no : BitVec 16
  es : Nat
  qs : Nat
  head : Nat
  tail : Nat
  db : BitVec 64
  addr : Nat

structure QueuePair where
  cq : IoQueue
  sq : IoQueue

/-- The fields of `struct admin_queue_pair`, and of the `struct ctrl` behind it, that the two
operations use. A pointer of `io_qp_list` is the number of a block, or `none` for NULL. -/
structure AdminQueuePair where
  cqEs : Nat
  sqEs : Nat
  cqDb : BitVec 64
  sqDb : BitVec 64
  maxQueueSize : Nat
  dstrd : Nat
  queueUseMark : Nat → Bool
  ioQpList : Nat → Option Nat
  numIoQueuePairsSupported : Nat
  numIoQueuePairsUsed : Nat
  sqDmaAddrs : Nat → BitVec 64
  cqDmaAddrs : Nat → BitVec 64

structure DmaAlloc where
  size : Nat
  handle : BitVec 64

structure DmaFree where
  size : Nat
  area : Nat
  handle : BitVec 64
  deriving DecidableEq

/-- Every DMA call so far; an area is the position of its allocation. -/
structure DmaLog where
  allocs : List DmaAlloc
  frees : List DmaFree

namespace DmaLog

def alloc (dma : DmaLog) (size : Nat) (handle : BitVec 64) : DmaLog :=
  { dma with allocs := dma.allocs ++ [⟨size, handle⟩] }

def next (dma : DmaLog) : Nat := dma.allocs.length

def free (dma : DmaLog) (size area : Nat) (handle : BitVec 64) : DmaLog :=
  { dma with frees := dma.frees ++ [⟨size, area, handle⟩] }

end DmaLog

/-- What the two operations work on: the tables, the `kmalloc`ed pairs (`heap`, block by
block; a block is never handed out twice), the blocks given back, DMA memory and the
controller. -/
structure IoState where
  aqp : AdminQueuePair
  heap : Nat → QueuePair
  blocks : Nat
  kfreed : List Nat
  dma : DmaLog
  ctl : IoController

def AdminQueuePair.ioQueueSize (aqp : AdminQueuePair) : Nat :=
  if aqp.maxQueueSize > 4096 then 4096 else aqp.maxQueueSize

/-- The first lock section of the create call, up to the test that follows it. -/
def AdminQueuePair.reserve (aqp : AdminQueuePair) : Option Nat × AdminQueuePair :=
  if aqp.numIoQueuePairsUsed = aqp.numIoQueuePairsSupported then (none, aqp)
  else
    let aqp := { aqp with numIoQueuePairsUsed := (aqp.numIoQueuePairsUsed + 1) % 2 ^ 32 }
    match firstFree aqp.queueUseMark 0 aqp.numIoQueuePairsSupported with
    | none => (none, aqp)
    | some i => (some i, { aqp with queueUseMark := Function.update aqp.queueUseMark i true })

/-- `cq.q.db + (2*(i+1) + 1) * (4 << dstrd)`, with the 32-bit product. -/
def AdminQueuePair.cqDoorbell (aqp : AdminQueuePair) (i : Nat) : BitVec 64 :=
  aqp.cqDb + ((2#32 * BitVec.ofNat 32 (i + 1) + 1#32) * (4#32 <<< aqp.dstrd)).setWidth 64

/-- `sq.q.db + (2*(i+1)) * (4 << dstrd)`, with the 32-bit product. -/
def AdminQueuePair.sqDoorbell (aqp : AdminQueuePair) (i : Nat) : BitVec 64 :=
  aqp.sqDb + ((2#32 * BitVec.ofNat 32 (i + 1)) * (4#32 <<< aqp.dstrd)).setWidth 64

namespace IoState

/-- The slot the create call takes and the block its `kmalloc` will return. -/
def reserve (s : IoState) : Option (Nat × Nat) × IoState :=
  match s.aqp.reserve with
  | (none, aqp) => (none, { s with aqp := aqp })
  | (some i, aqp) => (some (i, s.blocks), { s with aqp := aqp, blocks := s.blocks + 1 })

/-- `io_qp_list[i] = kmalloc(...)` -/
def allocPair (s : IoState) (i newQp : Nat) : IoState :=
  { s with aqp := { s.aqp with ioQpList := Function.update s.aqp.ioQpList i (some newQp) } }

/-- The fields of `new_qp->cq` and its DMA area; `addr` is the bus address obtained. -/
def allocCq (s : IoState) (i newQp : Nat) (addr : BitVec 64) : IoState :=
  let qs := s.aqp.ioQueueSize
  let pair := s.heap newQp
  let cq :=
    { pair.cq with es := s.aqp.cqEs, qs := qs, addr := s.dma.next, db := s.aqp.cqDoorbell i }
  { s with
    heap := Function.update s.heap newQp { pair with cq := cq }
    dma := s.dma.alloc (qs * s.aqp.cqEs % 2 ^ 64) addr
    aqp := { s.aqp with cqDmaAddrs := Function.update s.aqp.cqDmaAddrs i addr } }

def allocSq (s : IoState) (i newQp : Nat) (addr : BitVec 64) : IoState :=
  let qs := s.aqp.ioQueueSize
  let pair := s.heap newQp
  let sq :=
    { pair.sq with es := s.aqp.sqEs, qs := qs, addr := s.dma.next, db := s.aqp.sqDoorbell i }
  { s with
    heap := Function.update s.heap newQp { pair with sq := sq }
    dma := s.dma.alloc (qs * s.aqp.sqEs % 2 ^ 64) addr
    aqp := { s.aqp with sqDmaAddrs := Function.update s.aqp.sqDmaAddrs i addr } }

/-- The command is enqueued, completed with `status` and cleaned up; the status is not read. -/
def submit (s : IoState) (cmd : Cmd) (status : Nat) : IoState :=
  { s with ctl := s.ctl.answer cmd status }

def crtIoCq (s : IoState) (i status : Nat) : IoState :=
  s.submit (crtIoCqCmd (s.aqp.cqDmaAddrs i) s.aqp.ioQueueSize i) status

def crtIoSq (s : IoState) (i status : Nat) : IoState :=
  s.submit (crtIoSqCmd (s.aqp.sqDmaAddrs i) s.aqp.ioQueueSize i) status

/-- The last assignments before `return new_qp`. -/
def finishPair (s : IoState) (i newQp : Nat) : IoState :=
  let pair := s.heap newQp
  let number := BitVec.ofNat 16 (i + 1)
  { s with
    heap := Function.update s.heap newQp
      { cq := { pair.cq with head := 0, tail := 0, no := number }
        sq := { pair.sq with head := 0, tail := 0, no := number } } }

def delIoSq (s : IoState) (i status : Nat) : IoState := s.submit (delIoSqCmd i) status

def delIoCq (s : IoState) (i status : Nat) : IoState := s.submit (delIoCqCmd i) status

def freeCq (s : IoState) (i delQp : Nat) : IoState :=
  let cq := (s.heap delQp).cq
  { s with dma := s.dma.free (cq.qs * cq.es % 2 ^ 64) cq.addr (s.aqp.cqDmaAddrs i) }

def freeSq (s : IoState) (i delQp : Nat) : IoState :=
  let sq := (s.heap delQp).sq
  { s with dma := s.dma.free (sq.qs * sq.es % 2 ^ 64) sq.addr (s.aqp.sqDmaAddrs i) }

/-- `kfree(io_qp_list[i])` -/
def freePair (s : IoState) (i : Nat) : IoState :=
  { s with kfreed := s.kfreed ++ (s.aqp.ioQpList i).toList }

/-- The last lock section of the delete call. -/
def clearMark (s : IoState) (i : Nat) : IoState :=
  { s with aqp := { s.aqp with queueUseMark := Function.update s.aqp.queueUseMark i false } }

end IoState

/-- A whole create call that no other call interrupts. `none` is the NULL it returns. -/
def adminCreateIoQueuePair (s : IoState) (cqAddr sqAddr : BitVec 64) (cqStatus sqStatus : Nat) :
    Option Nat × IoState :=
  match s.reserve with
  | (none, s) => (none, s)
  | (some (i, newQp), s) =>
      let s := s.allocPair i newQp
      let s := s.allocCq i newQp cqAddr
      let s := s.crtIoCq i cqStatus
      let s := s.allocSq i newQp sqAddr
      let s := s.crtIoSq i sqStatus
      (some newQp, s.finishPair i newQp)

/-- A whole delete call that no other call interrupts; `none` is a NULL `del_qp` that it
reads through. -/
def adminDeleteIoQueuePair (s : IoState) (i sqStatus cqStatus : Nat) : Option IoState :=
  let delQp := s.aqp.ioQpList i
  if s.aqp.queueUseMark i = false then some s
  else
    let s := s.delIoSq i sqStatus
    let s := s.delIoCq i cqStatus
    delQp.map fun delQp =>
      let s := s.freeCq i delQp
      let s := s.freeSq i delQp
      let s := s.freePair i
      s.clearMark i

def maxQueueSize (cap0 : Dword) : Nat := ((rdBits (cap0.setWidth 64) 15 0 + 1#64).setWidth 32).toNat

def numQueuesSupported (cpl : Cpl) : Nat := (cpl.dword 0 >>> 16).toNat + 1

/-- The tables as `admin_init` leaves them before it creates the first pair. The two address
arrays come uninitialised from `kmalloc`. -/
def adminInitTables (cap0 : Dword) (dstrd : Nat) (cqDb sqDb : BitVec 64) (cpl : Cpl)
    (sqDmaAddrs cqDmaAddrs : Nat → BitVec 64) : AdminQueuePair where
  cqEs := 16
  sqEs := 64
  cqDb := cqDb
  sqDb := sqDb
  maxQueueSize := maxQueueSize cap0
  dstrd := dstrd
  queueUseMark := fun _ => false
  ioQpList := fun _ => none
  numIoQueuePairsSupported := numQueuesSupported cpl
  numIoQueuePairsUsed := 0
  sqDmaAddrs := sqDmaAddrs
  cqDmaAddrs := cqDmaAddrs

theorem maxQueueSize_eq (cap0 : Dword) : maxQueueSize cap0 = mqes cap0 + 1 := by
  rw [maxQueueSize, BitVec.toNat_setWidth, BitVec.toNat_add, rdBits_mqes]
  have bound : mqes cap0 < 2 ^ 16 := Nat.mod_lt _ (by norm_num)
  rw [BitVec.toNat_ofNat]
  omega

theorem numQueuesSupported_bounds (cpl : Cpl) :
    0 < numQueuesSupported cpl ∧ numQueuesSupported cpl ≤ 2 ^ 16 := by
  have word := (cpl.dword 0).isLt
  rw [numQueuesSupported, BitVec.toNat_ushiftRight, Nat.shiftRight_eq_div_pow]
  omega

theorem reserve_cases (aqp : AdminQueuePair) :
    (aqp.reserve = (none, aqp) ∧ aqp.numIoQueuePairsUsed = aqp.numIoQueuePairsSupported) ∨
      (aqp.numIoQueuePairsUsed ≠ aqp.numIoQueuePairsSupported ∧
        aqp.reserve =
          (none, { aqp with numIoQueuePairsUsed := (aqp.numIoQueuePairsUsed + 1) % 2 ^ 32 }) ∧
        ∀ i, i < aqp.numIoQueuePairsSupported → aqp.queueUseMark i = true) ∨
      ∃ i, aqp.numIoQueuePairsUsed ≠ aqp.numIoQueuePairsSupported ∧
        i < aqp.numIoQueuePairsSupported ∧ aqp.queueUseMark i = false ∧
        aqp.reserve = (some i, { aqp with
          numIoQueuePairsUsed := (aqp.numIoQueuePairsUsed + 1) % 2 ^ 32
          queueUseMark := Function.update aqp.queueUseMark i true }) := by
  by_cases full : aqp.numIoQueuePairsUsed = aqp.numIoQueuePairsSupported
  · exact .inl ⟨by rw [AdminQueuePair.reserve, if_pos full], full⟩
  · right
    cases found : firstFree aqp.queueUseMark 0 aqp.numIoQueuePairsSupported with
    | none =>
        refine .inl ⟨full, by simp only [AdminQueuePair.reserve, if_neg full, found], ?_⟩
        intro i bound
        exact firstFree_none found i (Nat.zero_le i) (by omega)
    | some i =>
        obtain ⟨_, bound, free, _⟩ := firstFree_some found
        exact .inr ⟨i, full, by omega, free,
          by simp only [AdminQueuePair.reserve, if_neg full, found]⟩

namespace IoState

variable {s : IoState}

theorem reserve_cases (s : IoState) :
    (∃ used, s.reserve = (none, { s with aqp := { s.aqp with numIoQueuePairsUsed := used } })) ∨
      ∃ i used, i < s.aqp.numIoQueuePairsSupported ∧ s.aqp.queueUseMark i = false ∧
        s.reserve = (some (i, s.blocks), { s with
          blocks := s.blocks + 1
          aqp := { s.aqp with
            numIoQueuePairsUsed := used
            queueUseMark := Function.update s.aqp.queueUseMark i true } }) := by
  rcases BafsNvme.reserve_cases s.aqp with ⟨taken, _⟩ | ⟨_, taken, _⟩ | ⟨i, _, bound, free, taken⟩
  · exact .inl ⟨s.aqp.numIoQueuePairsUsed, by rw [reserve, taken]⟩
  · exact .inl ⟨_, by rw [reserve, taken]⟩
  · exact .inr ⟨i, _, bound, free, by rw [reserve, taken]⟩

theorem create_refused {s' : IoState} (refused : s.reserve = (none, s')) (cqAddr sqAddr : BitVec 64)
    (cqStatus sqStatus : Nat) :
    adminCreateIoQueuePair s cqAddr sqAddr cqStatus sqStatus = (none, s') := by
  rw [adminCreateIoQueuePair, refused]

section Taken

variable {i used : Nat} {marks : Nat → Bool}
  (taken : s.reserve = (some (i, s.blocks), { s with
    blocks := s.blocks + 1
    aqp := { s.aqp with numIoQueuePairsUsed := used, queueUseMark := marks } }))

include taken

theorem create_taken (cqAddr sqAddr : BitVec 64) (cqStatus sqStatus : Nat) :
    let call := adminCreateIoQueuePair s cqAddr sqAddr cqStatus sqStatus
    call.1 = some s.blocks ∧
      call.2.aqp = { s.aqp with
        numIoQueuePairsUsed := used
        queueUseMark := marks
        ioQpList := Function.update s.aqp.ioQpList i (some s.blocks)
        cqDmaAddrs := Function.update s.aqp.cqDmaAddrs i cqAddr
        sqDmaAddrs := Function.update s.aqp.sqDmaAddrs i sqAddr } ∧
      call.2.blocks = s.blocks + 1 ∧
      call.2.ctl = (s.ctl.answer (crtIoCqCmd cqAddr s.aqp.ioQueueSize i) cqStatus).answer
        (crtIoSqCmd sqAddr s.aqp.ioQueueSize i) sqStatus := by
  simp [adminCreateIoQueuePair, taken, allocPair, allocCq, crtIoCq, allocSq, crtIoSq, finishPair,
    submit, AdminQueuePair.ioQueueSize]

theorem create_memory (cqAddr sqAddr : BitVec 64) (cqStatus sqStatus : Nat) :
    let s' := (adminCreateIoQueuePair s cqAddr sqAddr cqStatus sqStatus).2
    let size := s.aqp.ioQueueSize
    s'.dma = (s.dma.alloc (size * s.aqp.cqEs % 2 ^ 64) cqAddr).alloc
        (size * s.aqp.sqEs % 2 ^ 64) sqAddr ∧
      (∀ pair, pair ≠ s.blocks → s'.heap pair = s.heap pair) ∧
      (s'.heap s.blocks).cq.qs = size ∧ (s'.heap s.blocks).cq.es = s.aqp.cqEs ∧
      (s'.heap s.blocks).cq.addr = s.dma.next ∧
      (s'.heap s.blocks).sq.qs = size ∧ (s'.heap s.blocks).sq.es = s.aqp.sqEs ∧
      (s'.heap s.blocks).sq.addr = (s.dma.alloc (size * s.aqp.cqEs % 2 ^ 64) cqAddr).next := by
  simp +contextual [adminCreateIoQueuePair, taken, allocPair, allocCq, crtIoCq, allocSq, crtIoSq,
    finishPair, submit, AdminQueuePair.ioQueueSize]

theorem create_doorbells (cqAddr sqAddr : BitVec 64) (cqStatus sqStatus : Nat) :
    let s' := (adminCreateIoQueuePair s cqAddr sqAddr cqStatus sqStatus).2
    (s'.heap s.blocks).cq.db = s.aqp.cqDoorbell i ∧
      (s'.heap s.blocks).sq.db = s.aqp.sqDoorbell i := by
  simp [adminCreateIoQueuePair, taken, allocPair, allocCq, crtIoCq, allocSq, crtIoSq, finishPair,
    submit, AdminQueuePair.cqDoorbell, AdminQueuePair.sqDoorbell]

end Taken

theorem delete_unmarked {i : Nat} (clear : s.aqp.queueUseMark i = false) (sqStatus cqStatus : Nat) :
    adminDeleteIoQueuePair s i sqStatus cqStatus = some s := by
  rw [adminDeleteIoQueuePair, if_pos clear]

theorem delete_marked {i pair : Nat} (marked : s.aqp.queueUseMark i = true)
    (listed : s.aqp.ioQpList i = some pair) (sqStatus cqStatus : Nat) :
    adminDeleteIoQueuePair s i sqStatus cqStatus = some { s with
      aqp := { s.aqp with queueUseMark := Function.update s.aqp.queueUseMark i false }
      kfreed := s.kfreed ++ [pair]
      ctl := (s.ctl.answer (delIoSqCmd i) sqStatus).answer (delIoCqCmd i) cqStatus
      dma := (s.dma.free ((s.heap pair).cq.qs * (s.heap pair).cq.es % 2 ^ 64)
          (s.heap pair).cq.addr (s.aqp.cqDmaAddrs i)).free
        ((s.heap pair).sq.qs * (s.heap pair).sq.es % 2 ^ 64) (s.heap pair).sq.addr
        (s.aqp.sqDmaAddrs i) } := by
  simp [adminDeleteIoQueuePair, marked, listed, delIoSq, delIoCq, submit, freeCq, freeSq,
    freePair, clearMark]

theorem create_tables (s : IoState) (cqAddr sqAddr : BitVec 64) (cqStatus sqStatus : Nat) :
    ∃ used marks list cqAddrs sqAddrs,
      (adminCreateIoQueuePair s cqAddr sqAddr cqStatus sqStatus).2.aqp = { s.aqp with
        numIoQueuePairsUsed := used
        queueUseMark := marks
        ioQpList := list
        cqDmaAddrs := cqAddrs
        sqDmaAddrs := sqAddrs } := by
  rcases s.reserve_cases with ⟨used, refused⟩ | ⟨i, used, _, _, taken⟩
  · rw [create_refused refused]
    exact ⟨used, _, _, _, _, rfl⟩
  · exact ⟨used, _, _, _, _, (create_taken taken cqAddr sqAddr cqStatus sqStatus).2.1⟩

theorem delete_tables {s' : IoState} {i sqStatus cqStatus : Nat}
    (returned : adminDeleteIoQueuePair s i sqStatus cqStatus = some s') :
    ∃ marks, s'.aqp = { s.aqp with queueUseMark := marks } := by
  cases marked : s.aqp.queueUseMark i with
  | false =>
      rw [delete_unmarked marked, Option.some.injEq] at returned
      rw [← returned]
      exact ⟨_, rfl⟩
  | true =>
      cases listed : s.aqp.ioQpList i with
      | none => simp [adminDeleteIoQueuePair, marked, listed] at returned
      | some pair =>
          rw [delete_marked marked listed, Option.some.injEq] at returned
          rw [← returned]
          exact ⟨_, rfl⟩

end IoState

structure PairsHold (P : Nat → QueuePair → Prop) (s : IoState) : Prop where
  listed : ∀ i, s.aqp.queueUseMark i = true → ∃ pair, s.aqp.ioQpList i = some pair
  blocks : ∀ i pair, s.aqp.ioQpList i = some pair → pair < s.blocks
  holds : ∀ i pair, s.aqp.queueUseMark i = true → s.aqp.ioQpList i = some pair →
    P i (s.heap pair)

namespace PairsHold

variable {P : Nat → QueuePair → Prop} {s : IoState}

theorem create (hold : PairsHold P s) (cqAddr sqAddr : BitVec 64) (cqStatus sqStatus : Nat)
    (made : ∀ i used, i < s.aqp.numIoQueuePairsSupported →
      s.reserve = (some (i, s.blocks), { s with
        blocks := s.blocks + 1
        aqp := { s.aqp with
          numIoQueuePairsUsed := used
          queueUseMark := Function.update s.aqp.queueUseMark i true } }) →
      P i ((adminCreateIoQueuePair s cqAddr sqAddr cqStatus sqStatus).2.heap s.blocks)) :
    PairsHold P (adminCreateIoQueuePair s cqAddr sqAddr cqStatus sqStatus).2 := by
  rcases s.reserve_cases with ⟨used, refused⟩ | ⟨i, used, bound, _, taken⟩
  · rw [IoState.create_refused refused]
    exact ⟨hold.listed, hold.blocks, hold.holds⟩
  · obtain ⟨_, tables, blocks, _⟩ := IoState.create_taken taken cqAddr sqAddr cqStatus sqStatus
    obtain ⟨_, heap, _⟩ := IoState.create_memory taken cqAddr sqAddr cqStatus sqStatus
    have new := made i used bound taken
    constructor
    · intro j marked
      rw [tables] at marked ⊢
      by_cases mine : j = i
      · exact ⟨s.blocks, by simp [mine]⟩
      · simp only [Function.update_of_ne mine] at marked ⊢
        exact hold.listed j marked
    · intro j block listed
      rw [tables] at listed
      rw [blocks]
      by_cases mine : j = i
      · simp only [mine, Function.update_self, Option.some.injEq] at listed
        omega
      · simp only [Function.update_of_ne mine] at listed
        exact Nat.lt_succ_of_lt (hold.blocks j block listed)
    · intro j block marked listed
      rw [tables] at marked listed
      by_cases mine : j = i
      · simp only [mine, Function.update_self, Option.some.injEq] at listed
        rw [mine, ← listed]
        exact new
      · simp only [Function.update_of_ne mine] at marked listed
        rw [heap block (Nat.ne_of_lt (hold.blocks j block listed))]
        exact hold.holds j block marked listed

theorem delete (hold : PairsHold P s) {i sqStatus cqStatus : Nat} {s' : IoState}
    (returned : adminDeleteIoQueuePair s i sqStatus cqStatus = some s') : PairsHold P s' := by
  cases marked : s.aqp.queueUseMark i with
  | false =>
      rw [IoState.delete_unmarked marked, Option.some.injEq] at returned
      exact returned ▸ hold
  | true =>
      obtain ⟨pair, listed⟩ := hold.listed i marked
      rw [IoState.delete_marked marked listed, Option.some.injEq] at returned
      subst returned
      constructor
      · intro j set
        by_cases mine : j = i
        · simp [mine] at set
        · simp only [Function.update_of_ne mine] at set
          exact hold.listed j set
      · exact hold.blocks
      · intro j block set now
        by_cases mine : j = i
        · simp [mine] at set
        · simp only [Function.update_of_ne mine] at set
          exact hold.holds j block set now

end PairsHold

end BafsNvme
