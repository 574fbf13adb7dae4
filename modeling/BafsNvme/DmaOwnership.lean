import BafsNvme.HostBufferClear
import BafsNvme.Holdings
import BafsNvme.QueuePairTables

/-! Whose the DMA areas are, over the driver's whole life. -/

namespace BafsNvme

open Machine

/-- The pointers through which the driver reaches a DMA area: the admin rings, the two queues of
a slot, the PRP lists of a host buffer. -/
inductive AreaOwner where
  | adminCq
  | adminSq
  | pairCq (i : Nat)
  | pairSq (i : Nat)
  | prp (io : Nat)
  deriving DecidableEq

namespace DriverState

variable {T : Type}

def buffers (s : DriverState T) : List Nat :=
  s.host.list.walk s.host.blocks (s.host.list.listNext (.head ()))

def areaOf (s : DriverState T) : AreaOwner → Option (Nat × BitVec 64)
  | .adminCq => if s.stage = .up then some (s.admin.cq.addr, s.admin.cqDmaAddr) else none
  | .adminSq => if s.stage = .up then some (s.admin.sq.addr, s.admin.sqDmaAddr) else none
  | .pairCq i =>
      if s.stage = .up ∧ s.io.aqp.queueUseMark i = true then
        (s.io.aqp.ioQpList i).map fun qp => ((s.io.heap qp).cq.addr, s.io.aqp.cqDmaAddrs i)
      else none
  | .pairSq i =>
      if s.stage = .up ∧ s.io.aqp.queueUseMark i = true then
        (s.io.aqp.ioQpList i).map fun qp => ((s.io.heap qp).sq.addr, s.io.aqp.sqDmaAddrs i)
      else none
  | .prp io =>
      if s.stage ≠ .down ∧ io ∈ s.buffers ∧ io ∉ s.host.kfreed then
        some ((s.host.iobuf io).prpListPhys, (s.host.iobuf io).prpListDmaAddr)
      else none

def holdings (s : DriverState T) : Holdings AreaOwner (BitVec 64) where
  obtained := s.io.dma.allocs.map DmaAlloc.handle
  returned := s.io.dma.frees.map fun f => (f.area, f.handle)
  holds := s.areaOf

variable {s s' : DriverState T} {l : Holdings AreaOwner (BitVec 64)}

theorem create_moves (up : s.stage = .up) (moved : l.Moves s.holdings)
    (blocks : ∀ i pair, s.io.aqp.ioQpList i = some pair → pair < s.io.blocks)
    (cqAddr sqAddr : BitVec 64) (cqStatus sqStatus : Nat) :
    l.Moves (holdings { s with
      io := (adminCreateIoQueuePair s.io cqAddr sqAddr cqStatus sqStatus).2 }) := by
  rcases s.io.reserve_cases with ⟨used, refused⟩ | ⟨i, used, _, unmarked, taken⟩
  · rw [IoState.create_refused refused]
    exact moved
  · obtain ⟨_, tables, _, _⟩ := IoState.create_taken taken cqAddr sqAddr cqStatus sqStatus
    obtain ⟨dma, heap, _, _, cqArea, _, _, sqArea⟩ :=
      IoState.create_memory taken cqAddr sqAddr cqStatus sqStatus
    have free : s.holdings.holds (.pairCq i) = none ∧ s.holdings.holds (.pairSq i) = none := by
      simp [holdings, areaOf, unmarked]
    have first := moved.acquire (.pairCq i) cqAddr free.1
    have second := first.acquire (.pairSq i) sqAddr (by simpa [Holdings.acquire] using free.2)
    convert second using 1
    ext1
    · simp [holdings, dma, DmaLog.alloc, Holdings.acquire]
    · simp [holdings, dma, DmaLog.alloc, Holdings.acquire]
    · funext o
      -- the other pairs keep their blocks
      have same (j pair : Nat) (listed : s.io.aqp.ioQpList j = some pair) :
          (adminCreateIoQueuePair s.io cqAddr sqAddr cqStatus sqStatus).2.heap pair =
            s.io.heap pair := heap pair (Nat.ne_of_lt (blocks j pair listed))
      cases o with
      | pairCq j =>
          by_cases mine : j = i
          · simp [holdings, areaOf, Holdings.acquire, tables, mine, up, cqArea, DmaLog.next]
          · cases listed : s.io.aqp.ioQpList j with
            | none => simp [holdings, areaOf, Holdings.acquire, tables, mine, listed]
            | some pair =>
                simp [holdings, areaOf, Holdings.acquire, tables, mine, listed, same j pair listed]
      | pairSq j =>
          by_cases mine : j = i
          · simp [holdings, areaOf, Holdings.acquire, tables, mine, up, sqArea, DmaLog.next,
              DmaLog.alloc]
          · cases listed : s.io.aqp.ioQpList j with
            | none => simp [holdings, areaOf, Holdings.acquire, tables, mine, listed]
            | some pair =>
                simp [holdings, areaOf, Holdings.acquire, tables, mine, listed, same j pair listed]
      | adminCq | adminSq | prp io => rfl

theorem delete_moves (up : s.stage = .up) (moved : l.Moves s.holdings) (sized : PairsSized s.io)
    {i sqStatus cqStatus : Nat} {io : IoState}
    (returned : adminDeleteIoQueuePair s.io i sqStatus cqStatus = some io) :
    l.Moves (holdings { s with io := io }) := by
  cases marked : s.io.aqp.queueUseMark i with
  | false =>
      rw [IoState.delete_unmarked marked, Option.some.injEq] at returned
      exact returned ▸ moved
  | true =>
      obtain ⟨pair, listed⟩ := sized.listed i marked
      rw [IoState.delete_marked marked listed, Option.some.injEq] at returned
      subst returned
      have cq : s.holdings.holds (.pairCq i) =
          some ((s.io.heap pair).cq.addr, s.io.aqp.cqDmaAddrs i) := by
        simp [holdings, areaOf, up, marked, listed]
      have sq : s.holdings.holds (.pairSq i) =
          some ((s.io.heap pair).sq.addr, s.io.aqp.sqDmaAddrs i) := by
        simp [holdings, areaOf, up, marked, listed]
      have first := moved.giveBack _ cq
      have second := first.giveBack (.pairSq i) (by simpa [Holdings.giveBack] using sq)
      convert second using 1
      ext1
      · rfl
      · simp [holdings, DmaLog.free, Holdings.giveBack]
      · funext o
        cases o with
        | pairCq j | pairSq j =>
            by_cases mine : j = i <;> simp [holdings, areaOf, Holdings.giveBack, mine]
        | adminCq | adminSq | prp io => rfl

theorem delete_marks {io io' : IoState} {i sqStatus cqStatus : Nat}
    (returned : adminDeleteIoQueuePair io i sqStatus cqStatus = some io') :
    io'.aqp.queueUseMark = Function.update io.aqp.queueUseMark i false := by
  cases marked : io.aqp.queueUseMark i with
  | false =>
      rw [IoState.delete_unmarked marked, Option.some.injEq] at returned
      rw [← returned, ← marked, Function.update_eq_self]
  | true =>
      cases listed : io.aqp.ioQpList i with
      | none => simp [adminDeleteIoQueuePair, marked, listed] at returned
      | some pair =>
          rw [IoState.delete_marked marked listed, Option.some.injEq] at returned
          rw [← returned]

theorem deletePairs_moves (up : s.stage = .up) (moved : l.Moves s.holdings)
    (sized : PairsSized s.io) (statuses : Nat → Nat × Nat) (n : Nat) {io : IoState}
    (returned : deletePairs statuses s.io n = some io) :
    l.Moves (holdings { s with io := io }) ∧
      ∀ i, io.aqp.queueUseMark i = true → n ≤ i ∧ s.io.aqp.queueUseMark i = true := by
  induction n generalizing io with
  | zero =>
      cases returned
      exact ⟨moved, fun i marked => ⟨Nat.zero_le i, marked⟩⟩
  | succ n ih =>
      obtain ⟨before, earlier, last⟩ := Option.bind_eq_some_iff.mp returned
      obtain ⟨movedBefore, marks⟩ := ih earlier
      have sizedBefore := (sized.deletePairs statuses n earlier).1
      refine ⟨delete_moves (s := { s with io := before }) up movedBefore sizedBefore last, ?_⟩
      intro i marked
      rw [delete_marks last] at marked
      by_cases mine : i = n
      · simp [mine] at marked
      · rw [Function.update_of_ne mine] at marked
        obtain ⟨above, first⟩ := marks i marked
        exact ⟨by omega, first⟩

theorem buffers_eq {seq : List Nat} (list : BlockList s.host.list s.host.blocks seq) :
    s.buffers = seq := list.walk

theorem createBuf_moves [DecidableEq T] (running : s.stage ≠ .down) (moved : l.Moves s.holdings)
    {seq : List Nat} (list : BlockList s.host.list s.host.blocks seq)
    (freed : ∀ io ∈ s.host.kfreed, io < s.host.blocks) {current : T} {env : PageEnv}
    {pageSize pagesPerEntry numEntries vaddr prpAddr : BitVec 64} {result : Except Int Nat}
    {host : HostBuffers T} {dma : DmaLog}
    (taken : s.host.createHostIoBuf s.io.dma current env pageSize pagesPerEntry numEntries vaddr
      prpAddr = some (result, host, dma)) :
    l.Moves (holdings { s with host := host, io := { s.io with dma := dma } }) ∧
      host.kfreed = s.host.kfreed ∧ (BlockList host.list host.blocks seq ∨
        BlockList host.list host.blocks (seq ++ [s.host.blocks])) := by
  rw [HostBuffers.createHostIoBuf] at taken
  split at taken
  · simp only [Option.some.injEq, Prod.mk.injEq] at taken
    obtain ⟨_, rfl, rfl⟩ := taken
    exact ⟨moved, rfl, .inl list⟩
  · next m pages mapped =>
    split at taken
    · cases taken
    · obtain ⟨after, linked, same⟩ := Option.map_eq_some_iff.mp taken
      simp only [Prod.mk.injEq] at same
      obtain ⟨_, rfl, rfl⟩ := same
      obtain ⟨after', ran, grown⟩ := list.grow.listInsert list.fresh (Nat.lt_succ_self _)
      obtain rfl : after' = after := Option.some.inj (ran.symm.trans linked)
      refine ⟨?_, rfl, .inr grown⟩
      have unknown : s.host.blocks ∉ s.host.kfreed := fun member =>
        Nat.lt_irrefl _ (freed _ member)
      have free : s.holdings.holds (.prp s.host.blocks) = none := by
        simp [holdings, areaOf, buffers_eq list, list.fresh]
      convert moved.acquire _ prpAddr free using 1
      ext1
      · simp [holdings, DmaLog.alloc, Holdings.acquire]
      · rfl
      · funext o
        cases o with
        | prp io =>
            by_cases mine : io = s.host.blocks
            · simp [holdings, areaOf, Holdings.acquire, buffers, grown.walk, mine, running, unknown,
                DmaLog.next]
            · simp [holdings, areaOf, Holdings.acquire, buffers, grown.walk, list.walk, mine]
        | adminCq | adminSq | pairCq i | pairSq i => rfl

theorem deleteBuf_moves [DecidableEq T] (running : s.stage ≠ .down) (moved : l.Moves s.holdings)
    {seq : List Nat} (list : BlockList s.host.list s.host.blocks seq)
    (fresh : ∀ io ∈ seq, io ∉ s.host.kfreed) {current : T} {vaddr : BitVec 64}
    {host : HostBuffers T} {dma : DmaLog}
    (taken : s.host.deleteHostIoBuf s.io.dma current vaddr = some (host, dma)) :
    l.Moves (holdings { s with host := host, io := { s.io with dma := dma } }) ∧
      ∃ io ∈ seq, host.kfreed = s.host.kfreed ++ [io] ∧
        BlockList host.list host.blocks (seq.erase io) := by
  simp only [HostBuffers.deleteHostIoBuf, HostBuffers.findIobuf_eq list, Option.bind_some,
    Option.bind_eq_some_iff, Option.map_eq_some_iff] at taken
  obtain ⟨io, found, after, removed, result⟩ := taken
  have member := List.mem_of_find?_eq_some found
  obtain ⟨after', ran, shorter⟩ := list.listRemove member
  obtain rfl : after' = after := Option.some.inj (ran.symm.trans removed)
  simp only [HostBuffers.releaseIobuf, Prod.mk.injEq] at result
  obtain ⟨rfl, rfl⟩ := result
  refine ⟨?_, io, member, rfl, shorter⟩
  have held : s.holdings.holds (.prp io) =
      some ((s.host.iobuf io).prpListPhys, (s.host.iobuf io).prpListDmaAddr) := by
    simp [holdings, areaOf, buffers_eq list, member, running, fresh io member]
  convert moved.giveBack _ held using 1
  ext1
  · rfl
  · simp [holdings, DmaLog.free, Holdings.giveBack]
  · funext o
    cases o with
    | prp other =>
        by_cases mine : other = io
        · simp [holdings, areaOf, Holdings.giveBack, mine]
        · simp [holdings, areaOf, Holdings.giveBack, buffers, shorter.walk, list.walk, mine]
    | adminCq | adminSq | pairCq i | pairSq i => rfl

theorem clearRound_moves (running : s.stage ≠ .down) (moved : l.Moves s.holdings)
    {seq : List Nat} (list : BlockList s.host.list s.host.blocks seq) {host : HostBuffers T}
    {dma : DmaLog} (taken : s.host.clearHostIoRound s.io.dma = some (host, dma)) :
    l.Moves (holdings { s with host := host, io := { s.io with dma := dma } }) := by
  rw [HostBuffers.clearHostIoRound] at taken
  split at taken
  · next io next =>
    split at taken
    · cases taken
    · next kept =>
      obtain ⟨first, front, same⟩ := Option.map_eq_some_iff.mp (list.listNext_head.symm.trans next)
      obtain rfl := NodePtr.node.inj same
      have member := List.mem_of_head? front
      simp only [HostBuffers.releaseIobuf, Option.some.injEq, Prod.mk.injEq] at taken
      obtain ⟨rfl, rfl⟩ := taken
      have held : s.holdings.holds (.prp first) =
          some ((s.host.iobuf first).prpListPhys, (s.host.iobuf first).prpListDmaAddr) := by
        simp [holdings, areaOf, buffers_eq list, member, running, kept]
      convert moved.giveBack _ held using 1
      ext1
      · rfl
      · simp [holdings, DmaLog.free, Holdings.giveBack]
      · funext o
        cases o with
        | prp other =>
            by_cases mine : other = first
            · simp [holdings, areaOf, Holdings.giveBack, mine]
            · have otherOwner : AreaOwner.prp other ≠ .prp first := by simpa using mine
              simp only [holdings, Holdings.giveBack, Function.update_of_ne otherOwner]
              exact if_congr (by simp [buffers, mine]) rfl rfl
        | adminCq | adminSq | pairCq i | pairSq i => rfl
  · cases taken

theorem cleared_moves (moved : l.Moves s.holdings) (clearing : s.stage = .clearing)
    (empty : s.buffers = []) : l.Moves (holdings { s with stage := .down }) := by
  convert moved using 1
  ext1
  · rfl
  · rfl
  · funext o
    cases o <;> simp [holdings, areaOf, clearing, empty]

/-- `admin_init` just before it creates the first pair, with the list that it initialises last
already empty: the create does not look at it. -/
def initUp (s : DriverState T) (input : InitInput) : DriverState T :=
  { s.initTables input with
    host := { s.host with list := s.host.list.listInit () }
    stage := .up }

theorem initUp_moves (down : s.stage = .down) (moved : l.Moves s.holdings) (input : InitInput) :
    l.Moves (s.initUp input).holdings := by
  have free : ∀ o, s.holdings.holds o = none := by
    intro o
    cases o <;> simp [holdings, areaOf, down]
  have first := moved.acquire .adminCq input.adminCqAddr (free _)
  have second := first.acquire .adminSq input.adminSqAddr (by simpa [Holdings.acquire] using free _)
  convert second using 1
  ext1
  · simp [initUp, initTables, holdings, initRings, DmaLog.alloc, Holdings.acquire]
  · simp [initUp, initTables, holdings, initRings, DmaLog.alloc, Holdings.acquire]
  · funext o
    have noBuffers : (s.initUp input).buffers = [] := (BlockList.listInit _ s.host.blocks).walk
    cases o with
    | adminCq =>
        simp [initUp, initTables, holdings, areaOf, initRings, Holdings.acquire, DmaLog.next]
    | adminSq =>
        simp [initUp, initTables, holdings, areaOf, initRings, Holdings.acquire, DmaLog.next,
          DmaLog.alloc]
    | pairCq i | pairSq i =>
        simp [initUp, initTables, holdings, areaOf, adminInitTables, Holdings.acquire, down]
    | prp io =>
        simp [holdings, areaOf, noBuffers, Holdings.acquire, down]

theorem adminInit_moves (down : s.stage = .down) (moved : l.Moves s.holdings)
    (input : InitInput) : l.Moves (s.adminInit input).holdings := by
  have unlisted (i pair : Nat) (listed : (s.initUp input).io.aqp.ioQpList i = some pair) :
      pair < (s.initUp input).io.blocks := by
    cases listed
  exact create_moves (s := s.initUp input) rfl (initUp_moves down moved input) unlisted ..

theorem adminClean_moves (up : s.stage = .up) (moved : l.Moves s.holdings) (sized : PairsSized s.io)
    (inside : ∀ i, s.io.aqp.queueUseMark i = true → i < s.io.aqp.numIoQueuePairsSupported)
    {statuses : Nat → Nat × Nat} (taken : s.adminClean statuses = some s') :
    l.Moves s'.holdings := by
  obtain ⟨io, deleted, rfl⟩ := Option.map_eq_some_iff.mp taken
  obtain ⟨pairs, marks⟩ := deletePairs_moves up moved sized statuses _ deleted
  have clear (i : Nat) : io.aqp.queueUseMark i = false := by
    cases marked : io.aqp.queueUseMark i with
    | false => rfl
    | true =>
        obtain ⟨above, before⟩ := marks i marked
        exact absurd (inside i before) (Nat.not_lt_of_le above)
  have sq : (holdings { s with io := io }).holds .adminSq =
      some (s.admin.sq.addr, s.admin.sqDmaAddr) := by
    simp [holdings, areaOf, up]
  have first := pairs.giveBack .adminSq sq
  have cq : ((holdings { s with io := io }).giveBack .adminSq
      (s.admin.sq.addr, s.admin.sqDmaAddr)).holds .adminCq =
      some (s.admin.cq.addr, s.admin.cqDmaAddr) := by
    simp [holdings, areaOf, Holdings.giveBack, up]
  have second := first.giveBack .adminCq cq
  convert second using 1
  ext1
  · rfl
  · simp [holdings, DmaLog.free, Holdings.giveBack]
  · funext o
    cases o with
    | adminCq | adminSq => simp [holdings, areaOf, Holdings.giveBack]
    | pairCq i | pairSq i => simp [holdings, areaOf, Holdings.giveBack, clear]
    | prp buf => simp [holdings, areaOf, Holdings.giveBack, buffers, up]

structure OwnershipInv (s : DriverState T) : Prop where
  sizes : ∃ spec, SizesInv s spec
  inside : s.stage = .up →
    ∀ i, s.io.aqp.queueUseMark i = true → i < s.io.aqp.numIoQueuePairsSupported
  fresh : s.stage = .up → ∀ io ∈ s.buffers, io ∉ s.host.kfreed
  moved : Holdings.nothing.Moves s.holdings

namespace OwnershipInv

theorem list (inv : OwnershipInv s) (running : s.stage ≠ .down) :
    BlockList s.host.list s.host.blocks s.buffers ∧ ∀ io ∈ s.host.kfreed, io < s.host.blocks := by
  obtain ⟨spec, sizes⟩ := inv.sizes
  have list := sizes.host.blockList (sizes.live running)
  rw [buffers_eq list]
  exact ⟨list, sizes.host.freed⟩

theorem pairs (inv : OwnershipInv s) (up : s.stage = .up) : PairsSized s.io := by
  obtain ⟨_, sizes⟩ := inv.sizes
  exact sizes.pairs up

theorem marked (inv : OwnershipInv s) (up : s.stage = .up) :
    PairsHold (fun i _ => i < s.io.aqp.numIoQueuePairsSupported) s.io where
  listed := (inv.pairs up).listed
  blocks := (inv.pairs up).blocks
  holds i _ mark _ := inv.inside up i mark

end OwnershipInv

theorem create_inside {io : IoState}
    (marked : PairsHold (fun i _ => i < io.aqp.numIoQueuePairsSupported) io)
    (cqAddr sqAddr : BitVec 64) (cqStatus sqStatus : Nat) {i : Nat}
    (mark : (adminCreateIoQueuePair io cqAddr sqAddr cqStatus sqStatus).2.aqp.queueUseMark i =
      true) :
    i < (adminCreateIoQueuePair io cqAddr sqAddr cqStatus sqStatus).2.aqp.numIoQueuePairsSupported
    := by
  have after := marked.create cqAddr sqAddr cqStatus sqStatus fun _ _ bound _ => bound
  obtain ⟨pair, listed⟩ := after.listed i mark
  rw [create_supported]
  exact after.holds i pair mark listed

theorem OwnershipInv.step [DecidableEq T] (inv : OwnershipInv s) {e : DriverEvent T}
    (taken : s.step e = some s') : OwnershipInv s' := by
  have sizes : ∃ spec, SizesInv s' spec := inv.sizes.elim fun _ sizes => sizes.step taken
  have running : s.stage = .up ∨ s.stage = .clearing → s.stage ≠ .down := by
    rintro (up | clearing) down
    · exact nomatch up.symm.trans down
    · exact nomatch clearing.symm.trans down
  have takes := step_takes taken
  cases e with
  | adminInit input =>
      obtain ⟨down, rfl⟩ := takes
      refine ⟨sizes, ?_, ?_, adminInit_moves down inv.moved input⟩
      · intro _ i mark
        have unmarked : PairsHold (fun i _ => i < numQueuesSupported input.cpl)
            { (s.initRings input).io with
              aqp := adminInitTables input.cap0 input.dstrd input.cqDb input.sqDb input.cpl
                input.sqDmaAddrs input.cqDmaAddrs
              ctl := .empty } := ⟨nofun, nofun, nofun⟩
        exact create_inside unmarked _ _ _ _ mark
      · intro _ io member
        have none_listed : (s.adminInit input).buffers = [] :=
          (BlockList.listInit _ s.host.blocks).walk
        rw [none_listed] at member
        cases member
  | createPair cqAddr sqAddr cqStatus sqStatus =>
      obtain ⟨up, rfl⟩ := takes
      exact ⟨sizes, fun _ _ mark => create_inside (inv.marked up) _ _ _ _ mark, inv.fresh,
        create_moves up inv.moved (inv.pairs up).blocks ..⟩
  | deletePair i sqStatus cqStatus =>
      obtain ⟨up, _, io, deleted, rfl⟩ := takes
      refine ⟨sizes, ?_, inv.fresh, delete_moves up inv.moved (inv.pairs up) deleted⟩
      intro _ j mark
      have after := (inv.marked up).delete deleted
      obtain ⟨pair, listed⟩ := after.listed j mark
      exact (delete_supported deleted).symm ▸ after.holds j pair mark listed
  | createHostIoBuf current env pageSize pagesPerEntry numEntries vaddr prpAddr =>
      obtain ⟨up, result, host, dma, created, rfl⟩ := takes
      have notDown := running (.inl up)
      obtain ⟨list, freed⟩ := inv.list notDown
      obtain ⟨moved, kfreed, grown⟩ := createBuf_moves notDown inv.moved list freed created
      refine ⟨sizes, inv.inside, ?_, moved⟩
      intro _ io member
      rw [kfreed]
      rcases grown with same | longer
      · rw [buffers_eq same] at member
        exact inv.fresh up io member
      · rw [buffers_eq longer] at member
        rcases List.mem_append.mp member with old | new
        · exact inv.fresh up io old
        · rw [List.mem_singleton.mp new]
          exact fun given => Nat.lt_irrefl _ (freed _ given)
  | deleteHostIoBuf current vaddr =>
      obtain ⟨up, host, dma, deleted, rfl⟩ := takes
      have notDown := running (.inl up)
      obtain ⟨list, _⟩ := inv.list notDown
      obtain ⟨moved, io, _, kfreed, shorter⟩ :=
        deleteBuf_moves notDown inv.moved list (inv.fresh up) deleted
      refine ⟨sizes, inv.inside, ?_, moved⟩
      intro _ other member
      rw [buffers_eq shorter] at member
      rw [kfreed, List.mem_append, List.mem_singleton, not_or]
      refine ⟨inv.fresh up other (List.mem_of_mem_erase member), ?_⟩
      rintro rfl
      exact list.nodup.not_mem_erase member
  | adminClean statuses =>
      obtain ⟨up, cleaned⟩ := takes
      have moved := adminClean_moves up inv.moved (inv.pairs up) (inv.inside up) cleaned
      obtain ⟨io, _, rfl⟩ := Option.map_eq_some_iff.mp cleaned
      exact ⟨sizes, (nomatch ·), (nomatch ·), moved⟩
  | clearHostIoRound =>
      obtain ⟨clearing, host, dma, round, rfl⟩ := takes
      have notDown := running (.inr clearing)
      have notUp : s.stage ≠ .up := fun up => nomatch up.symm.trans clearing
      exact ⟨sizes, fun up => absurd up notUp, fun up => absurd up notUp,
        clearRound_moves notDown inv.moved (inv.list notDown).1 round⟩
  | cleared =>
      obtain ⟨clearing, ended, rfl⟩ := takes
      obtain ⟨list, _⟩ := inv.list (running (.inr clearing))
      have empty : s.buffers = [] := by
        rw [list.listNext_head, Option.map_eq_none_iff, List.head?_eq_none_iff] at ended
        exact ended
      exact ⟨sizes, (nomatch ·), (nomatch ·), cleared_moves inv.moved clearing empty⟩

theorem OwnershipInv.start [DecidableEq T] (initial : (machine T).init s) : OwnershipInv s := by
  have sizes := SizesInv.start initial
  obtain ⟨down, dma, _⟩ := initial
  have nobody : s.holdings = Holdings.nothing := by
    ext1
    · simp [holdings, dma, Holdings.nothing]
    · simp [holdings, dma, Holdings.nothing]
    · funext o
      cases o <;> simp [holdings, areaOf, down, Holdings.nothing]
  refine ⟨⟨_, sizes⟩, ?_, ?_, nobody ▸ .refl⟩
  · exact fun up => nomatch up.symm.trans down
  · exact fun up => nomatch up.symm.trans down

/-- In every run each DMA area has one owner or was given back once, with the bus address it was
obtained with; and after `admin_clean` every area has been given back. -/
theorem areas_exact [DecidableEq T] (s : DriverState T)
    (reached : Reachable (machine T) anyEvent s) :
    s.holdings.Exact ∧
      (s.stage = .down → (s.io.dma.frees.map DmaFree.area).Perm (List.range s.io.dma.next)) := by
  have inv : OwnershipInv s :=
    reached.invariant (P := OwnershipInv) (fun _ initial => OwnershipInv.start initial)
      (fun _ _ _ inv _ taken => inv.step taken)
  have exact : s.holdings.Exact := Holdings.Exact.nothing.moves inv.moved
  refine ⟨exact, ?_⟩
  intro down
  have all := exact.all_back fun o => by cases o <;> simp [holdings, areaOf, down]
  simpa [holdings, DmaLog.next, Function.comp_def] using all

theorem areas_exact_two_lives :
    ∃ s : DriverState Unit, s.stage = .down ∧ s.io.dma.next = 9 ∧ s.holdings.Exact ∧
      (s.io.dma.frees.map DmaFree.area).Perm (List.range 9) := by
  have begins : Reachable (machine Unit) anyEvent blank := .start ⟨rfl, rfl, rfl⟩
  have ended : ((machine Unit).run blank
      [.adminInit smallInit,
        .createHostIoBuf () (allMapped 2) 4096#64 1#64 2#64 0x10000#64 0x5000#64,
        .deleteHostIoBuf () 0x10008#64, .adminClean fun _ => (0, 0), .cleared,
        .adminInit smallInit, .adminClean fun _ => (0, 0), .cleared]).map (fun s =>
          (s.stage, s.io.dma.next)) = some (.down, 9) := by
    decide +kernel
  obtain ⟨s, _, reached, facts⟩ := begins.computed ended
  simp only [Prod.mk.injEq] at facts
  obtain ⟨down, next⟩ := facts
  obtain ⟨exact, all⟩ := areas_exact s reached
  exact ⟨s, down, next, exact, next ▸ all down⟩

end DriverState

end BafsNvme
