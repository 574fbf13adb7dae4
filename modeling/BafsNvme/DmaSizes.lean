import BafsNvme.BlockList
import BafsNvme.DriverRuns

/-! The sizes of the DMA areas: what `dma_free_coherent` is told against what
`dma_alloc_coherent` was asked for. -/

namespace BafsNvme

open Machine

namespace DmaLog

def sizeOf (dma : DmaLog) (area : Nat) : Option Nat := (dma.allocs[area]?).map DmaAlloc.size

def SizesMatch (dma : DmaLog) : Prop := ∀ f ∈ dma.frees, dma.sizeOf f.area = some f.size

def Obtained (dma : DmaLog) : Prop := ∀ f ∈ dma.frees, f.area < dma.next

theorem sizeOf_bound {dma : DmaLog} {area size : Nat} (known : dma.sizeOf area = some size) :
    area < dma.next := by
  obtain ⟨a, found, _⟩ := Option.map_eq_some_iff.mp known
  exact (List.getElem?_eq_some_iff.mp found).1

theorem sizeOf_alloc {dma : DmaLog} {size area : Nat} {handle : BitVec 64} (old : area < dma.next) :
    (dma.alloc size handle).sizeOf area = dma.sizeOf area := by
  rw [sizeOf, sizeOf, alloc, List.getElem?_append_left old]

theorem sizeOf_next (dma : DmaLog) (size : Nat) (handle : BitVec 64) :
    (dma.alloc size handle).sizeOf dma.next = some size := by
  simp [sizeOf, alloc, next]

theorem sizesMatch_free (dma : DmaLog) (size area : Nat) (handle : BitVec 64) :
    (dma.free size area handle).SizesMatch ↔ dma.SizesMatch ∧ dma.sizeOf area = some size := by
  simp only [SizesMatch, free, List.mem_append, List.mem_singleton]
  constructor
  · intro all
    exact ⟨fun f member => all f (.inl member), all ⟨size, area, handle⟩ (.inr rfl)⟩
  · rintro ⟨before, last⟩ f (member | rfl)
    · exact before f member
    · exact last

def Keeps (dma dma' : DmaLog) : Prop :=
  ∀ area size, dma.sizeOf area = some size → dma'.sizeOf area = some size

structure Extends (dma dma' : DmaLog) : Prop where
  kept : dma.Keeps dma'
  obtained : dma.Obtained → dma'.Obtained
  same : dma.Obtained → (dma'.SizesMatch ↔ dma.SizesMatch)

theorem Extends.refl (dma : DmaLog) : dma.Extends dma := ⟨fun _ _ known => known, id, fun _ => .rfl⟩

theorem Extends.trans {first second third : DmaLog} (before : first.Extends second)
    (after : second.Extends third) : first.Extends third where
  kept area size known := after.kept area size (before.kept area size known)
  obtained old := after.obtained (before.obtained old)
  same old := (after.same (before.obtained old)).trans (before.same old)

theorem extends_alloc (dma : DmaLog) (size : Nat) (handle : BitVec 64) :
    dma.Extends (dma.alloc size handle) := by
  constructor
  · intro area n known
    rw [sizeOf_alloc (sizeOf_bound known)]
    exact known
  · intro old f member
    have before := old f member
    simp only [next, alloc, List.length_append, List.length_singleton] at before ⊢
    exact Nat.lt_succ_of_lt before
  · intro old
    constructor
    · intro all f member
      rw [← sizeOf_alloc (old f member)]
      exact all f member
    · intro all f member
      rw [sizeOf_alloc (old f member)]
      exact all f member

theorem extends_free {dma : DmaLog} {size area : Nat} (known : dma.sizeOf area = some size)
    (handle : BitVec 64) : dma.Extends (dma.free size area handle) := by
  constructor
  · exact fun _ _ known => known
  · intro old f member
    rcases List.mem_append.mp member with before | last
    · exact old f before
    · rw [List.mem_singleton.mp last]
      exact sizeOf_bound known
  · intro _
    rw [sizesMatch_free]
    exact and_iff_left known

end DmaLog

def QueueSized (dma : DmaLog) (q : IoQueue) : Prop := dma.sizeOf q.addr = some (q.qs * q.es % 2 ^ 64)

theorem QueueSized.kept {dma dma' : DmaLog} {q : IoQueue} (sized : QueueSized dma q)
    (keeps : dma.Keeps dma') : QueueSized dma' q :=
  keeps _ _ sized

structure PairsSized (s : IoState) : Prop where
  listed : ∀ i, s.aqp.queueUseMark i = true → ∃ pair, s.aqp.ioQpList i = some pair
  blocks : ∀ i pair, s.aqp.ioQpList i = some pair → pair < s.blocks
  sized : ∀ i pair, s.aqp.queueUseMark i = true → s.aqp.ioQpList i = some pair →
    QueueSized s.dma (s.heap pair).cq ∧ QueueSized s.dma (s.heap pair).sq

namespace PairsSized

variable {s : IoState}

theorem held (sized : PairsSized s) {dma : DmaLog} (keeps : s.dma.Keeps dma) :
    PairsHold (fun _ pair => QueueSized dma pair.cq ∧ QueueSized dma pair.sq) s where
  listed := sized.listed
  blocks := sized.blocks
  holds i pair marked listed :=
    (sized.sized i pair marked listed).imp (·.kept keeps) (·.kept keeps)

theorem create (sized : PairsSized s) (cqAddr sqAddr : BitVec 64) (cqStatus sqStatus : Nat) :
    PairsSized (adminCreateIoQueuePair s cqAddr sqAddr cqStatus sqStatus).2 ∧
      s.dma.Extends (adminCreateIoQueuePair s cqAddr sqAddr cqStatus sqStatus).2.dma := by
  have cqExtends := s.dma.extends_alloc (s.aqp.ioQueueSize * s.aqp.cqEs % 2 ^ 64) cqAddr
  have sqExtends := DmaLog.extends_alloc
    (s.dma.alloc (s.aqp.ioQueueSize * s.aqp.cqEs % 2 ^ 64) cqAddr)
    (s.aqp.ioQueueSize * s.aqp.sqEs % 2 ^ 64) sqAddr
  have extended :
      s.dma.Extends (adminCreateIoQueuePair s cqAddr sqAddr cqStatus sqStatus).2.dma := by
    rcases s.reserve_cases with ⟨used, refused⟩ | ⟨i, used, _, _, taken⟩
    · rw [IoState.create_refused refused]
      exact .refl _
    · rw [(IoState.create_memory taken cqAddr sqAddr cqStatus sqStatus).1]
      exact cqExtends.trans sqExtends
  have after := (sized.held extended.kept).create cqAddr sqAddr cqStatus sqStatus (by
    intro i used _ taken
    obtain ⟨dma, _, cqQs, cqEs, cqArea, sqQs, sqEs, sqArea⟩ :=
      IoState.create_memory taken cqAddr sqAddr cqStatus sqStatus
    rw [QueueSized, QueueSized, cqQs, cqEs, cqArea, sqQs, sqEs, sqArea, dma]
    exact ⟨sqExtends.kept _ _ (DmaLog.sizeOf_next ..), DmaLog.sizeOf_next ..⟩)
  exact ⟨⟨after.listed, after.blocks, after.holds⟩, extended⟩

theorem delete (sized : PairsSized s) {i sqStatus cqStatus : Nat} {s' : IoState}
    (returned : adminDeleteIoQueuePair s i sqStatus cqStatus = some s') :
    PairsSized s' ∧ s.dma.Extends s'.dma := by
  have extended : s.dma.Extends s'.dma := by
    cases marked : s.aqp.queueUseMark i with
    | false =>
        rw [IoState.delete_unmarked marked, Option.some.injEq] at returned
        exact returned ▸ .refl _
    | true =>
        obtain ⟨pair, listed⟩ := sized.listed i marked
        obtain ⟨cq, sq⟩ := sized.sized i pair marked listed
        rw [IoState.delete_marked marked listed, Option.some.injEq] at returned
        have cqFreed := DmaLog.extends_free cq (s.aqp.cqDmaAddrs i)
        rw [← returned]
        exact cqFreed.trans (DmaLog.extends_free (sq.kept cqFreed.kept) _)
  have after := (sized.held extended.kept).delete returned
  exact ⟨⟨after.listed, after.blocks, after.holds⟩, extended⟩

theorem deletePairs (sized : PairsSized s) (statuses : Nat → Nat × Nat) (n : Nat) {s' : IoState}
    (returned : DriverState.deletePairs statuses s n = some s') :
    PairsSized s' ∧ s.dma.Extends s'.dma := by
  induction n generalizing s' with
  | zero =>
      cases returned
      exact ⟨sized, .refl _⟩
  | succ n ih =>
      obtain ⟨before, earlier, last⟩ := Option.bind_eq_some_iff.mp returned
      obtain ⟨sizedBefore, first⟩ := ih earlier
      obtain ⟨sizedAfter, second⟩ := sizedBefore.delete last
      exact ⟨sizedAfter, first.trans second⟩

theorem other_dma (sized : PairsSized s) {dma : DmaLog} (keeps : s.dma.Keeps dma) :
    PairsSized { s with dma := dma } := by
  refine ⟨sized.listed, sized.blocks, ?_⟩
  intro i pair marked listed
  obtain ⟨cq, sq⟩ := sized.sized i pair marked listed
  exact ⟨cq.kept keeps, sq.kept keeps⟩

end PairsSized

/-- The pages of one entry, as `create_host_io_buf` is told of them, are one page of the host,
up to the wrap of the 64-bit products. -/
def EntryIsPage (pageSize pagesPerEntry numEntries : BitVec 64) : Prop :=
  numEntries * pagesPerEntry * pageSize = numEntries * 4096#64

theorem entryIsPage_iff {pageSize pagesPerEntry numEntries : BitVec 64}
    (some_entry : 0 < numEntries.toNat)
    (fits : numEntries.toNat * pagesPerEntry.toNat * pageSize.toNat < 2 ^ 64)
    (listsFit : numEntries.toNat * 4096 < 2 ^ 64) :
    EntryIsPage pageSize pagesPerEntry numEntries ↔ pagesPerEntry.toNat * pageSize.toNat = 4096 := by
  have released : (numEntries * pagesPerEntry * pageSize).toNat =
      numEntries.toNat * (pagesPerEntry.toNat * pageSize.toNat) := by
    rw [BitVec.toNat_mul, BitVec.toNat_mul, Nat.mod_mul_mod, Nat.mod_eq_of_lt fits, Nat.mul_assoc]
  have obtained : (numEntries * 4096#64).toNat = numEntries.toNat * 4096 := by
    rw [BitVec.toNat_mul]
    exact Nat.mod_eq_of_lt listsFit
  rw [EntryIsPage, ← BitVec.toNat_inj, released, obtained]
  exact Nat.mul_right_inj (Nat.ne_of_gt some_entry)

variable {T : Type}

namespace Iobuf

def Paged (io : Iobuf T) : Prop := EntryIsPage io.pageSize io.pagesPerEntry io.numEntries

end Iobuf

theorem HostBuffers.findIobuf_eq [DecidableEq T] {s : HostBuffers T} {seq : List Nat}
    (list : BlockList s.list s.blocks seq) (current : T) (vaddr : BitVec 64) :
    s.findIobuf current vaddr =
      some (seq.find? fun io => ListHeap.iobufMatches current vaddr (s.iobuf io).fields) :=
  list.findLoop _

/-- The PRP area of every buffer in the list has its size, and the areas given back so far have
theirs exactly if the buffers given back are paged. -/
structure HostSized (s : HostBuffers T) (dma : DmaLog) (spec : ListSpec Unit Nat) : Prop where
  obtained : dma.Obtained
  agree : dma.SizesMatch ↔ ∀ io ∈ s.kfreed, (s.iobuf io).Paged
  represents : ListSystem.Represents s.list spec
  blocks : ∀ io ∈ spec.seq (), io < s.blocks
  sized : ∀ io ∈ spec.seq (),
    dma.sizeOf (s.iobuf io).prpListPhys = some (s.iobuf io).prpAllocSize.toNat
  freed : ∀ io ∈ s.kfreed, io < s.blocks

namespace HostSized

variable {s : HostBuffers T} {dma : DmaLog} {spec : ListSpec Unit Nat}

theorem extend (sized : HostSized s dma spec) {dma' : DmaLog} (extended : dma.Extends dma') :
    HostSized s dma' spec where
  obtained := extended.obtained sized.obtained
  agree := (extended.same sized.obtained).trans sized.agree
  represents := sized.represents
  blocks := sized.blocks
  sized io member := extended.kept _ _ (sized.sized io member)
  freed := sized.freed

theorem blockList (sized : HostSized s dma spec) (live : spec.live () = true) :
    BlockList s.list s.blocks (spec.seq ()) :=
  ⟨⟨spec, sized.represents, live, rfl⟩, sized.blocks⟩

theorem next_mem (sized : HostSized s dma spec) (live : spec.live () = true) {io : Nat}
    (next : s.list.listNext (.head ()) = some (.node io)) : io ∈ spec.seq () := by
  obtain ⟨first, front, same⟩ := Option.map_eq_some_iff.mp
    ((sized.blockList live).listNext_head.symm.trans next)
  rw [NodePtr.node.injEq] at same
  exact same ▸ List.mem_of_head? front

theorem next_none (sized : HostSized s dma spec) (live : spec.live () = true)
    (next : s.list.listNext (.head ()) = none) : spec.seq () = [] := by
  have front := (sized.blockList live).listNext_head.symm.trans next
  rwa [Option.map_eq_none_iff, List.head?_eq_none_iff] at front

theorem release (sized : HostSized s dma spec) {io : Nat} (bound : io < s.blocks)
    (area : dma.sizeOf (s.iobuf io).prpListPhys = some (s.iobuf io).prpAllocSize.toNat) :
    HostSized (s.releaseIobuf dma io).1 (s.releaseIobuf dma io).2 spec := by
  have paged : dma.sizeOf (s.iobuf io).prpListPhys = some (s.iobuf io).prpFreeSize.toNat ↔
      (s.iobuf io).Paged := by
    rw [area, Option.some.injEq, BitVec.toNat_inj]
    exact eq_comm
  constructor
  · intro f member
    rcases List.mem_append.mp member with before | last
    · exact sized.obtained f before
    · rw [List.mem_singleton.mp last]
      exact DmaLog.sizeOf_bound area
  · rw [HostBuffers.releaseIobuf, DmaLog.sizesMatch_free, sized.agree, paged]
    constructor
    · rintro ⟨before, last⟩ other member
      rcases List.mem_append.mp member with old | new
      · exact before other old
      · exact List.mem_singleton.mp new ▸ last
    · intro all
      exact ⟨fun other member => all other (List.mem_append_left _ member),
        all io (List.mem_append_right _ (List.mem_singleton_self io))⟩
  · exact sized.represents
  · exact sized.blocks
  · exact sized.sized
  · intro other member
    rcases List.mem_append.mp member with old | new
    · exact sized.freed other old
    · exact List.mem_singleton.mp new ▸ bound

theorem clearRound (sized : HostSized s dma spec) (live : spec.live () = true)
    {s' : HostBuffers T} {dma' : DmaLog} (taken : s.clearHostIoRound dma = some (s', dma')) :
    HostSized s' dma' spec ∧ dma.Keeps dma' := by
  rw [HostBuffers.clearHostIoRound] at taken
  split at taken
  · next io next =>
    have member := sized.next_mem live next
    split at taken
    · cases taken
    · rw [Option.some.injEq] at taken
      have after := sized.release (sized.blocks io member) (sized.sized io member)
      rw [taken] at after
      have log : dma' = (s.releaseIobuf dma io).2 := (congrArg Prod.snd taken).symm
      refine ⟨after, ?_⟩
      rw [log]
      exact fun _ _ known => known
  · cases taken

theorem delete [DecidableEq T] (sized : HostSized s dma spec) (live : spec.live () = true)
    {current : T} {vaddr : BitVec 64} {s' : HostBuffers T} {dma' : DmaLog}
    (taken : s.deleteHostIoBuf dma current vaddr = some (s', dma')) :
    ∃ spec', HostSized s' dma' spec' ∧ spec'.live () = true ∧ dma.Keeps dma' := by
  simp only [HostBuffers.deleteHostIoBuf, HostBuffers.findIobuf_eq (sized.blockList live),
    Option.bind_some,
    Option.bind_eq_some_iff, Option.map_eq_some_iff] at taken
  obtain ⟨io, found, list, removed, result⟩ := taken
  have member := List.mem_of_find?_eq_some found
  have place := (sized.represents.placed io ()).mpr member
  obtain ⟨list', ran, represents, _⟩ := sized.represents.removeMember place
  obtain rfl : list' = list := Option.some.inj (ran.symm.trans removed)
  have spec' : (spec.apply (.remove (some (.node io)))).seq () = (spec.seq ()).erase io := by
    simp [ListSpec.apply, place]
  have unlinked : HostSized { s with list := list' } dma
      (spec.apply (.remove (some (.node io)))) := by
    refine ⟨sized.obtained, sized.agree, represents, ?_, ?_, sized.freed⟩
    · intro other inside
      rw [spec'] at inside
      exact sized.blocks other (List.mem_of_mem_erase inside)
    · intro other inside
      rw [spec'] at inside
      exact sized.sized other (List.mem_of_mem_erase inside)
  have after := unlinked.release (sized.blocks io member) (sized.sized io member)
  rw [result] at after
  have log : dma' = (s.releaseIobuf dma io).2 := (congrArg Prod.snd result).symm
  refine ⟨_, after, ListSystem.live_kept live, ?_⟩
  rw [log]
  exact fun _ _ known => known

theorem create (sized : HostSized s dma spec) (live : spec.live () = true) {current : T}
    {env : PageEnv} {pageSize pagesPerEntry numEntries vaddr prpAddr : BitVec 64}
    {result : Except Int Nat} {s' : HostBuffers T} {dma' : DmaLog}
    (taken : s.createHostIoBuf dma current env pageSize pagesPerEntry numEntries vaddr prpAddr =
      some (result, s', dma')) :
    ∃ spec', HostSized s' dma' spec' ∧ spec'.live () = true ∧ dma.Keeps dma' := by
  rw [HostBuffers.createHostIoBuf] at taken
  split at taken
  · simp only [Option.some.injEq, Prod.mk.injEq] at taken
    obtain ⟨_, rfl, rfl⟩ := taken
    exact ⟨spec, ⟨sized.obtained, sized.agree, sized.represents, sized.blocks, sized.sized,
      sized.freed⟩, live, fun _ _ known => known⟩
  · next m pages mapped =>
    split at taken
    · cases taken
    · obtain ⟨list, linked, after⟩ := Option.map_eq_some_iff.mp taken
      simp only [Prod.mk.injEq] at after
      obtain ⟨_, rfl, rfl⟩ := after
      have away : spec.place s.blocks = none := by
        cases place : spec.place s.blocks with
        | none => rfl
        | some l =>
            exact absurd (sized.blocks _ ((sized.represents.placed _ l).mp place)) (lt_irrefl _)
      obtain ⟨list', ran, represents, _⟩ := sized.represents.insert live away
      obtain rfl : list' = list := Option.some.inj (ran.symm.trans linked)
      have extended := dma.extends_alloc (numEntries * 4096#64).toNat prpAddr
      have spec' : (spec.apply (.insert () s.blocks)).seq () = spec.seq () ++ [s.blocks] := by
        simp [ListSpec.apply]
      have grown := sized.extend extended
      refine ⟨_, ⟨grown.obtained, grown.agree.trans ?_, represents, ?_, ?_, ?_⟩,
        ListSystem.live_kept live, extended.kept⟩
      · apply forall₂_congr
        intro io member
        simp only [Function.update_of_ne (Nat.ne_of_lt (sized.freed io member))]
      · intro io member
        rw [spec'] at member
        rcases List.mem_append.mp member with old | new
        · exact Nat.lt_succ_of_lt (sized.blocks io old)
        · exact List.mem_singleton.mp new ▸ Nat.lt_succ_self _
      · intro io member
        rw [spec'] at member
        rcases List.mem_append.mp member with old | new
        · simp only [Function.update_of_ne (Nat.ne_of_lt (sized.blocks io old))]
          exact grown.sized io old
        · rw [List.mem_singleton.mp new]
          simp only [Function.update_self]
          exact DmaLog.sizeOf_next ..
      · exact fun io member => Nat.lt_succ_of_lt (sized.freed io member)

end HostSized

namespace DriverState

structure SizesInv (s : DriverState T) (spec : ListSpec Unit Nat) : Prop where
  host : HostSized s.host s.io.dma spec
  rings : s.stage = .up → QueueSized s.io.dma s.admin.cq ∧ QueueSized s.io.dma s.admin.sq
  pairs : s.stage = .up → PairsSized s.io
  empty : s.stage = .down → spec.seq () = []
  live : s.stage ≠ .down → spec.live () = true

theorem SizesInv.start [DecidableEq T] {s : DriverState T} (initial : (machine T).init s) :
    SizesInv s ⟨fun _ => false, fun _ => [], fun _ => none, fun _ => false⟩ := by
  obtain ⟨down, dma, kfreed⟩ := initial
  constructor
  · constructor
    · rw [dma]
      intro f member
      cases member
    · rw [dma, kfreed]
      exact iff_of_true (fun f member => nomatch member) (fun io member => nomatch member)
    · constructor <;> simp
    · intro io member
      cases member
    · intro io member
      cases member
    · rw [kfreed]
      intro io member
      cases member
  · intro up
    rw [down] at up
    cases up
  · intro up
    rw [down] at up
    cases up
  · exact fun _ => rfl
  · exact fun other => absurd down other

namespace SizesInv

variable {s : DriverState T} {spec : ListSpec Unit Nat}

theorem pair_call (inv : SizesInv s spec) {io : IoState} (sized : PairsSized io)
    (extended : s.io.dma.Extends io.dma) : SizesInv { s with io := io } spec where
  host := inv.host.extend extended
  rings up := ⟨(inv.rings up).1.kept extended.kept, (inv.rings up).2.kept extended.kept⟩
  pairs _ := sized
  empty := inv.empty
  live := inv.live

theorem host_call (inv : SizesInv s spec) {host : HostBuffers T} {dma : DmaLog}
    {spec' : ListSpec Unit Nat} (running : s.stage ≠ .down) (sized : HostSized host dma spec')
    (live : spec'.live () = true) (keeps : s.io.dma.Keeps dma) :
    SizesInv { s with host := host, io := { s.io with dma := dma } } spec' where
  host := sized
  rings up := ⟨(inv.rings up).1.kept keeps, (inv.rings up).2.kept keeps⟩
  pairs up := (inv.pairs up).other_dma keeps
  empty down := absurd down running
  live _ := live

theorem adminInit (inv : SizesInv s spec) (down : s.stage = .down) (input : InitInput) :
    ∃ spec', SizesInv (s.adminInit input) spec' := by
  have ringsExtend : s.io.dma.Extends (s.initRings input).io.dma :=
    (DmaLog.extends_alloc ..).trans (DmaLog.extends_alloc ..)
  have cqSized : QueueSized (s.initRings input).io.dma (s.initRings input).admin.cq :=
    (DmaLog.extends_alloc ..).kept _ _ (DmaLog.sizeOf_next ..)
  have sqSized : QueueSized (s.initRings input).io.dma (s.initRings input).admin.sq :=
    DmaLog.sizeOf_next ..
  have blank : PairsSized (s.initTables input).io := by
    refine ⟨?_, ?_, ?_⟩
    · intro i marked
      cases marked
    · intro i pair listed
      cases listed
    · intro i pair marked
      cases marked
  obtain ⟨pairs, pairExtends⟩ := blank.create input.cqAddr input.sqAddr input.cqStatus
    input.sqStatus
  have hosts := inv.host.extend (ringsExtend.trans pairExtends)
  have represents := hosts.represents.init (inv.empty down)
  refine ⟨spec.apply (.init ()), ?_⟩
  constructor
  · exact ⟨hosts.obtained, hosts.agree, represents, hosts.blocks, hosts.sized, hosts.freed⟩
  · exact fun _ => ⟨cqSized.kept pairExtends.kept, sqSized.kept pairExtends.kept⟩
  · exact fun _ => pairs
  · exact fun up => nomatch up
  · intro _
    simp [ListSpec.apply]

theorem adminClean (inv : SizesInv s spec) (up : s.stage = .up) {statuses : Nat → Nat × Nat}
    {s' : DriverState T} (taken : s.adminClean statuses = some s') : SizesInv s' spec := by
  obtain ⟨io, deleted, rfl⟩ := Option.map_eq_some_iff.mp taken
  obtain ⟨cqSized, sqSized⟩ := inv.rings up
  obtain ⟨_, pairsExtend⟩ := (inv.pairs up).deletePairs statuses _ deleted
  have cqNow := cqSized.kept pairsExtend.kept
  have sqNow := sqSized.kept pairsExtend.kept
  rw [QueueSized, Nat.mul_comm] at cqNow sqNow
  have sqFreed := DmaLog.extends_free sqNow s.admin.sqDmaAddr
  have cqFreed := DmaLog.extends_free (sqFreed.kept _ _ cqNow) s.admin.cqDmaAddr
  constructor
  · exact inv.host.extend ((pairsExtend.trans sqFreed).trans cqFreed)
  · exact fun again => nomatch again
  · exact fun again => nomatch again
  · exact fun down => nomatch down
  · intro _
    apply inv.live
    rw [up]
    exact fun down => nomatch down

theorem step [DecidableEq T] (inv : SizesInv s spec) {e : DriverEvent T} {s' : DriverState T}
    (taken : s.step e = some s') : ∃ spec', SizesInv s' spec' := by
  have running : s.stage = .up ∨ s.stage = .clearing → s.stage ≠ .down := by
    rintro (up | clearing) down
    · exact nomatch up.symm.trans down
    · exact nomatch clearing.symm.trans down
  have takes := step_takes taken
  cases e with
  | adminInit input =>
      obtain ⟨down, rfl⟩ := takes
      exact inv.adminInit down input
  | createPair cqAddr sqAddr cqStatus sqStatus =>
      obtain ⟨up, rfl⟩ := takes
      obtain ⟨sized, extended⟩ := (inv.pairs up).create cqAddr sqAddr cqStatus sqStatus
      exact ⟨spec, inv.pair_call sized extended⟩
  | deletePair i sqStatus cqStatus =>
      obtain ⟨up, _, io, deleted, rfl⟩ := takes
      obtain ⟨sized, extended⟩ := (inv.pairs up).delete deleted
      exact ⟨spec, inv.pair_call sized extended⟩
  | createHostIoBuf current env pageSize pagesPerEntry numEntries vaddr prpAddr =>
      obtain ⟨up, result, host, dma, created, rfl⟩ := takes
      have notDown := running (.inl up)
      obtain ⟨spec', sized, live, keeps⟩ := inv.host.create (inv.live notDown) created
      exact ⟨spec', inv.host_call notDown sized live keeps⟩
  | deleteHostIoBuf current vaddr =>
      obtain ⟨up, host, dma, deleted, rfl⟩ := takes
      have notDown := running (.inl up)
      obtain ⟨spec', sized, live, keeps⟩ := inv.host.delete (inv.live notDown) deleted
      exact ⟨spec', inv.host_call notDown sized live keeps⟩
  | adminClean statuses => exact ⟨spec, inv.adminClean takes.1 takes.2⟩
  | clearHostIoRound =>
      obtain ⟨clearing, host, dma, round, rfl⟩ := takes
      have notDown := running (.inr clearing)
      obtain ⟨sized, keeps⟩ := inv.host.clearRound (inv.live notDown) round
      exact ⟨spec, inv.host_call notDown sized (inv.live notDown) keeps⟩
  | cleared =>
      obtain ⟨clearing, ended, rfl⟩ := takes
      have empty := inv.host.next_none (inv.live (running (.inr clearing))) ended
      exact ⟨spec, ⟨inv.host, (nomatch ·), (nomatch ·), fun _ => empty,
        fun other => absurd rfl other⟩⟩

theorem of_reachable [DecidableEq T] (reached : Reachable (machine T) anyEvent s) :
    ∃ spec, SizesInv s spec :=
  reached.invariant (P := fun s => ∃ spec, SizesInv s spec)
    (fun _ initial => ⟨_, SizesInv.start initial⟩)
    (fun _ _ _ holds _ taken => holds.elim fun _ inv => inv.step taken)

end SizesInv

/-- In every run the DMA areas are given back with the sizes they were obtained with, if and
only if every host buffer given back had entries of one page. -/
theorem sizes_match [DecidableEq T] (s : DriverState T)
    (reached : Reachable (machine T) anyEvent s) :
    s.io.dma.SizesMatch ↔ ∀ io ∈ s.host.kfreed, (s.host.iobuf io).Paged := by
  obtain ⟨spec, inv⟩ := SizesInv.of_reachable reached
  exact inv.host.agree

def blank : DriverState Unit :=
  let queue : IoQueue := ⟨0, 0, 0, 0, 0, 0, 0⟩
  let map : UserMap Unit := ⟨(), 0, 0, false, 0, none, fun _ => 0⟩
  { admin := ⟨queue, queue, 0, 0⟩
    io := ⟨adminInitTables 0 0 0 0 Cpl.zero (fun _ => 0) fun _ => 0, fun _ => ⟨queue, queue⟩, 0,
      [], ⟨[], []⟩, .empty⟩
    host := ⟨⟨⟨fun _ => none, fun _ => none⟩, fun _ => none⟩, fun _ => ⟨map, 0, 0, 0, 0, 0, 0⟩, 0,
      [], fun _ _ => 0, ⟨[], [], [], []⟩⟩
    stage := .down }

def smallInit : InitInput :=
  ⟨1#32, 0#32, 0x80000000#64, Cpl.zero, 0x1000#64, 0x2000#64, 0x3000#64, 0x4000#64, 0, 0,
    fun _ => 0, fun _ => 0⟩

def allMapped (pages : Nat) : PageEnv :=
  ⟨true, true, pages, id, fun k => BitVec.ofNat 64 (4096 * (k + 16)), fun _ => 0, fun _ => 0⟩

theorem sizes_match_whole_life :
    ∃ s : DriverState Unit, s.io.dma.frees.length = 5 ∧ s.host.kfreed = [0] ∧
      s.io.dma.SizesMatch := by
  have begins : Reachable (machine Unit) anyEvent blank := .start ⟨rfl, rfl, rfl⟩
  have ended : ((machine Unit).run blank
      [.adminInit smallInit,
        .createHostIoBuf () (allMapped 2) 4096#64 1#64 2#64 0x10000#64 0x5000#64,
        .deleteHostIoBuf () 0x10008#64, .adminClean fun _ => (0, 0), .cleared]).map (fun s =>
          (s.io.dma.frees.length, s.host.kfreed, (s.host.iobuf 0).pageSize,
            (s.host.iobuf 0).pagesPerEntry, (s.host.iobuf 0).numEntries)) =
      some (5, [0], 4096#64, 1#64, 2#64) := by
    decide +kernel
  obtain ⟨s, _, reached, facts⟩ := begins.computed ended
  simp only [Prod.mk.injEq] at facts
  obtain ⟨frees, kfreed, pageSize, pagesPerEntry, numEntries⟩ := facts
  refine ⟨s, frees, kfreed, (sizes_match s reached).mpr ?_⟩
  rw [kfreed]
  intro io member
  rw [List.mem_singleton.mp member, Iobuf.Paged, pageSize, pagesPerEntry, numEntries]
  rfl

/-- A buffer of one entry of two pages: its PRP area of 4096 bytes is given back as 8192. -/
theorem prp_area_freed_too_large :
    ¬ ∀ (T : Type) [DecidableEq T] (s : DriverState T), Reachable (machine T) anyEvent s →
      s.io.dma.SizesMatch := by
  intro sizes_always_match
  have begins : Reachable (machine Unit) anyEvent blank := .start ⟨rfl, rfl, rfl⟩
  have ended : ((machine Unit).run blank
      [.adminInit smallInit,
        .createHostIoBuf () (allMapped 2) 4096#64 2#64 1#64 0x10000#64 0x5000#64,
        .deleteHostIoBuf () 0x10000#64]).map (fun s =>
          (s.io.dma.frees, s.io.dma.sizeOf 4)) = some ([⟨8192, 4, 0x5000#64⟩], some 4096) := by
    decide +kernel
  obtain ⟨s, _, reached, facts⟩ := begins.computed ended
  simp only [Prod.mk.injEq] at facts
  obtain ⟨frees, obtained⟩ := facts
  have all := sizes_always_match Unit s reached
  have released := all ⟨8192, 4, 0x5000#64⟩ (by rw [frees]; exact List.mem_singleton_self _)
  exact absurd (obtained.symm.trans released) (by simp)

end DriverState

end BafsNvme
