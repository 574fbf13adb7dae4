import BafsNvme.DmaSizes

/-! Which buffer `iobuf_find` finds for an address, and what `delete_host_io_buf` takes out of the
list then. -/

namespace BafsNvme

open Machine

theorem iobufMatches_iff {T : Type} [DecidableEq T] {current : T} {vaddr : BitVec 64}
    {m : IobufFields T} : ListHeap.iobufMatches current vaddr m = true ↔
      m = ⟨current, vaddr &&& PAGE_MASK⟩ ∨ m = ⟨current, vaddr &&& GPU_PAGE_MASK⟩ := by
  obtain ⟨owner, virtAddr⟩ := m
  simp only [ListHeap.iobufMatches, Bool.and_eq_true, Bool.or_eq_true, beq_iff_eq,
    IobufFields.mk.injEq]
  exact and_or_left

namespace HostBuffers

variable {T : Type}

def KeysDistinct (s : HostBuffers T) (seq : List Nat) : Prop :=
  ∀ io ∈ seq, ∀ other ∈ seq, (s.iobuf io).fields = (s.iobuf other).fields → io = other

structure OnlyReleased (s : HostBuffers T) (dma : DmaLog) (io : Nat) (rest : List Nat)
    (s' : HostBuffers T) (dma' : DmaLog) : Prop where
  list : BlockList s'.list s'.blocks rest
  buffers : s'.iobuf = s.iobuf
  kfreed : s'.kfreed = s.kfreed ++ [io]
  map : s'.pages = unmapAndReleaseMap (s.iobuf io).map s.pages
  prp : dma' = dma.free (s.iobuf io).prpFreeSize.toNat (s.iobuf io).prpListPhys
    (s.iobuf io).prpListDmaAddr

theorem keysDistinct_pair {s : HostBuffers T} {a b : Nat}
    (different : (s.iobuf a).fields ≠ (s.iobuf b).fields) : s.KeysDistinct [a, b] := by
  intro io member other member' same
  simp only [List.mem_cons, List.not_mem_nil, or_false] at member member'
  rcases member with rfl | rfl <;> rcases member' with rfl | rfl
  · rfl
  · exact absurd same different
  · exact absurd same.symm different
  · rfl

variable [DecidableEq T] {s : HostBuffers T} {front rest : List Nat} {b : Nat}

theorem findIobuf_iff (list : BlockList s.list s.blocks (front ++ b :: rest))
    (keys : s.KeysDistinct (front ++ b :: rest)) {current : T} {vaddr : BitVec 64}
    (key : (s.iobuf b).fields = ⟨current, vaddr &&& PAGE_MASK⟩) :
    s.findIobuf current vaddr = some (some b) ↔
      ∀ io ∈ front, (s.iobuf io).fields ≠ ⟨current, vaddr &&& GPU_PAGE_MASK⟩ := by
  have away : b ∉ front := fun member =>
    List.disjoint_of_nodup_append list.nodup member List.mem_cons_self
  rw [findIobuf_eq list, Option.some.injEq, List.find?_append]
  constructor
  · intro found io member same
    have hit : ListHeap.iobufMatches current vaddr (s.iobuf io).fields = true :=
      iobufMatches_iff.mpr (.inr same)
    cases earlier : front.find? fun io =>
        ListHeap.iobufMatches current vaddr (s.iobuf io).fields with
    | none => exact List.find?_eq_none.mp earlier io member hit
    | some first =>
        rw [earlier, Option.some_or, Option.some.injEq] at found
        exact away (found ▸ List.mem_of_find?_eq_some earlier)
  · intro clear
    have earlier : front.find? (fun io =>
        ListHeap.iobufMatches current vaddr (s.iobuf io).fields) = none := by
      rw [List.find?_eq_none]
      intro io member hit
      rcases iobufMatches_iff.mp hit with page | block
      · have same := keys io (List.mem_append_left _ member) b
          (List.mem_append_right _ List.mem_cons_self) (page.trans key.symm)
        exact away (same ▸ member)
      · exact clear io member block
    have hit : ListHeap.iobufMatches current vaddr (s.iobuf b).fields = true :=
      iobufMatches_iff.mpr (.inl key)
    rw [earlier, Option.none_or, List.find?_cons, hit]

theorem deleteHostIoBuf_found (list : BlockList s.list s.blocks (front ++ b :: rest))
    {current : T} {vaddr : BitVec 64} (found : s.findIobuf current vaddr = some (some b))
    (dma : DmaLog) :
    ∃ s' dma', s.deleteHostIoBuf dma current vaddr = some (s', dma') ∧
      s.OnlyReleased dma b (front ++ rest) s' dma' := by
  have away : b ∉ front := fun member =>
    List.disjoint_of_nodup_append list.nodup member List.mem_cons_self
  obtain ⟨list', removed, remaining⟩ :=
    list.listRemove (List.mem_append_right front List.mem_cons_self)
  rw [List.erase_append_right _ away, List.erase_cons_head] at remaining
  have released : s.deleteHostIoBuf dma current vaddr =
      some ({ s with list := list' }.releaseIobuf dma b) := by
    rw [deleteHostIoBuf, found, Option.bind_some, Option.bind_some, removed, Option.map_some]
  exact ⟨_, _, released, remaining, rfl, rfl, rfl, rfl⟩

/-- For an address in the first page of `b`, a buffer of the current task, the search finds `b` and
the deletion gives back `b` and nothing else, if and only if no buffer in front of `b` is one of
this task's that starts at the address's 64 KB block. -/
theorem lookup_exact_iff (s : HostBuffers T) (dma : DmaLog) (front rest : List Nat) (b : Nat)
    (list : BlockList s.list s.blocks (front ++ b :: rest))
    (keys : s.KeysDistinct (front ++ b :: rest)) (current : T) (vaddr : BitVec 64)
    (owned : (s.iobuf b).map.owner = current)
    (firstPage : (s.iobuf b).virtAddr = vaddr &&& PAGE_MASK) :
    (s.findIobuf current vaddr = some (some b) ∧
        ∃ s' dma', s.deleteHostIoBuf dma current vaddr = some (s', dma') ∧
          s.OnlyReleased dma b (front ++ rest) s' dma') ↔
      ∀ io ∈ front, ¬ ((s.iobuf io).map.owner = current ∧
        (s.iobuf io).virtAddr = vaddr &&& GPU_PAGE_MASK) := by
  have key : (s.iobuf b).fields = ⟨current, vaddr &&& PAGE_MASK⟩ := by
    rw [Iobuf.fields, owned, firstPage]
  have found := findIobuf_iff list keys key
  simp only [Iobuf.fields, ne_eq, IobufFields.mk.injEq] at found
  constructor
  · intro exact_lookup
    exact found.mp exact_lookup.1
  · intro clear
    exact ⟨found.mpr clear, deleteHostIoBuf_found list (found.mpr clear) dma⟩

end HostBuffers

namespace DriverState

variable {T : Type} [DecidableEq T] {s : DriverState T}

theorem hostList (reached : Reachable (machine T) anyEvent s) (running : s.stage ≠ .down) :
    ∃ seq, BlockList s.host.list s.host.blocks seq := by
  obtain ⟨spec, inv⟩ := SizesInv.of_reachable reached
  exact ⟨spec.seq (), inv.host.blockList (inv.live running)⟩

def twoBuffers (first second : BitVec 64) : List (DriverEvent Unit) :=
  [.adminInit smallInit,
    .createHostIoBuf () (allMapped 1) 4096#64 1#64 1#64 first 0x5000#64,
    .createHostIoBuf () (allMapped 1) 4096#64 1#64 1#64 second 0x6000#64]

theorem lookup_exact_two_blocks :
    ∃ s : DriverState Unit, (machine Unit).run blank (twoBuffers 0x10000#64 0x21000#64) = some s ∧
      s.host.findIobuf () 0x21008#64 = some (some 1) ∧
      ∃ s' dma', s.host.deleteHostIoBuf s.io.dma () 0x21008#64 = some (s', dma') ∧
        s.host.OnlyReleased s.io.dma 1 [0] s' dma' := by
  have begins : Reachable (machine Unit) anyEvent blank := .start ⟨rfl, rfl, rfl⟩
  have ended : ((machine Unit).run blank (twoBuffers 0x10000#64 0x21000#64)).map (fun s =>
      (s.stage, s.host.list.walk s.host.blocks (s.host.list.listNext (.head ())),
        (s.host.iobuf 0).virtAddr, (s.host.iobuf 1).virtAddr)) =
      some (.up, [0, 1], 0x10000#64, 0x21000#64) := by
    decide +kernel
  obtain ⟨s, ran, reached, facts⟩ := begins.computed ended
  simp only [Prod.mk.injEq] at facts
  obtain ⟨up, walked, first, second⟩ := facts
  obtain ⟨seq, list⟩ := hostList reached (by rw [up]; decide)
  obtain rfl : seq = [0, 1] := list.walk.symm.trans walked
  have keys : s.host.KeysDistinct [0, 1] := by
    apply HostBuffers.keysDistinct_pair
    intro same
    have address := congrArg IobufFields.virtAddr same
    exact absurd (first.symm.trans (address.trans second)) (by decide)
  refine ⟨s, ran, (HostBuffers.lookup_exact_iff s.host s.io.dma [0] [] 1 list keys () 0x21008#64
    rfl (second.trans (by decide))).mpr ?_⟩
  intro io member block
  rw [List.mem_singleton.mp member, first] at block
  exact absurd block.2 (by decide)

/-- Buffers at `0x20000` and then at `0x21000`: `delete_host_io_buf(0x21000)` gives back the one at
`0x20000`, where the block of 64 KB starts. -/
theorem other_buffer_found :
    ¬ ∀ (T : Type) [DecidableEq T] (s : DriverState T), Reachable (machine T) anyEvent s →
      s.stage = .up → ∀ front b rest, BlockList s.host.list s.host.blocks (front ++ b :: rest) →
      s.host.KeysDistinct (front ++ b :: rest) → ∀ current vaddr,
      (s.host.iobuf b).map.owner = current → (s.host.iobuf b).virtAddr = vaddr &&& PAGE_MASK →
      s.host.findIobuf current vaddr = some (some b) ∧
        ∃ s' dma', s.host.deleteHostIoBuf s.io.dma current vaddr = some (s', dma') ∧
          s.host.OnlyReleased s.io.dma b (front ++ rest) s' dma' := by
  intro lookup_always_exact
  have begins : Reachable (machine Unit) anyEvent blank := .start ⟨rfl, rfl, rfl⟩
  have ended : ((machine Unit).run blank (twoBuffers 0x20000#64 0x21000#64)).map (fun s =>
      (s.stage, s.host.list.walk s.host.blocks (s.host.list.listNext (.head ())),
        (s.host.iobuf 0).virtAddr, (s.host.iobuf 1).virtAddr,
        s.host.findIobuf () 0x21000#64)) =
      some (.up, [0, 1], 0x20000#64, 0x21000#64, some (some 0)) := by
    decide +kernel
  obtain ⟨s, _, reached, facts⟩ := begins.computed ended
  simp only [Prod.mk.injEq] at facts
  obtain ⟨up, walked, first, second, found⟩ := facts
  obtain ⟨seq, list⟩ := hostList reached (by rw [up]; decide)
  obtain rfl : seq = [0, 1] := list.walk.symm.trans walked
  have keys : s.host.KeysDistinct [0, 1] := by
    apply HostBuffers.keysDistinct_pair
    intro same
    have address := congrArg IobufFields.virtAddr same
    exact absurd (first.symm.trans (address.trans second)) (by decide)
  obtain ⟨expected, _⟩ := lookup_always_exact Unit s reached up [0] 1 [] list keys () 0x21000#64 rfl
    (second.trans (by decide))
  exact absurd (found.symm.trans expected) (by decide)

end DriverState

end BafsNvme
