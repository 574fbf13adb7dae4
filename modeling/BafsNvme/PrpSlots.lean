import BafsNvme.PrpLists

/-! Where the nested loops of `create_host_io_buf` store: the list of their stores, and when each
one has a word of its own. -/

namespace BafsNvme

/-- One store of the loops: the word of the PRP area, and the index into `addrs` it reads. -/
structure PrpStore where
  slot : Nat
  source : Nat

/-- The store for the `j`-th address of entry `i`, with the 64-bit index. -/
def prpStore (pagesPerEntry i j : Nat) : PrpStore :=
  ⟨i * (4096 / 8) + prpSlot j, (i * pagesPerEntry + j) % 2 ^ 64⟩

def prpStores (pagesPerEntry numEntries : Nat) : List PrpStore :=
  (List.range numEntries).flatMap fun i =>
    (0 :: List.range' 1 (pagesPerEntry - 1)).map (prpStore pagesPerEntry i)

section Stores

variable {addrs : Nat → BitVec 64} {pagesPerEntry numEntries : Nat} {words : Nat → BitVec 64}

theorem prpEntry_stores (i : Nat) : prpEntry addrs pagesPerEntry words i =
    ((0 :: List.range' 1 (pagesPerEntry - 1)).map (prpStore pagesPerEntry i)).foldl
      (fun words st => Function.update words st.slot (addrs st.source)) words := by
  rw [List.foldl_map, List.foldl_cons, prpEntry]
  apply List.foldl_ext
  intro words j member
  have later : j ≠ 0 := Nat.ne_of_gt (List.mem_range'_1.mp member).1
  simp only [prpStore, prpSlot, if_neg later]

theorem prpLists_stores : prpLists addrs pagesPerEntry numEntries words =
    (prpStores pagesPerEntry numEntries).foldl
      (fun words st => Function.update words st.slot (addrs st.source)) words := by
  rw [prpLists, prpStores, List.foldl_flatMap]
  apply List.foldl_ext
  intro words i _
  exact prpEntry_stores i

theorem mem_prpStores {st : PrpStore} (some_page : 1 ≤ pagesPerEntry) :
    st ∈ prpStores pagesPerEntry numEntries ↔
      ∃ i j, i < numEntries ∧ j < pagesPerEntry ∧ st = prpStore pagesPerEntry i j := by
  simp only [prpStores, List.mem_flatMap, List.mem_range, List.mem_map, List.mem_cons,
    List.mem_range'_1]
  constructor
  · rintro ⟨i, entry, j, inside, rfl⟩
    exact ⟨i, j, entry, by omega, rfl⟩
  · rintro ⟨i, j, entry, page, rfl⟩
    exact ⟨i, entry, j, by omega, rfl⟩

theorem prpSlot_inj {i j i' j' : Nat} (page : j < 4096 / 8) (page' : j' < 4096 / 8)
    (same : i * (4096 / 8) + prpSlot j = i' * (4096 / 8) + prpSlot j') : i = i' ∧ j = j' := by
  unfold prpSlot at same
  split at same <;> split at same <;> omega

theorem prpStores_apart (few : pagesPerEntry ≤ 4096 / 8) :
    (prpStores pagesPerEntry numEntries).Pairwise fun st st' => st.slot ≠ st'.slot := by
  have page {j : Nat} (member : j ∈ 0 :: List.range' 1 (pagesPerEntry - 1)) : j < 4096 / 8 := by
    rw [List.mem_cons, List.mem_range'_1] at member
    omega
  have order : (0 :: List.range' 1 (pagesPerEntry - 1)).Pairwise (· < ·) := by
    refine List.pairwise_cons.mpr ⟨?_, List.pairwise_lt_range'⟩
    intro j member
    exact (List.mem_range'_1.mp member).1
  rw [prpStores, List.pairwise_flatMap]
  constructor
  · intro i _
    rw [List.pairwise_map]
    apply List.Pairwise.imp_of_mem _ order
    intro j j' member member' less same
    exact Nat.ne_of_lt less (prpSlot_inj (page member) (page member') same).2
  · apply List.Pairwise.imp _ List.pairwise_lt_range
    intro i i' less st member st' member' same
    obtain ⟨j, inside, rfl⟩ := List.mem_map.mp member
    obtain ⟨j', inside', rfl⟩ := List.mem_map.mp member'
    exact Nat.ne_of_lt less (prpSlot_inj (page inside) (page inside') same).1

theorem prpStores_inside (few : pagesPerEntry ≤ 4096 / 8) (some_page : 1 ≤ pagesPerEntry)
    {st : PrpStore} (member : st ∈ prpStores pagesPerEntry numEntries) :
    st.slot < numEntries * (4096 / 8) := by
  obtain ⟨i, j, entry, page, rfl⟩ := (mem_prpStores some_page).mp member
  have rows := Nat.mul_le_mul_right (4096 / 8) entry
  rw [Nat.succ_mul] at rows
  simp only [prpStore, prpSlot]
  split <;> omega

/-- With one page more the last address of an entry goes to the word of the first. -/
theorem prpStores_meet (entries : 1 ≤ numEntries) (many : 4096 / 8 < pagesPerEntry) :
    ¬ (prpStores pagesPerEntry numEntries).Pairwise fun st st' => st.slot ≠ st'.slot := by
  obtain ⟨n, rfl⟩ : ∃ n, numEntries = n + 1 := ⟨numEntries - 1, by omega⟩
  intro apart
  rw [prpStores, List.pairwise_flatMap] at apart
  have first := apart.1 0 (List.mem_range.mpr (Nat.succ_pos n))
  rw [List.map_cons, List.pairwise_cons] at first
  have last : 4096 / 8 ∈ List.range' 1 (pagesPerEntry - 1) := List.mem_range'_1.mpr (by omega)
  exact first.1 _ (List.mem_map_of_mem last) rfl

end Stores

namespace HostBuffers

variable {T : Type}

theorem createHostIoBuf_stored {s s' : HostBuffers T} {dma dma' : DmaLog} {current : T} {env : PageEnv}
    {pageSize pagesPerEntry numEntries vaddr prpAddr : BitVec 64} {io : Nat}
    (created : s.createHostIoBuf dma current env pageSize pagesPerEntry numEntries vaddr prpAddr =
      some (.ok io, s', dma')) :
    ∃ m, mapUserspace env current vaddr (pageCount pageSize pagesPerEntry numEntries) s.pages =
        (.ok m, s'.pages) ∧
      numEntries.toNat < 2 ^ 32 ∧ pagesPerEntry.toNat < 2 ^ 32 ∧
      s'.iobuf io = ⟨m, m.vaddr, pageSize, pagesPerEntry, numEntries, dma.next, prpAddr⟩ ∧
      s'.prp dma.next =
        prpLists m.addrs pagesPerEntry.toNat numEntries.toNat (s.prp dma.next) ∧
      dma' = dma.alloc (numEntries * 4096#64).toNat prpAddr := by
  rw [createHostIoBuf] at created
  split at created
  · simp at created
  · next m pages mapped =>
    split at created
    · cases created
    · next counted =>
      obtain ⟨list, _, after⟩ := Option.map_eq_some_iff.mp created
      simp only [Prod.mk.injEq, Except.ok.injEq] at after
      obtain ⟨rfl, rfl, rfl⟩ := after
      exact ⟨m, mapped, by omega, by omega, Function.update_self .., Function.update_self .., rfl⟩

end HostBuffers

def Iobuf.stores {T : Type} (io : Iobuf T) : List PrpStore :=
  prpStores io.pagesPerEntry.toNat io.numEntries.toNat

namespace HostBuffers

variable {T : Type}

structure SlotsKept (s : HostBuffers T) (dma : DmaLog) (io : Nat) : Prop where
  apart : (s.iobuf io).stores.Pairwise fun st st' => st.slot ≠ st'.slot
  inside : ∃ area, dma.allocs[(s.iobuf io).prpListPhys]? = some area ∧
    ∀ st ∈ (s.iobuf io).stores, 8 * (st.slot + 1) ≤ area.size
  kept : ∀ st ∈ (s.iobuf io).stores,
    s.prp (s.iobuf io).prpListPhys st.slot = (s.iobuf io).map.addrs st.source

/-- The stores for a buffer that a create call returned are apart, inside its PRP area and kept if
and only if no entry has more pages than a list page has words. -/
theorem slots_kept_iff (s s' : HostBuffers T) (dma dma' : DmaLog) (current : T) (env : PageEnv)
    (pageSize pagesPerEntry numEntries vaddr prpAddr : BitVec 64) (io : Nat)
    (pages : 1 ≤ pagesPerEntry.toNat) (entries : 1 ≤ numEntries.toNat)
    (created : s.createHostIoBuf dma current env pageSize pagesPerEntry numEntries vaddr prpAddr =
      some (.ok io, s', dma')) :
    s'.SlotsKept dma' io ↔ pagesPerEntry.toNat ≤ 4096 / 8 := by
  obtain ⟨m, _, counted, _, buffer, stored, rfl⟩ := createHostIoBuf_stored created
  have stores : (s'.iobuf io).stores = prpStores pagesPerEntry.toNat numEntries.toNat := by
    rw [buffer, Iobuf.stores]
  have area : (s'.iobuf io).prpListPhys = dma.next := by rw [buffer]
  constructor
  · intro kept
    by_contra many
    apply prpStores_meet entries (Nat.lt_of_not_le many)
    exact stores ▸ kept.apart
  · intro few
    have apart : (prpStores pagesPerEntry.toNat numEntries.toNat).Pairwise
        fun st st' => st.slot ≠ st'.slot := prpStores_apart few
    constructor
    · exact stores ▸ apart
    · refine ⟨⟨(numEntries * 4096#64).toNat, prpAddr⟩, ?_, ?_⟩
      · rw [area]
        exact List.getElem?_concat_length
      · intro st member
        rw [stores] at member
        have inside := prpStores_inside few pages member
        have size : (numEntries * 4096#64).toNat = numEntries.toNat * 4096 := by
          rw [BitVec.toNat_mul]
          exact Nat.mod_eq_of_lt (by simp only [BitVec.toNat_ofNat]; omega)
        simp only [size]
        omega
    · intro st member
      rw [stores] at member
      rw [area, stored, prpLists_stores, buffer]
      exact storeLoop_at apart member _

theorem slots_kept_two_entries : let s := DriverState.blank.adminInit DriverState.smallInit
    ∃ s' dma', s.host.createHostIoBuf s.io.dma () (DriverState.allMapped 1024) 4096#64 512#64 2#64
        0x10000#64 0x5000#64 = some (.ok 0, s', dma') ∧ s'.SlotsKept dma' 0 := by
  intro s
  have list : BlockList s.host.list s.host.blocks [] := .listInit ..
  have all : (DriverState.allMapped 1024).AllMapped 1024 := ⟨rfl, rfl, rfl, fun _ _ => rfl⟩
  have mapped : mapUserspace (DriverState.allMapped 1024) () 0x10000#64
      (pageCount 4096#64 512#64 2#64) s.host.pages = _ :=
    mapUserspace_mapped all (by norm_num) () 0x10000#64 s.host.pages
  obtain ⟨s', created, _⟩ := createHostIoBuf_ok list mapped (by decide) s.io.dma 0x5000#64
  exact ⟨s', _, created, (slots_kept_iff s.host s' s.io.dma _ () _ _ _ _ _ _ _ (by decide) (by decide)
    created).mpr (by decide)⟩

/-- One entry of 513 pages: the last address goes to the word of the first. -/
theorem first_address_overwritten :
    ¬ ∀ (T : Type) (s s' : HostBuffers T) (seq : List Nat), BlockList s.list s.blocks seq →
      ∀ (dma dma' : DmaLog) (current : T) (env : PageEnv)
        (pagesPerEntry numEntries vaddr prpAddr : BitVec 64) (io : Nat),
      1 ≤ pagesPerEntry.toNat → 1 ≤ numEntries.toNat →
      env.AllMapped (pageCount 4096#64 pagesPerEntry numEntries) →
      s.createHostIoBuf dma current env 4096#64 pagesPerEntry numEntries vaddr prpAddr =
        some (.ok io, s', dma') →
      s'.SlotsKept dma' io := by
  intro slots_always_kept
  let s := DriverState.blank.adminInit DriverState.smallInit
  have list : BlockList s.host.list s.host.blocks [] := .listInit ..
  have all : (DriverState.allMapped 513).AllMapped 513 := ⟨rfl, rfl, rfl, fun _ _ => rfl⟩
  have mapped : mapUserspace (DriverState.allMapped 513) () 0x10000#64
      (pageCount 4096#64 513#64 1#64) s.host.pages = _ :=
    mapUserspace_mapped all (by norm_num) () 0x10000#64 s.host.pages
  obtain ⟨s', created, _⟩ := createHostIoBuf_ok list mapped (by decide) s.io.dma 0x5000#64
  have kept := slots_always_kept Unit s.host s' [] list s.io.dma _ () _ 513#64 1#64 _ _ _
    (by decide) (by decide)
    all created
  obtain ⟨m, _, _, _, buffer, _⟩ := createHostIoBuf_stored created
  have apart := kept.apart
  rw [buffer] at apart
  have fewer : 4096 / 8 < (513#64).toNat := by decide
  exact prpStores_meet le_rfl fewer apart

end HostBuffers

end BafsNvme
