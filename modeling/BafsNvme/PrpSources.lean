import BafsNvme.PrpSlots
import Mathlib.Data.List.TakeWhile

/-! Where the addresses in the PRP lists come from: for any sizes and any answer of the kernel,
whether each one read is that of a page which is pinned and mapped. -/

namespace BafsNvme

namespace PageEnv

/-- How many pages, from the first on, can be pinned and mapped. -/
def mappable (env : PageEnv) : Nat :=
  ((List.range env.getUserPages.toNat).takeWhile fun k => env.dmaMappingError k = 0).length

theorem mappable_all {env : PageEnv}
    (mapped : ∀ k, k < env.getUserPages.toNat → env.dmaMappingError k = 0) :
    env.mappable = env.getUserPages.toNat := by
  have all : (List.range env.getUserPages.toNat).takeWhile (fun k => env.dmaMappingError k = 0) =
      List.range env.getUserPages.toNat := by
    rw [List.takeWhile_eq_self_iff]
    intro k member
    exact decide_eq_true (mapped k (List.mem_range.mp member))
  rw [mappable, all, List.length_range]

def MapFails (env : PageEnv) (n : Nat) : Prop :=
  n < 1 ∨ ¬ env.Allocated ∨ env.getUserPages < 0 ∨
    ∃ k, k < env.getUserPages.toNat ∧ env.dmaMappingError k ≠ 0

variable {env : PageEnv} {n : Nat}

theorem mapUserspace_fails {T : Type} (fails : env.MapFails n) (current : T) (vaddr : BitVec 64)
    (log : PageLog) : ∃ err log', mapUserspace env current vaddr n log = (.error err, log') := by
  by_cases some_page : 1 ≤ n
  · rcases env.answers with refused | ⟨allocated, zero⟩ | ⟨count, allocated, pages, positive, ends⟩
    · obtain ⟨err, ended⟩ := mapUserspace_refused some_page current vaddr log refused
      exact ⟨err, log, ended⟩
    · rcases fails with none_asked | unallocated | negative | ⟨k, bound, _⟩
      · omega
      · exact absurd allocated unallocated
      · omega
      · omega
    · rcases ends with mapped | ⟨k, below, mapped, failed⟩
      · rcases fails with none_asked | unallocated | negative | ⟨k, bound, failed⟩
        · omega
        · exact absurd allocated unallocated
        · omega
        · exact absurd (mapped k (by omega)) failed
      · exact ⟨_, _, mapUserspace_failed some_page current vaddr log allocated pages positive below
          mapped failed⟩
  · exact ⟨-EINVAL, log, by rw [mapUserspace, if_pos (Nat.lt_of_not_le some_page)]⟩

theorem mapUserspace_returns (ok : ¬ env.MapFails n) :
    1 ≤ n ∧ env.Allocated ∧
      (env.getUserPages = 0 ∨ ∃ count : Nat, env.getUserPages = count ∧ 0 < count) ∧
      ∀ k, k < env.getUserPages.toNat → env.dmaMappingError k = 0 := by
  simp only [MapFails, not_or, not_not, not_exists, not_and, Nat.not_lt, Int.not_lt] at ok
  obtain ⟨some_page, allocated, nonneg, mapped⟩ := ok
  refine ⟨some_page, allocated, ?_, mapped⟩
  rcases nonneg.lt_or_eq with positive | zero
  · exact .inr ⟨env.getUserPages.toNat, by omega, by omega⟩
  · exact .inl zero.symm

end PageEnv

section Sizes

variable {pageSize pagesPerEntry numEntries : BitVec 64}

/-- The host pages that the bytes of a buffer take, from its rounded-down start `virt_addr` on. -/
def neededPages (pageSize pagesPerEntry numEntries : BitVec 64) : Nat :=
  (pageSize.toNat * pagesPerEntry.toNat * numEntries.toNat + 4095) / 4096

theorem pageCount_wrapped : HostBuffers.pageCount pageSize pagesPerEntry numEntries =
    pageSize.toNat * pagesPerEntry.toNat * numEntries.toNat % 2 ^ 64 / 4096 := by
  rw [HostBuffers.pageCount, BitVec.toNat_udiv, BitVec.toNat_mul, BitVec.toNat_mul, Nat.mod_mul_mod]
  rfl

theorem pageCount_le (pageSize pagesPerEntry numEntries : BitVec 64) :
    HostBuffers.pageCount pageSize pagesPerEntry numEntries ≤
      neededPages pageSize pagesPerEntry numEntries := by
  rw [pageCount_wrapped, neededPages]
  omega

theorem neededPages_eq : neededPages pageSize pagesPerEntry numEntries =
      HostBuffers.pageCount pageSize pagesPerEntry numEntries ↔
    4096 ∣ pageSize.toNat * pagesPerEntry.toNat * numEntries.toNat ∧
      pageSize.toNat * pagesPerEntry.toNat * numEntries.toNat < 2 ^ 64 := by
  rw [pageCount_wrapped, neededPages]
  omega

end Sizes

namespace HostBuffers

variable {T : Type}

structure PrpSourced (s : HostBuffers T) (dma : DmaLog) (current : T) (env : PageEnv)
    (pageSize pagesPerEntry numEntries vaddr prpAddr : BitVec 64) : Prop where
  sourced : ∀ io s' dma',
    s.createHostIoBuf dma current env pageSize pagesPerEntry numEntries vaddr prpAddr =
      some (.ok io, s', dma') →
    ∀ st ∈ (s'.iobuf io).stores, st.source < (s'.iobuf io).map.nAddrs ∧
      s'.pages.pinned[s.pages.pinned.length + st.source]? = some (env.page st.source) ∧
      s'.pages.mapped[s.pages.mapped.length + st.source]? =
        some ((s'.iobuf io).map.addrs st.source)
  refused : env.mappable < neededPages pageSize pagesPerEntry numEntries →
    ∃ err s', s.createHostIoBuf dma current env pageSize pagesPerEntry numEntries vaddr prpAddr =
      some (.error err, s', dma) ∧ s'.list = s.list

/-- The mapping fails, or every page of the buffer, counted from `virt_addr` on, is pinned and no
device page is smaller than a page, unless the counts do not fit the 32-bit counters, which never
come to an end then. -/
def Covered (env : PageEnv) (pageSize pagesPerEntry numEntries : BitVec 64) : Prop :=
  env.MapFails (pageCount pageSize pagesPerEntry numEntries) ∨
    (env.getUserPages = pageCount pageSize pagesPerEntry numEntries ∧
      4096 ∣ pageSize.toNat * pagesPerEntry.toNat * numEntries.toNat ∧
      pageSize.toNat * pagesPerEntry.toNat * numEntries.toNat < 2 ^ 64 ∧
      (4096 ≤ pageSize.toNat ∨ 2 ^ 32 ≤ numEntries.toNat ∨ 2 ^ 32 ≤ pagesPerEntry.toNat))

section Calls

variable {s : HostBuffers T} {dma : DmaLog} {current : T} {env : PageEnv}
  {pageSize pagesPerEntry numEntries vaddr prpAddr : BitVec 64}

theorem createHostIoBuf_fails (fails : env.MapFails (pageCount pageSize pagesPerEntry numEntries)) :
    ∃ err pages,
      s.createHostIoBuf dma current env pageSize pagesPerEntry numEntries vaddr prpAddr =
        some (.error err, { s with pages := pages }, dma) := by
  obtain ⟨err, pages, ended⟩ := PageEnv.mapUserspace_fails fails current vaddr s.pages
  exact ⟨err, pages, by rw [createHostIoBuf, ended]⟩

theorem createHostIoBuf_no_error {m : UserMap T} {pages : PageLog}
    (mapped : mapUserspace env current vaddr (pageCount pageSize pagesPerEntry numEntries) s.pages =
      (.ok m, pages)) (err : Int) (s' : HostBuffers T) (dma' : DmaLog) :
    s.createHostIoBuf dma current env pageSize pagesPerEntry numEntries vaddr prpAddr ≠
      some (.error err, s', dma') := by
  intro refused
  rw [createHostIoBuf, mapped] at refused
  simp only at refused
  split at refused
  · cases refused
  · obtain ⟨list, _, after⟩ := Option.map_eq_some_iff.mp refused
    cases after

theorem devicePages_le_iff
    (fits : pageSize.toNat * pagesPerEntry.toNat * numEntries.toNat < 2 ^ 64)
    (some_page : 1 ≤ pageCount pageSize pagesPerEntry numEntries) :
    numEntries.toNat * pagesPerEntry.toNat ≤ pageCount pageSize pagesPerEntry numEntries ↔
      4096 ≤ pageSize.toNat := by
  have product : pageSize.toNat * pagesPerEntry.toNat * numEntries.toNat =
      pageSize.toNat * (numEntries.toNat * pagesPerEntry.toNat) := by ring
  rw [pageCount_wrapped, Nat.mod_eq_of_lt fits] at some_page ⊢
  rw [Nat.le_div_iff_mul_le (by norm_num), product, Nat.mul_comm _ 4096]
  have positive : 0 < numEntries.toNat * pagesPerEntry.toNat := by
    apply Nat.pos_of_ne_zero
    intro zero
    rw [product, zero, Nat.mul_zero] at some_page
    omega
  exact Nat.mul_le_mul_right_iff positive

theorem sources_below_iff (counts : numEntries.toNat < 2 ^ 32) (pages : pagesPerEntry.toNat < 2 ^ 32)
    (some_page : 1 ≤ pageCount pageSize pagesPerEntry numEntries) (count : Nat) :
    (∀ st ∈ prpStores pagesPerEntry.toNat numEntries.toNat, st.source < count) ↔
      numEntries.toNat * pagesPerEntry.toNat ≤ count := by
  have product : numEntries.toNat * pagesPerEntry.toNat < 2 ^ 64 := by
    calc
      _ ≤ 2 ^ 32 * pagesPerEntry.toNat := Nat.mul_le_mul_right _ counts.le
      _ < 2 ^ 32 * 2 ^ 32 := Nat.mul_lt_mul_of_pos_left pages (by norm_num)
      _ = 2 ^ 64 := by norm_num
  have positive : 0 < pageSize.toNat * pagesPerEntry.toNat * numEntries.toNat := by
    apply Nat.pos_of_ne_zero
    intro zero
    rw [pageCount_wrapped, zero] at some_page
    omega
  have entry : 1 ≤ numEntries.toNat := Nat.pos_of_mul_pos_left positive
  have page : 1 ≤ pagesPerEntry.toNat := Nat.pos_of_mul_pos_left (Nat.pos_of_mul_pos_right positive)
  have row {i : Nat} (bound : i < numEntries.toNat) :
      i * pagesPerEntry.toNat + pagesPerEntry.toNat ≤ numEntries.toNat * pagesPerEntry.toNat := by
    rw [← Nat.succ_mul]
    exact Nat.mul_le_mul_right _ bound
  constructor
  · intro below
    -- the last device page of the last entry
    have last := below _ ((mem_prpStores page).mpr
      ⟨numEntries.toNat - 1, pagesPerEntry.toNat - 1, by omega, by omega, rfl⟩)
    have split : (numEntries.toNat - 1) * pagesPerEntry.toNat + pagesPerEntry.toNat =
        numEntries.toNat * pagesPerEntry.toNat := by
      rw [← Nat.succ_mul, Nat.succ_eq_add_one, Nat.sub_add_cancel entry]
    simp only [prpStore] at last
    rw [Nat.mod_eq_of_lt (by omega)] at last
    omega
  · intro most st member
    obtain ⟨i, j, entries, inside, rfl⟩ := (mem_prpStores page).mp member
    have last := row entries
    simp only [prpStore]
    rw [Nat.mod_eq_of_lt (by omega)]
    omega

theorem pinned_source {io : Nat} {s' : HostBuffers T} {dma' : DmaLog} {count : Nat}
    (some_page : 1 ≤ pageCount pageSize pagesPerEntry numEntries) (allocated : env.Allocated)
    (pages : env.getUserPages = count) (positive : 0 < count)
    (mapped : ∀ k, k < count → env.dmaMappingError k = 0)
    (created : s.createHostIoBuf dma current env pageSize pagesPerEntry numEntries vaddr prpAddr =
      some (.ok io, s', dma')) :
    (s'.iobuf io).map.nAddrs = count ∧ ∀ k, k < count →
      s'.pages.pinned[s.pages.pinned.length + k]? = some (env.page k) ∧
      s'.pages.mapped[s.pages.mapped.length + k]? = some ((s'.iobuf io).map.addrs k) := by
  obtain ⟨m, ended, _, _, buffer, _⟩ := createHostIoBuf_stored created
  rw [mapUserspace_pinned some_page current vaddr s.pages allocated pages positive mapped,
    Prod.mk.injEq, Except.ok.injEq] at ended
  obtain ⟨rfl, log⟩ := ended
  rw [buffer, ← log]
  refine ⟨rfl, ?_⟩
  intro k bound
  have inside : 0 ≤ k ∧ k < 0 + count := by omega
  constructor
  · simp only [List.getElem?_append_right (Nat.le_add_right _ k), Nat.add_sub_cancel_left,
      List.getElem?_map, List.getElem?_range bound, Option.map_some]
  · refine Eq.trans ?_ (congrArg some (if_pos inside).symm)
    simp only [List.getElem?_append_right (Nat.le_add_right _ k), Nat.add_sub_cancel_left,
      List.getElem?_map, List.getElem?_range' bound, Option.map_some, Nat.zero_add, Nat.one_mul]

theorem prpSourced_of_fails (fails : env.MapFails (pageCount pageSize pagesPerEntry numEntries)) :
    s.PrpSourced dma current env pageSize pagesPerEntry numEntries vaddr prpAddr := by
  obtain ⟨err, pages, refused⟩ : ∃ err pages,
      s.createHostIoBuf dma current env pageSize pagesPerEntry numEntries vaddr prpAddr =
        some (.error err, { s with pages := pages }, dma) := createHostIoBuf_fails fails
  constructor
  · intro io s' dma' created
    rw [refused] at created
    cases created
  · exact fun _ => ⟨err, _, refused, rfl⟩

theorem needed_le_of_sourced {m : UserMap T} {pages : PageLog}
    (ended : mapUserspace env current vaddr (pageCount pageSize pagesPerEntry numEntries) s.pages =
      (.ok m, pages))
    (right : s.PrpSourced dma current env pageSize pagesPerEntry numEntries vaddr prpAddr) :
    neededPages pageSize pagesPerEntry numEntries ≤ env.mappable := by
  by_contra fewer
  obtain ⟨err, s', refused, _⟩ := right.refused (Nat.lt_of_not_le fewer)
  exact createHostIoBuf_no_error ended err s' dma refused

section Pinned

variable {count : Nat} (some_page : 1 ≤ pageCount pageSize pagesPerEntry numEntries)
  (allocated : env.Allocated) (pages : env.getUserPages = count) (positive : 0 < count)
  (mapped : ∀ k, k < count → env.dmaMappingError k = 0)

include some_page allocated pages positive mapped

theorem sizes_of_sourced {seq : List Nat} (list : BlockList s.list s.blocks seq)
    (most : count ≤ pageCount pageSize pagesPerEntry numEntries)
    (right : s.PrpSourced dma current env pageSize pagesPerEntry numEntries vaddr prpAddr) :
    count = pageCount pageSize pagesPerEntry numEntries ∧
      4096 ∣ pageSize.toNat * pagesPerEntry.toNat * numEntries.toNat ∧
      pageSize.toNat * pagesPerEntry.toNat * numEntries.toNat < 2 ^ 64 ∧
      (4096 ≤ pageSize.toNat ∨ 2 ^ 32 ≤ numEntries.toNat ∨ 2 ^ 32 ≤ pagesPerEntry.toNat) := by
  have number : env.getUserPages.toNat = count := by rw [pages, Int.toNat_natCast]
  have ended := mapUserspace_pinned some_page current vaddr s.pages allocated pages positive mapped
  have enough := pageCount_le pageSize pagesPerEntry numEntries
  have all : neededPages pageSize pagesPerEntry numEntries ≤ count := by
    rw [← number, ← PageEnv.mappable_all (number ▸ mapped)]
    exact needed_le_of_sourced ended right
  obtain ⟨whole, fits⟩ := neededPages_eq.mp
    (Nat.le_antisymm (all.trans most) enough)
  refine ⟨by omega, whole, fits, ?_⟩
  by_contra small
  simp only [not_or, Nat.not_le] at small
  obtain ⟨smaller, counts, perEntry⟩ := small
  obtain ⟨s', created, _⟩ := createHostIoBuf_ok list ended (by omega) dma prpAddr
  obtain ⟨addrs, _⟩ := pinned_source some_page allocated pages positive mapped created
  obtain ⟨_, _, _, _, buffer, _⟩ := createHostIoBuf_stored created
  have stores : (s'.iobuf s.blocks).stores =
      prpStores pagesPerEntry.toNat numEntries.toNat := by rw [buffer, Iobuf.stores]
  have below := (sources_below_iff counts perEntry some_page count).mp fun st member => by
    have source := (right.sourced _ _ _ created st (stores ▸ member)).1
    rwa [addrs] at source
  have larger := (devicePages_le_iff fits some_page).mp (by omega)
  omega

theorem prpSourced_of_whole (all : count = pageCount pageSize pagesPerEntry numEntries)
    (whole : 4096 ∣ pageSize.toNat * pagesPerEntry.toNat * numEntries.toNat)
    (fits : pageSize.toNat * pagesPerEntry.toNat * numEntries.toNat < 2 ^ 64)
    (large : 4096 ≤ pageSize.toNat ∨ 2 ^ 32 ≤ numEntries.toNat ∨ 2 ^ 32 ≤ pagesPerEntry.toNat) :
    s.PrpSourced dma current env pageSize pagesPerEntry numEntries vaddr prpAddr := by
  have number : env.getUserPages.toNat = count := by rw [pages, Int.toNat_natCast]
  constructor
  · intro io s' dma' created st member
    obtain ⟨_, _, counts, perEntry, buffer, _⟩ := createHostIoBuf_stored created
    obtain ⟨addrs, read⟩ := pinned_source some_page allocated pages positive mapped created
    have larger : 4096 ≤ pageSize.toNat := by omega
    have devicePages := (devicePages_le_iff fits some_page).mpr larger
    rw [buffer, Iobuf.stores] at member
    have below := (sources_below_iff counts perEntry some_page count).mpr (by omega) st member
    exact ⟨addrs ▸ below, read _ below⟩
  · intro fewer
    rw [PageEnv.mappable_all (number ▸ mapped), number, neededPages_eq.mpr ⟨whole, fits⟩] at fewer
    exact absurd all fewer.ne

end Pinned

end Calls

end HostBuffers

end BafsNvme
