import BafsNvme.HostBufferLookup
import BafsNvme.PageMapping

/-! The PRP lists that `create_host_io_buf` writes: which bus address stands where. -/

namespace BafsNvme

section Loop

variable {α : Type} {key : α → Nat} {value : α → BitVec 64} {ks : List α} {w : Nat}

theorem storeLoop_frame (away : ∀ j ∈ ks, key j ≠ w) (words : Nat → BitVec 64) :
    ks.foldl (fun words j => Function.update words (key j) (value j)) words w = words w := by
  induction ks generalizing words with
  | nil => rfl
  | cons j ks ih =>
      rw [List.foldl_cons, ih fun k member => away k (List.mem_cons_of_mem j member)]
      exact Function.update_of_ne (away j List.mem_cons_self).symm ..

theorem storeLoop_at (apart : ks.Pairwise fun j k => key j ≠ key k) {j : α} (member : j ∈ ks)
    (words : Nat → BitVec 64) :
    ks.foldl (fun words j => Function.update words (key j) (value j)) words (key j) = value j := by
  induction ks generalizing words with
  | nil => cases member
  | cons k ks ih =>
      obtain ⟨first, apart⟩ := List.pairwise_cons.mp apart
      rw [List.foldl_cons]
      rcases List.mem_cons.mp member with rfl | later
      · rw [storeLoop_frame fun l inside => (first l inside).symm]
        exact Function.update_self ..
      · exact ih apart later _

end Loop

def prpSlot (j : Nat) : Nat := if j = 0 then 4096 / 8 - 1 else j - 1

variable {addrs : Nat → BitVec 64} {pagesPerEntry numEntries : Nat} {words : Nat → BitVec 64}

theorem prpEntry_frame (few : pagesPerEntry ≤ 4096 / 8) {i w : Nat}
    (outside : w < i * (4096 / 8) ∨ (i + 1) * (4096 / 8) ≤ w) :
    prpEntry addrs pagesPerEntry words i w = words w := by
  have last : w ≠ i * (4096 / 8) + (4096 / 8 - 1) := by omega
  rw [prpEntry]
  calc
    _ = Function.update words (i * (4096 / 8) + (4096 / 8 - 1))
        (addrs (i * pagesPerEntry % 2 ^ 64)) w := by
      apply storeLoop_frame
      intro j member
      obtain ⟨_, upper⟩ := List.mem_range'_1.mp member
      omega
    _ = words w := Function.update_of_ne last ..

theorem prpEntry_at (few : pagesPerEntry ≤ 4096 / 8) (i : Nat) {j : Nat} (bound : j < pagesPerEntry) :
    prpEntry addrs pagesPerEntry words i (i * (4096 / 8) + prpSlot j) =
      addrs ((i * pagesPerEntry + j) % 2 ^ 64) := by
  rw [prpEntry]
  by_cases first : j = 0
  · subst first
    calc
      _ = Function.update words (i * (4096 / 8) + (4096 / 8 - 1))
          (addrs (i * pagesPerEntry % 2 ^ 64)) (i * (4096 / 8) + prpSlot 0) := by
        apply storeLoop_frame
        intro j member
        obtain ⟨lower, upper⟩ := List.mem_range'_1.mp member
        simp only [prpSlot, if_true]
        omega
      _ = addrs ((i * pagesPerEntry + 0) % 2 ^ 64) := Function.update_self ..
  · have apart : (List.range' 1 (pagesPerEntry - 1)).Pairwise fun j k =>
        i * (4096 / 8) + (j - 1) ≠ i * (4096 / 8) + (k - 1) := by
      apply List.Pairwise.imp_of_mem _ List.pairwise_lt_range'
      intro k l member _ less
      obtain ⟨lower, _⟩ := List.mem_range'_1.mp member
      omega
    have member : j ∈ List.range' 1 (pagesPerEntry - 1) := List.mem_range'_1.mpr (by omega)
    rw [prpSlot, if_neg first]
    exact storeLoop_at apart member _

theorem prpLists_succ (n : Nat) : prpLists addrs pagesPerEntry (n + 1) words =
    prpEntry addrs pagesPerEntry (prpLists addrs pagesPerEntry n words) n := by
  rw [prpLists, List.range_succ, List.foldl_append]
  rfl

theorem prpLists_at (few : pagesPerEntry ≤ 4096 / 8) (fits : numEntries * pagesPerEntry < 2 ^ 64)
    {i j : Nat} (entry : i < numEntries) (bound : j < pagesPerEntry) :
    prpLists addrs pagesPerEntry numEntries words (i * (4096 / 8) + prpSlot j) =
      addrs (i * pagesPerEntry + j) := by
  have slot : prpSlot j < 4096 / 8 := by
    rw [prpSlot]
    split <;> omega
  have size : (i + 1) * pagesPerEntry ≤ numEntries * pagesPerEntry :=
    Nat.mul_le_mul_right pagesPerEntry entry
  rw [Nat.succ_mul] at size
  have inside : (i * pagesPerEntry + j) % 2 ^ 64 = i * pagesPerEntry + j :=
    Nat.mod_eq_of_lt (by omega)
  clear size fits
  induction numEntries with
  | zero => omega
  | succ n ih =>
      rw [prpLists_succ]
      rcases Nat.lt_succ_iff_lt_or_eq.mp entry with earlier | rfl
      · rw [prpEntry_frame few (by omega)]
        exact ih earlier
      · rw [prpEntry_at few i bound, inside]

variable {T : Type}

structure PrpSizes (pageSize pagesPerEntry numEntries : BitVec 64) : Prop where
  multiple : 4096 ∣ pageSize.toNat
  positive : 0 < pageSize.toNat
  least : 1 ≤ pagesPerEntry.toNat
  most : pagesPerEntry.toNat ≤ 4096 / 8
  entries : 1 ≤ numEntries.toNat
  counts : numEntries.toNat < 2 ^ 32
  fits : pageSize.toNat * pagesPerEntry.toNat * numEntries.toNat < 2 ^ 64

namespace PrpSizes

variable {pageSize pagesPerEntry numEntries : BitVec 64}

theorem pageCount_eq (sizes : PrpSizes pageSize pagesPerEntry numEntries) :
    HostBuffers.pageCount pageSize pagesPerEntry numEntries =
      pageSize.toNat / 4096 * (numEntries.toNat * pagesPerEntry.toNat) := by
  obtain ⟨ratio, size⟩ := sizes.multiple
  have fits := sizes.fits
  have product : (pageSize * pagesPerEntry * numEntries).toNat =
      4096 * (ratio * (numEntries.toNat * pagesPerEntry.toNat)) := by
    rw [BitVec.toNat_mul, BitVec.toNat_mul, Nat.mod_mul_mod, Nat.mod_eq_of_lt fits, size]
    ring
  calc
    HostBuffers.pageCount pageSize pagesPerEntry numEntries
        = 4096 * (ratio * (numEntries.toNat * pagesPerEntry.toNat)) / 4096 := by
      rw [HostBuffers.pageCount, BitVec.toNat_udiv, product]
      rfl
    _ = ratio * (numEntries.toNat * pagesPerEntry.toNat) :=
      Nat.mul_div_cancel_left _ (by norm_num)
    _ = pageSize.toNat / 4096 * (numEntries.toNat * pagesPerEntry.toNat) := by
      rw [size, Nat.mul_div_cancel_left ratio (by norm_num)]

theorem ratio_pos (sizes : PrpSizes pageSize pagesPerEntry numEntries) : 0 < pageSize.toNat / 4096 :=
  Nat.div_pos (Nat.le_of_dvd sizes.positive sizes.multiple) (by norm_num)

theorem devicePages_pos (sizes : PrpSizes pageSize pagesPerEntry numEntries) :
    0 < numEntries.toNat * pagesPerEntry.toNat :=
  Nat.mul_pos sizes.entries sizes.least

theorem devicePages_le (sizes : PrpSizes pageSize pagesPerEntry numEntries) :
    numEntries.toNat * pagesPerEntry.toNat ≤
      HostBuffers.pageCount pageSize pagesPerEntry numEntries := by
  rw [sizes.pageCount_eq]
  exact Nat.le_mul_of_pos_left _ sizes.ratio_pos

theorem devicePages_lt (sizes : PrpSizes pageSize pagesPerEntry numEntries) :
    numEntries.toNat * pagesPerEntry.toNat < 2 ^ 64 := by
  have entries := sizes.counts
  have pages := sizes.most
  calc
    _ ≤ 2 ^ 32 * (4096 / 8) := Nat.mul_le_mul entries.le pages
    _ < 2 ^ 64 := by norm_num

end PrpSizes

namespace HostBuffers

def prpWord (s : HostBuffers T) (io i j : Nat) : BitVec 64 :=
  s.prp (s.iobuf io).prpListPhys (i * (4096 / 8) + prpSlot j)

def PrpExact (s : HostBuffers T) (dma : DmaLog) (current : T) (env : PageEnv)
    (pageSize pagesPerEntry numEntries vaddr prpAddr : BitVec 64) : Prop :=
  ∃ io s' dma', s.createHostIoBuf dma current env pageSize pagesPerEntry numEntries vaddr prpAddr =
      some (.ok io, s', dma') ∧
    ∀ i, i < numEntries.toNat → ∀ j, j < pagesPerEntry.toNat →
      s'.prpWord io i j =
        env.busAddress ((i * pagesPerEntry.toNat + j) * pageSize.toNat)

variable {s : HostBuffers T} {seq : List Nat} {pageSize pagesPerEntry numEntries : BitVec 64}

theorem createHostIoBuf_ok (list : BlockList s.list s.blocks seq) {current : T} {env : PageEnv}
    {vaddr : BitVec 64} {m : UserMap T} {pages : PageLog}
    (mapped : mapUserspace env current vaddr (pageCount pageSize pagesPerEntry numEntries) s.pages =
      (.ok m, pages))
    (counted : ¬ (numEntries.toNat ≥ 2 ^ 32 ∨ pagesPerEntry.toNat ≥ 2 ^ 32)) (dma : DmaLog)
    (prpAddr : BitVec 64) :
    ∃ s', s.createHostIoBuf dma current env pageSize pagesPerEntry numEntries vaddr prpAddr =
        some (.ok s.blocks, s', dma.alloc (numEntries * 4096#64).toNat prpAddr) ∧
      BlockList s'.list s'.blocks (seq ++ [s.blocks]) ∧
      (s'.iobuf s.blocks).prpListPhys = dma.next ∧
      s'.prp dma.next =
        prpLists m.addrs pagesPerEntry.toNat numEntries.toNat (s.prp dma.next) := by
  obtain ⟨list', linked, longer⟩ := list.grow.listInsert list.fresh (Nat.lt_succ_self _)
  rw [createHostIoBuf, mapped]
  simp only [counted, if_false, linked, Option.map_some]
  refine ⟨_, rfl, longer, ?_, ?_⟩
  · simp only [Function.update_self]
  · simp only [Function.update_self]

theorem createHostIoBuf_mapped (list : BlockList s.list s.blocks seq)
    (sizes : PrpSizes pageSize pagesPerEntry numEntries) {env : PageEnv}
    (all : env.AllMapped (pageCount pageSize pagesPerEntry numEntries)) (dma : DmaLog) (current : T)
    (vaddr prpAddr : BitVec 64) :
    ∃ s' dma', s.createHostIoBuf dma current env pageSize pagesPerEntry numEntries vaddr prpAddr =
        some (.ok s.blocks, s', dma') ∧
      ∀ i, i < numEntries.toNat → ∀ j, j < pagesPerEntry.toNat →
        s'.prpWord s.blocks i j = env.dmaMapPage (i * pagesPerEntry.toNat + j) := by
  have some_page := Nat.lt_of_lt_of_le sizes.devicePages_pos sizes.devicePages_le
  have mapped := mapUserspace_mapped all some_page current vaddr s.pages
  have counted : ¬ (numEntries.toNat ≥ 2 ^ 32 ∨ pagesPerEntry.toNat ≥ 2 ^ 32) := by
    have entries := sizes.counts
    have most := sizes.most
    omega
  obtain ⟨s', created, _, area, stored⟩ := createHostIoBuf_ok list mapped counted dma prpAddr
  refine ⟨s', _, created, ?_⟩
  intro i entry j bound
  have inside : i * pagesPerEntry.toNat + j <
      pageCount pageSize pagesPerEntry numEntries := by
    have entries := Nat.mul_le_mul_right pagesPerEntry.toNat entry
    rw [Nat.succ_mul] at entries
    have pages := sizes.devicePages_le
    omega
  calc
    s'.prpWord s.blocks i j
        = prpLists _ pagesPerEntry.toNat numEntries.toNat _ (i * (4096 / 8) + prpSlot j) := by
      rw [prpWord, area, stored]
    _ = (UserMap.whole env current vaddr _).addrs (i * pagesPerEntry.toNat + j) :=
      prpLists_at sizes.most sizes.devicePages_lt entry bound
    _ = env.dmaMapPage (i * pagesPerEntry.toNat + j) := UserMap.whole_addrs env current vaddr inside

/-- In a buffer with all pages mapped the address stored for device page `k` is that of host page
`k`, and should be that of the first of the host pages it consists of. -/
theorem prpExact_iff_pages (list : BlockList s.list s.blocks seq)
    (sizes : PrpSizes pageSize pagesPerEntry numEntries) {env : PageEnv}
    (all : env.AllMapped (pageCount pageSize pagesPerEntry numEntries)) (dma : DmaLog) (current : T)
    (vaddr prpAddr : BitVec 64) :
    s.PrpExact dma current env pageSize pagesPerEntry numEntries vaddr prpAddr ↔
      ∀ k, k < numEntries.toNat * pagesPerEntry.toNat →
        env.dmaMapPage k = env.dmaMapPage (k * (pageSize.toNat / 4096)) := by
  obtain ⟨s', dma', created, stored⟩ := createHostIoBuf_mapped list sizes all dma current vaddr prpAddr
  have start (k : Nat) : env.busAddress (k * pageSize.toNat) =
      env.dmaMapPage (k * (pageSize.toNat / 4096)) := by
    have whole : k * pageSize.toNat % 4096 = 0 :=
      Nat.mod_eq_zero_of_dvd (Dvd.dvd.mul_left sizes.multiple k)
    rw [PageEnv.busAddress, whole, Nat.mul_div_assoc k sizes.multiple]
    exact BitVec.add_zero _
  constructor
  · rintro ⟨io, s'', dma'', created', exact_addresses⟩ k bound
    rw [created, Option.some.injEq, Prod.mk.injEq, Prod.mk.injEq, Except.ok.injEq] at created'
    obtain ⟨rfl, rfl, _⟩ := created'
    have entry : k / pagesPerEntry.toNat < numEntries.toNat :=
      (Nat.div_lt_iff_lt_mul sizes.least).mpr bound
    have page : k % pagesPerEntry.toNat < pagesPerEntry.toNat := Nat.mod_lt k sizes.least
    have position : k / pagesPerEntry.toNat * pagesPerEntry.toNat + k % pagesPerEntry.toNat = k :=
      Nat.div_add_mod' k pagesPerEntry.toNat
    have now := stored _ entry _ page
    rw [exact_addresses _ entry _ page, position, start] at now
    exact now.symm
  · intro same
    refine ⟨s.blocks, s', dma', created, ?_⟩
    intro i entry j bound
    have inside : i * pagesPerEntry.toNat + j < numEntries.toNat * pagesPerEntry.toNat := by
      have entries := Nat.mul_le_mul_right pagesPerEntry.toNat entry
      rw [Nat.succ_mul] at entries
      omega
    rw [stored i entry j bound, start]
    exact same _ inside

/-- The pages of every buffer of this kind are stored right if and only if the device page is the
host page or there is only one device page. -/
theorem prp_exact_iff (s : HostBuffers T) (seq : List Nat) (list : BlockList s.list s.blocks seq)
    (dma : DmaLog) (current : T) (pageSize pagesPerEntry numEntries : BitVec 64)
    (sizes : PrpSizes pageSize pagesPerEntry numEntries) (vaddr prpAddr : BitVec 64) :
    (∀ env : PageEnv, env.AllMapped (pageCount pageSize pagesPerEntry numEntries) →
        s.PrpExact dma current env pageSize pagesPerEntry numEntries vaddr prpAddr) ↔
      pageSize.toNat = 4096 ∨ numEntries.toNat * pagesPerEntry.toNat = 1 := by
  constructor
  · intro exact_for_all
    by_contra neither
    rw [not_or] at neither
    obtain ⟨larger, several⟩ := neither
    -- every host page at its own bus address
    let env : PageEnv :=
      { descriptor := true
        array := true
        getUserPages := pageCount pageSize pagesPerEntry numEntries
        page := id
        dmaMapPage := BitVec.ofNat 64
        dmaMappingError := fun _ => 0
        behind := fun _ => 0 }
    have all : env.AllMapped (pageCount pageSize pagesPerEntry numEntries) :=
      ⟨rfl, rfl, rfl, fun _ _ => rfl⟩
    have positive := sizes.devicePages_pos
    have second := (prpExact_iff_pages list sizes all dma current vaddr prpAddr).mp
      (exact_for_all env all) 1 (by omega)
    rw [Nat.one_mul] at second
    have pages := congrArg BitVec.toNat second
    have bound := pageSize.isLt
    obtain ⟨ratio, size⟩ := sizes.multiple
    simp only [env, BitVec.toNat_ofNat] at pages
    omega
  · intro either env all
    rw [prpExact_iff_pages list sizes all]
    intro k bound
    rcases either with same | single
    · rw [same, Nat.div_self (by norm_num), Nat.mul_one]
    · rw [single, Nat.lt_one_iff] at bound
      rw [bound, Nat.zero_mul]

theorem prp_exact_two_entries : let s := DriverState.blank.adminInit DriverState.smallInit
    s.host.PrpExact s.io.dma () (DriverState.allMapped 4) 4096#64 2#64 2#64 0x10000#64
      0x5000#64 := by
  intro s
  have list : BlockList s.host.list s.host.blocks [] := .listInit ..
  have sizes : PrpSizes 4096#64 2#64 2#64 := by
    constructor <;> decide
  have all : (DriverState.allMapped 4).AllMapped (pageCount 4096#64 2#64 2#64) :=
    ⟨rfl, rfl, rfl, fun _ _ => rfl⟩
  exact (prp_exact_iff s.host [] list s.io.dma () 4096#64 2#64 2#64 sizes 0x10000#64
    0x5000#64).mpr (.inl rfl) (DriverState.allMapped 4) all

/-- One entry of two device pages of 8192 bytes: the second address is that of the second host
page, in the middle of the first device page. -/
theorem second_page_inside_first :
    ¬ ∀ (T : Type) (s : HostBuffers T) (seq : List Nat), BlockList s.list s.blocks seq →
      ∀ (dma : DmaLog) (current : T) (pageSize pagesPerEntry numEntries : BitVec 64),
      PrpSizes pageSize pagesPerEntry numEntries → ∀ (vaddr prpAddr : BitVec 64) (env : PageEnv),
      env.AllMapped (pageCount pageSize pagesPerEntry numEntries) →
      s.PrpExact dma current env pageSize pagesPerEntry numEntries vaddr prpAddr := by
  intro prp_always_exact
  let s := DriverState.blank.adminInit DriverState.smallInit
  have list : BlockList s.host.list s.host.blocks [] := .listInit ..
  have sizes : PrpSizes 8192#64 2#64 1#64 := by
    constructor <;> decide
  have all : (DriverState.allMapped 4).AllMapped (pageCount 8192#64 2#64 1#64) :=
    ⟨rfl, rfl, rfl, fun _ _ => rfl⟩
  obtain ⟨io, s', dma', created, exact_addresses⟩ := prp_always_exact Unit s.host [] list s.io.dma ()
    8192#64
    2#64 1#64 sizes 0x10000#64 0x5000#64 (DriverState.allMapped 4) all
  have stored : (s.host.createHostIoBuf s.io.dma () (DriverState.allMapped 4) 8192#64 2#64 1#64
      0x10000#64 0x5000#64).map (fun r => (r.1.toOption, r.2.1.prpWord 0 0 1)) =
      some (some 0, 0x11000#64) := by
    decide +kernel
  rw [created] at stored
  simp only [Option.map_some, Option.some.injEq, Prod.mk.injEq, Except.toOption] at stored
  obtain ⟨rfl, word⟩ := stored
  have second := exact_addresses 0 (by decide) 1 (by decide)
  exact absurd (word.symm.trans second) (by decide)

end HostBuffers

end BafsNvme
