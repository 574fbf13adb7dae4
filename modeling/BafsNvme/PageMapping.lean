import BafsNvme.UserMap
import Mathlib.Tactic

/-! What `map_userspace` does for every answer of the kernel, and what is left pinned and mapped
after it has failed, or after its map was released. -/

namespace BafsNvme

structure PageEnv.AllMapped (env : PageEnv) (n : Nat) : Prop where
  descriptor : env.descriptor = true
  array : env.array = true
  pinned : env.getUserPages = n
  mapped : ∀ k, k < n → env.dmaMappingError k = 0

def PageEnv.busAddress (env : PageEnv) (offset : Nat) : BitVec 64 :=
  env.dmaMapPage (offset / 4096) + BitVec.ofNat 64 (offset % 4096)

variable {T : Type}

theorem mapPagesFrom_add {env : PageEnv} (m : UserMap T) (log : PageLog) (i count rest : Nat)
    (mapped : ∀ k, i ≤ k → k < i + count → env.dmaMappingError k = 0) :
    mapPagesFrom env m log i (count + rest) =
      mapPagesFrom env
        { m with addrs := fun k => if i ≤ k ∧ k < i + count then env.dmaMapPage k else m.addrs k }
        { log with mapped := log.mapped ++ (List.range' i count).map env.dmaMapPage }
        (i + count) rest := by
  induction count generalizing m log i with
  | zero =>
      have outside : (fun k => if i ≤ k ∧ k < i + 0 then env.dmaMapPage k else m.addrs k) =
          m.addrs := funext fun k => if_neg (by omega)
      rw [outside, List.range'_zero, List.map_nil, List.append_nil, Nat.zero_add, Nat.add_zero]
  | succ count ih =>
      have here : env.dmaMappingError i = 0 := mapped i le_rfl (by omega)
      have later := ih { m with addrs := Function.update m.addrs i (env.dmaMapPage i) }
        { log with mapped := log.mapped ++ [env.dmaMapPage i] } (i + 1)
        (fun k above below => mapped k (by omega) (by omega))
      have addrs : (fun k => if i + 1 ≤ k ∧ k < i + 1 + count then env.dmaMapPage k
          else Function.update m.addrs i (env.dmaMapPage i) k) =
          fun k => if i ≤ k ∧ k < i + (count + 1) then env.dmaMapPage k else m.addrs k := by
        funext k
        rcases Nat.lt_trichotomy k i with before | rfl | after
        · rw [if_neg (by omega), if_neg (by omega), Function.update_of_ne (by omega)]
        · rw [if_neg (by omega), if_pos (by omega), Function.update_self]
        · simp only [Function.update_of_ne (Nat.ne_of_gt after)]
          exact if_congr (by omega) rfl rfl
      rw [Nat.add_right_comm, mapPagesFrom, if_neg (not_not.mpr here), later, addrs,
        List.range'_succ, List.map_cons, List.append_assoc, List.singleton_append, Nat.add_assoc,
        Nat.add_comm 1]

theorem mapPagesFrom_mapped {env : PageEnv} (m : UserMap T) (log : PageLog) (i rest : Nat)
    (mapped : ∀ k, i ≤ k → k < i + rest → env.dmaMappingError k = 0) :
    mapPagesFrom env m log i rest =
      (0, { m with addrs := fun k => if i ≤ k ∧ k < i + rest then env.dmaMapPage k else m.addrs k },
        { log with mapped := log.mapped ++ (List.range' i rest).map env.dmaMapPage }) :=
  mapPagesFrom_add m log i rest 0 mapped

theorem mapPagesFrom_failed {env : PageEnv} (m : UserMap T) (log : PageLog) (i rest : Nat) {k : Nat}
    (above : i ≤ k) (below : k < i + rest)
    (mapped : ∀ j, i ≤ j → j < k → env.dmaMappingError j = 0) (fails : env.dmaMappingError k ≠ 0) :
    mapPagesFrom env m log i rest =
      (env.dmaMappingError k,
        { m with addrs := fun j =>
            if i ≤ j ∧ j < k then env.dmaMapPage j else if j = k then 0 else m.addrs j },
        { log with mapped := log.mapped ++ (List.range' i (k - i)).map env.dmaMapPage }) := by
  obtain ⟨count, rfl⟩ := Nat.exists_eq_add_of_le above
  obtain ⟨behind, rfl⟩ : ∃ behind, rest = count + (behind + 1) := ⟨rest - count - 1, by omega⟩
  have cleared (stored : Nat → BitVec 64) :
      Function.update (Function.update stored (i + count) (env.dmaMapPage (i + count))) (i + count) 0 =
        Function.update stored (i + count) 0 := Function.update_idem ..
  have addrs : Function.update (fun j => if i ≤ j ∧ j < i + count then env.dmaMapPage j else m.addrs j)
      (i + count) 0 = fun j =>
        if i ≤ j ∧ j < i + count then env.dmaMapPage j else if j = i + count then 0 else m.addrs j := by
    funext j
    rcases eq_or_ne j (i + count) with rfl | other
    · rw [Function.update_self, if_neg (by omega), if_pos rfl]
    · rw [Function.update_of_ne other, if_neg other]
  rw [mapPagesFrom_add m log i count (behind + 1) mapped, mapPagesFrom, if_pos fails, cleared, addrs,
    Nat.add_sub_cancel_left]

structure PageEnv.Allocated (env : PageEnv) : Prop where
  descriptor : env.descriptor = true
  array : env.array = true

def UserMap.pinned (env : PageEnv) (current : T) (vaddr : BitVec 64) (count : Nat)
    (addrs : Nat → BitVec 64) : UserMap T where
  owner := current
  vaddr := vaddr &&& PAGE_MASK
  pageSize := 4096
  release := true
  nAddrs := count
  data := some ((List.range count).map env.page)
  addrs := addrs

theorem unmapAndReleaseMap_pinned (env : PageEnv) (current : T) (vaddr : BitVec 64) (count : Nat)
    (addrs : Nat → BitVec 64) (log : PageLog) :
    unmapAndReleaseMap (UserMap.pinned env current vaddr count addrs) log =
      { log with
        unmapped := log.unmapped ++ (List.range count).map addrs
        put := log.put ++ (List.range count).map env.page } := by
  have whole : ((List.range count).map env.page).take count = (List.range count).map env.page :=
    List.take_of_length_le (by rw [List.length_map, List.length_range])
  rw [unmapAndReleaseMap, if_pos ⟨rfl, Option.some_ne_none _⟩]
  simp only [releaseUserPages, UserMap.pinned, Option.getD_some, whole]

def UserMap.unpinned (env : PageEnv) (current : T) (vaddr : BitVec 64) (n : Nat) : UserMap T where
  owner := current
  vaddr := vaddr &&& PAGE_MASK
  pageSize := 4096
  release := false
  nAddrs := n
  data := none
  addrs := fun k => if k < n then 0 else env.behind k

section Answers

variable {env : PageEnv} {n : Nat} (some_page : 1 ≤ n) (current : T) (vaddr : BitVec 64)
  (log : PageLog)

include some_page

theorem mapUserspace_refused (refused : ¬ env.Allocated ∨ env.getUserPages < 0) :
    ∃ err, mapUserspace env current vaddr n log = (.error err, log) := by
  have bound : ¬ n < 1 := Nat.not_lt.mpr some_page
  cases descriptor : env.descriptor with
  | false => exact ⟨-ENOMEM, by simp [mapUserspace, bound, createDescriptor, descriptor]⟩
  | true =>
      cases array : env.array with
      | false =>
          exact ⟨-ENOMEM, by simp [mapUserspace, bound, createDescriptor, descriptor, mapUserPages,
            array, unmapAndReleaseMap, ENOMEM]⟩
      | true =>
          rcases refused with unallocated | negative
          · exact absurd ⟨descriptor, array⟩ unallocated
          · exact ⟨env.getUserPages, by simp [mapUserspace, bound, createDescriptor, descriptor,
              mapUserPages, array, negative.le, negative.ne, unmapAndReleaseMap]⟩

/-- No page was pinned, and the call takes the 0 it was told so with for its success. -/
theorem mapUserspace_unpinned (allocated : env.Allocated) (pages : env.getUserPages = 0) :
    mapUserspace env current vaddr n log = (.ok (UserMap.unpinned env current vaddr n), log) := by
  simp only [mapUserspace, Nat.not_lt.mpr some_page, if_false, createDescriptor,
    allocated.descriptor, if_true, mapUserPages, allocated.array, Bool.true_eq_false, pages, le_rfl,
    ne_eq, not_true_eq_false]
  rfl

variable {count : Nat} (allocated : env.Allocated) (pages : env.getUserPages = count)
  (positive : 0 < count)

include allocated pages positive

theorem mapUserspace_pinned (mapped : ∀ k, k < count → env.dmaMappingError k = 0) :
    mapUserspace env current vaddr n log =
      (.ok (UserMap.pinned env current vaddr count fun k =>
        if 0 ≤ k ∧ k < 0 + count then env.dmaMapPage k else if k < n then 0 else env.behind k),
      { log with
        pinned := log.pinned ++ (List.range count).map env.page
        mapped := log.mapped ++ (List.range' 0 count).map env.dmaMapPage }) := by
  have some_pinned : ¬ env.getUserPages ≤ 0 := by omega
  have number : env.getUserPages.toNat = count := by rw [pages, Int.toNat_natCast]
  have loop (m : UserMap T) (log : PageLog) := mapPagesFrom_mapped m log 0 count
    (fun k _ below => mapped k (by omega))
  simp only [mapUserspace, Nat.not_lt.mpr some_page, if_false, createDescriptor,
    allocated.descriptor, if_true, mapUserPages, allocated.array, Bool.true_eq_false, some_pinned,
    number, loop, ne_eq, not_true_eq_false]
  rfl

/-- A page that does not map: every pinned page is unmapped, mapped before or not, and put. -/
theorem mapUserspace_failed {k : Nat} (below : k < count)
    (mapped : ∀ j, j < k → env.dmaMappingError j = 0) (fails : env.dmaMappingError k ≠ 0) :
    mapUserspace env current vaddr n log =
      (.error (env.dmaMappingError k),
      { pinned := log.pinned ++ (List.range count).map env.page
        put := log.put ++ (List.range count).map env.page
        mapped := log.mapped ++ (List.range' 0 k).map env.dmaMapPage
        unmapped := log.unmapped ++ (List.range count).map fun j =>
          if 0 ≤ j ∧ j < k then env.dmaMapPage j
          else if j = k then 0 else if j < n then 0 else env.behind j }) := by
  have some_pinned : ¬ env.getUserPages ≤ 0 := by omega
  have number : env.getUserPages.toNat = count := by rw [pages, Int.toNat_natCast]
  have loop (m : UserMap T) (log : PageLog) := mapPagesFrom_failed m log 0 count (Nat.zero_le k)
    (by omega) (fun j _ => mapped j) fails
  simp only [mapUserspace, Nat.not_lt.mpr some_page, if_false, createDescriptor,
    allocated.descriptor, if_true, mapUserPages, allocated.array, Bool.true_eq_false, some_pinned,
    number, loop, ne_eq, fails, not_false_eq_true]
  exact congrArg _ (unmapAndReleaseMap_pinned env current vaddr count _ _)

end Answers

def UserMap.whole (env : PageEnv) (current : T) (vaddr : BitVec 64) (n : Nat) : UserMap T where
  owner := current
  vaddr := vaddr &&& PAGE_MASK
  pageSize := 4096
  release := true
  nAddrs := n
  data := some ((List.range n).map env.page)
  addrs := fun k => if 0 ≤ k ∧ k < 0 + n then env.dmaMapPage k else if k < n then 0 else env.behind k

theorem mapUserspace_mapped {env : PageEnv} {n : Nat} (all : env.AllMapped n) (some_page : 0 < n)
    (current : T) (vaddr : BitVec 64) (log : PageLog) :
    mapUserspace env current vaddr n log = (.ok (UserMap.whole env current vaddr n),
      { log with
        pinned := log.pinned ++ (List.range n).map env.page
        mapped := log.mapped ++ (List.range' 0 n).map env.dmaMapPage }) :=
  mapUserspace_pinned some_page current vaddr log ⟨all.descriptor, all.array⟩ all.pinned
    some_page all.mapped

theorem UserMap.whole_addrs (env : PageEnv) (current : T) (vaddr : BitVec 64) {n k : Nat}
    (bound : k < n) : (UserMap.whole env current vaddr n).addrs k = env.dmaMapPage k :=
  if_pos ⟨Nat.zero_le k, by omega⟩

theorem PageEnv.answers (env : PageEnv) :
    (¬ env.Allocated ∨ env.getUserPages < 0) ∨ (env.Allocated ∧ env.getUserPages = 0) ∨
      ∃ count : Nat, env.Allocated ∧ env.getUserPages = count ∧ 0 < count ∧
        ((∀ k, k < count → env.dmaMappingError k = 0) ∨
          ∃ k, k < count ∧ (∀ j, j < k → env.dmaMappingError j = 0) ∧
            env.dmaMappingError k ≠ 0) := by
  by_cases allocated : env.Allocated
  · rcases lt_trichotomy env.getUserPages 0 with negative | zero | positive
    · exact .inl (.inr negative)
    · exact .inr (.inl ⟨allocated, zero⟩)
    · refine .inr (.inr ⟨env.getUserPages.toNat, allocated, by omega, by omega, ?_⟩)
      by_cases all : ∀ k, k < env.getUserPages.toNat → env.dmaMappingError k = 0
      · exact .inl all
      · right
        have some_fails : ∃ k, k < env.getUserPages.toNat ∧ env.dmaMappingError k ≠ 0 := by
          simpa only [not_forall, exists_prop] using all
        obtain ⟨below, fails⟩ := Nat.find_spec some_fails
        refine ⟨Nat.find some_fails, below, ?_, fails⟩
        intro j earlier
        by_contra failed
        exact Nat.find_min some_fails earlier ⟨earlier.trans below, failed⟩
  · exact .inl (.inl allocated)

/-- What a returned map stands for: its pages, from the start on, are pinned and mapped, and it
holds what it takes to undo both. -/
structure UserMap.StandsFor (m : UserMap T) (env : PageEnv) (vaddr : BitVec 64) (nPages : Nat)
    (log log' : PageLog) : Prop where
  some_page : 1 ≤ m.nAddrs
  most : m.nAddrs ≤ nPages
  start : m.vaddr = vaddr &&& PAGE_MASK
  pinned : log'.pinned = log.pinned ++ (List.range m.nAddrs).map env.page
  mapped : log'.mapped = log.mapped ++ (List.range m.nAddrs).map env.dmaMapPage
  addrs : ∀ k, k < m.nAddrs → env.dmaMappingError k = 0 ∧ m.addrs k = env.dmaMapPage k
  release : m.release = true
  data : m.data = some ((List.range m.nAddrs).map env.page)

def pinsPages (count : Nat) (errors : Nat → Int) : PageEnv :=
  ⟨true, true, count, id, fun k => BitVec.ofNat 64 (4096 * (k + 16)), errors, fun _ => 0⟩

def mapAndRelease (env : PageEnv) (current : T) (vaddr : BitVec 64) (nPages : Nat) (log : PageLog) :
    PageLog :=
  match mapUserspace env current vaddr nPages log with
  | (.ok m, log) => unmapAndReleaseMap m log
  | (.error _, log) => log

structure PageLog.Undone (log log' : PageLog) : Prop where
  unmapped : ∃ mapped unmapped, log'.mapped = log.mapped ++ mapped ∧
    log'.unmapped = log.unmapped ++ unmapped ∧ unmapped.Perm mapped
  put : ∃ pinned put, log'.pinned = log.pinned ++ pinned ∧ log'.put = log.put ++ put ∧
    put.Perm pinned

theorem PageLog.Undone.refl (log : PageLog) : log.Undone log where
  unmapped := ⟨[], [], (List.append_nil _).symm, (List.append_nil _).symm, .refl []⟩
  put := ⟨[], [], (List.append_nil _).symm, (List.append_nil _).symm, .refl []⟩

/-- Everything is undone if and only if no pinned page fails to map. -/
theorem undone_iff (env : PageEnv) (current : T) (vaddr : BitVec 64) (nPages : Nat)
    (some_page : 1 ≤ nPages) (log : PageLog) :
    log.Undone (mapAndRelease env current vaddr nPages log) ↔
      (env.Allocated → ∀ k, k < env.getUserPages.toNat → env.dmaMappingError k = 0) := by
  rcases env.answers with refused | ⟨allocated, zero⟩ | ⟨count, allocated, pages, positive, ends⟩
  · obtain ⟨err, ended⟩ := mapUserspace_refused some_page current vaddr log refused
    rw [mapAndRelease, ended]
    refine iff_of_true (.refl log) ?_
    intro allocated k bound
    rcases refused with unallocated | negative
    · exact absurd allocated unallocated
    · omega
  · rw [mapAndRelease, mapUserspace_unpinned some_page current vaddr log allocated zero]
    refine iff_of_true (.refl log) ?_
    intro _ k bound
    omega
  · have number : env.getUserPages.toNat = count := by rw [pages, Int.toNat_natCast]
    rw [number]
    rcases ends with mapped | ⟨k, below, mapped, fails⟩
    · rw [mapAndRelease,
        mapUserspace_pinned some_page current vaddr log allocated pages positive mapped]
      simp only [unmapAndReleaseMap_pinned]
      refine iff_of_true ?_ fun _ => mapped
      constructor
      · refine ⟨_, _, rfl, rfl, ?_⟩
        rw [List.range_eq_range']
        apply List.Perm.of_eq
        apply List.map_congr_left
        intro k member
        obtain ⟨_, bound⟩ := List.mem_range'_1.mp member
        exact if_pos ⟨Nat.zero_le k, bound⟩
      · exact ⟨_, _, rfl, rfl, .refl _⟩
    · rw [mapAndRelease,
        mapUserspace_failed some_page current vaddr log allocated pages positive below mapped fails]
      refine iff_of_false ?_ fun all => fails (all allocated k below)
      -- one unmap call for each pinned page, but only `k` of them were mapped
      intro undone
      obtain ⟨mappedNow, unmappedNow, sameMapped, sameUnmapped, perm⟩ := undone.unmapped
      have lengths := perm.length_eq
      rw [← List.append_cancel_left sameMapped, ← List.append_cancel_left sameUnmapped] at lengths
      simp only [List.length_map, List.length_range, List.length_range'] at lengths
      omega

theorem undone_two_pages : PageLog.Undone ⟨[], [], [], []⟩
    (mapAndRelease (pinsPages 2 fun _ => 0) () 0x10000#64 2 ⟨[], [], [], []⟩) :=
  (undone_iff (pinsPages 2 fun _ => 0) () 0x10000#64 2 (by norm_num) _).mpr fun _ _ _ => rfl

/-- Two pages pinned, the second one not mapped: bus address 0 is unmapped as well. -/
theorem unmapped_page_released :
    ¬ ∀ (T : Type) (env : PageEnv) (current : T) (vaddr : BitVec 64) (nPages : Nat), 1 ≤ nPages →
      env.getUserPages ≤ nPages → ∀ log : PageLog,
      log.Undone (mapAndRelease env current vaddr nPages log) := by
  intro always_undone
  let errors : Nat → Int := fun k => if k = 1 then -ENOMEM else 0
  have undone := always_undone Unit (pinsPages 2 errors) () 0x10000#64 2 (by norm_num) le_rfl
    ⟨[], [], [], []⟩
  have calls : mapAndRelease (pinsPages 2 errors) () 0x10000#64 2 ⟨[], [], [], []⟩ =
      ⟨[0, 1], [0, 1], [0x10000#64], [0x10000#64, 0#64]⟩ := rfl
  rw [calls] at undone
  obtain ⟨mapped, unmapped, sameMapped, sameUnmapped, perm⟩ := undone.unmapped
  have one : [0x10000#64] = mapped := sameMapped
  have two : [0x10000#64, 0#64] = unmapped := sameUnmapped
  have lengths := perm.length_eq
  rw [← one, ← two] at lengths
  cases lengths

end BafsNvme
