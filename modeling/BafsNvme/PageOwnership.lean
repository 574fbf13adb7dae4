import BafsNvme.DmaOwnership
import BafsNvme.PageMapping

/-! The pages of user buffers over the driver's whole life: each page pinned and each bus address
mapped belongs to a listed buffer or was given back. -/

namespace BafsNvme

open Machine

def PageEnv.MapsWhole (env : PageEnv) : Prop :=
  env.Allocated → ∀ k, k < env.getUserPages.toNat → env.dmaMappingError k = 0

variable {T β : Type}

namespace UserMap

def pages (m : UserMap T) : List Nat :=
  if m.release ∧ m.data ≠ none then (m.data.getD []).take m.nAddrs else []

def addresses (m : UserMap T) : List (BitVec 64) :=
  if m.release ∧ m.data ≠ none then (List.range m.nAddrs).map m.addrs else []

theorem release_eq (m : UserMap T) (log : PageLog) :
    unmapAndReleaseMap m log =
      { log with unmapped := log.unmapped ++ m.addresses, put := log.put ++ m.pages } := by
  by_cases whole : m.release ∧ m.data ≠ none
  · rw [unmapAndReleaseMap, addresses, pages, if_pos whole, if_pos whole, if_pos whole,
      releaseUserPages]
  · rw [unmapAndReleaseMap, addresses, pages, if_neg whole, if_neg whole, if_neg whole,
      List.append_nil, List.append_nil]

theorem pinned_pages (env : PageEnv) (current : T) (vaddr : BitVec 64) (count : Nat)
    (addrs : Nat → BitVec 64) :
    (pinned env current vaddr count addrs).pages = (List.range count).map env.page := by
  simp [pages, pinned]

theorem pinned_addresses (env : PageEnv) (current : T) (vaddr : BitVec 64) (count : Nat)
    (addrs : Nat → BitVec 64) :
    (pinned env current vaddr count addrs).addresses = (List.range count).map addrs := by
  simp [addresses, pinned]

end UserMap

theorem mapUserspace_maps {env : PageEnv} {current : T} {vaddr : BitVec 64} {nPages : Nat}
    {log log' : PageLog} {m : UserMap T}
    (returned : mapUserspace env current vaddr nPages log = (.ok m, log')) :
    log' = { log with pinned := log.pinned ++ m.pages, mapped := log.mapped ++ m.addresses } ∧
      env.MapsWhole := by
  have some_page : 1 ≤ nPages := by
    by_contra none_asked
    rw [mapUserspace, if_pos (Nat.lt_of_not_le none_asked)] at returned
    cases returned
  rcases env.answers with refused | ⟨allocated, zero⟩ | ⟨count, allocated, pages, positive, ends⟩
  · obtain ⟨err, ended⟩ := mapUserspace_refused some_page current vaddr log refused
    rw [ended] at returned
    cases returned
  · rw [mapUserspace_unpinned some_page current vaddr log allocated zero] at returned
    cases returned
    refine ⟨by simp [UserMap.pages, UserMap.addresses, UserMap.unpinned], fun _ k bound => ?_⟩
    omega
  · rcases ends with mapped | ⟨k, below, mapped, fails⟩
    · rw [mapUserspace_pinned some_page current vaddr log allocated pages positive mapped]
        at returned
      cases returned
      have stored : (List.range' 0 count).map env.dmaMapPage = (List.range count).map fun k =>
          if 0 ≤ k ∧ k < 0 + count then env.dmaMapPage k
          else if k < nPages then 0 else env.behind k := by
        rw [List.range_eq_range']
        refine List.map_congr_left fun k member => ?_
        obtain ⟨_, bound⟩ := List.mem_range'_1.mp member
        rw [if_pos ⟨Nat.zero_le k, bound⟩]
      rw [UserMap.pinned_pages, UserMap.pinned_addresses, stored]
      refine ⟨rfl, fun _ k bound => mapped k ?_⟩
      omega
    · rw [mapUserspace_failed some_page current vaddr log allocated pages positive below mapped
        fails] at returned
      cases returned

/-- A call that fails puts every page it pinned; it unmaps what it mapped exactly when no pinned
page failed to map. -/
theorem mapUserspace_fails_items {env : PageEnv} {current : T} {vaddr : BitVec 64} {nPages : Nat}
    {log log' : PageLog} {err : Int}
    (returned : mapUserspace env current vaddr nPages log = (.error err, log')) :
    ∃ pages more back, log' =
      { pinned := log.pinned ++ pages
        put := log.put ++ pages
        mapped := log.mapped ++ more
        unmapped := log.unmapped ++ back } ∧
      (more.Perm back ↔ (1 ≤ nPages → env.MapsWhole)) := by
  by_cases some_page : 1 ≤ nPages
  · rcases env.answers with refused | ⟨allocated, zero⟩ | ⟨count, allocated, pages, positive, ends⟩
    · obtain ⟨err', ended⟩ := mapUserspace_refused some_page current vaddr log refused
      rw [ended] at returned
      cases returned
      refine ⟨[], [], [], by simp, iff_of_true (.refl []) fun _ allocated k bound => ?_⟩
      rcases refused with unallocated | negative
      · exact absurd allocated unallocated
      · omega
    · rw [mapUserspace_unpinned some_page current vaddr log allocated zero] at returned
      cases returned
    · rcases ends with mapped | ⟨k, below, mapped, fails⟩
      · rw [mapUserspace_pinned some_page current vaddr log allocated pages positive mapped]
          at returned
        cases returned
      · rw [mapUserspace_failed some_page current vaddr log allocated pages positive below mapped
          fails] at returned
        cases returned
        refine ⟨_, _, _, rfl, iff_of_false ?_ fun whole => ?_⟩
        -- only `k` of the `count` addresses were mapped
        · intro same
          have lengths := same.length_eq
          simp only [List.length_map, List.length_range, List.length_range'] at lengths
          omega
        · exact fails (whole some_page allocated k (by omega))
  · rw [mapUserspace, if_pos (Nat.lt_of_not_le some_page)] at returned
    cases returned
    exact ⟨[], [], [], by simp, iff_of_true (.refl []) fun asked => absurd asked some_page⟩

/-- One kind of what a map holds: how the log counts it, and for which answers of the kernel a
mapping that fails gives back what it obtained. -/
structure PageItems (T β : Type) where
  obtained : PageLog → List β
  returned : PageLog → List β
  held : UserMap T → List β
  clean : PageEnv → Prop
  release : ∀ m log, obtained (unmapAndReleaseMap m log) = obtained log ∧
    returned (unmapAndReleaseMap m log) = returned log ++ held m
  maps : ∀ {env current vaddr nPages log m log'},
    mapUserspace env current vaddr nPages log = (.ok m, log') →
      obtained log' = obtained log ++ held m ∧ returned log' = returned log ∧ clean env
  fails : ∀ {env vaddr nPages log err log'} {current : T},
    mapUserspace env current vaddr nPages log = (.error err, log') →
      ∃ more back, obtained log' = obtained log ++ more ∧ returned log' = returned log ++ back ∧
        (more.Perm back ↔ (1 ≤ nPages → clean env))

def pinnedPages : PageItems T Nat where
  obtained := PageLog.pinned
  returned := PageLog.put
  held := UserMap.pages
  clean _ := True
  release m log := by simp [UserMap.release_eq]
  maps returned := by simp [(mapUserspace_maps returned).1]
  fails returned := by
    obtain ⟨pages, _, _, log, _⟩ := mapUserspace_fails_items returned
    exact ⟨pages, pages, by rw [log], by rw [log], by simp⟩

def mappedAddresses : PageItems T (BitVec 64) where
  obtained := PageLog.mapped
  returned := PageLog.unmapped
  held := UserMap.addresses
  clean := PageEnv.MapsWhole
  release m log := by simp [UserMap.release_eq]
  maps returned := by
    obtain ⟨log, whole⟩ := mapUserspace_maps returned
    exact ⟨by rw [log], by rw [log], whole⟩
  fails returned := by
    obtain ⟨_, more, back, log, settled⟩ := mapUserspace_fails_items returned
    exact ⟨more, back, by rw [log], by rw [log], settled⟩

namespace DriverState

variable {s s' : DriverState T}

def kept (s : DriverState T) : List Nat :=
  if s.stage = .down then [] else s.buffers.filter fun io => io ∉ s.host.kfreed

def account (K : PageItems T β) (s : DriverState T) : Account Nat β where
  obtained := K.obtained s.host.pages
  returned := K.returned s.host.pages
  holders := s.kept
  bundle io := K.held (s.host.iobuf io).map

def mapsClean (K : PageItems T β) (_ : DriverState T) : DriverEvent T → Prop
  | .createHostIoBuf _ env pageSize pagesPerEntry numEntries _ _ =>
      1 ≤ HostBuffers.pageCount pageSize pagesPerEntry numEntries → K.clean env
  | _ => True

theorem OwnershipInv.kept_eq (inv : OwnershipInv s) (up : s.stage = .up) : s.kept = s.buffers := by
  have running : s.stage ≠ .down := by
    rw [up]
    decide
  rw [kept, if_neg running, List.filter_eq_self]
  exact fun io member => decide_eq_true (inv.fresh up io member)

theorem create_account {K : PageItems T β} (inv : OwnershipInv s) (up : s.stage = .up)
    (settled : (s.account K).Settled) {current : T} {env : PageEnv}
    {pageSize pagesPerEntry numEntries vaddr prpAddr : BitVec 64} {result : Except Int Nat}
    {host : HostBuffers T} {dma : DmaLog}
    (taken : s.host.createHostIoBuf s.io.dma current env pageSize pagesPerEntry numEntries vaddr
      prpAddr = some (result, host, dma))
    (after : OwnershipInv { s with host := host, io := { s.io with dma := dma } }) :
    (account K { s with host := host, io := { s.io with dma := dma } }).Settled ↔
      (1 ≤ HostBuffers.pageCount pageSize pagesPerEntry numEntries → K.clean env) := by
  have running : s.stage ≠ .down := by
    rw [up]
    decide
  obtain ⟨list, freed⟩ := inv.list running
  have keptAfter := after.kept_eq up
  rw [HostBuffers.createHostIoBuf] at taken
  split at taken
  · next err pages mapped =>
    simp only [Option.some.injEq, Prod.mk.injEq] at taken
    obtain ⟨_, rfl, rfl⟩ := taken
    obtain ⟨more, back, gained, given, same⟩ := K.fails mapped
    have passed : account K { s with host := { s.host with pages := pages } } =
        (s.account K).pass more back := by
      simp only [account, Account.pass, gained, given]
      rfl
    rw [← same, ← Account.settled_pass settled]
    exact passed ▸ .rfl
  · next m pages mapped =>
    split at taken
    · cases taken
    · obtain ⟨linked, ran, same⟩ := Option.map_eq_some_iff.mp taken
      simp only [Prod.mk.injEq] at same
      obtain ⟨_, rfl, rfl⟩ := same
      obtain ⟨linked', ran', grown⟩ := list.grow.listInsert list.fresh (Nat.lt_succ_self _)
      obtain rfl : linked' = linked := Option.some.inj (ran'.symm.trans ran)
      obtain ⟨gained, given, clean⟩ := K.maps mapped
      have away : s.host.blocks ∉ (s.account K).holders := by
        rw [account, inv.kept_eq up]
        exact list.fresh
      refine iff_of_true ?_ fun _ => clean
      have more := (Account.settled_gain away (K.held m)).mpr settled
      convert more using 1
      ext1
      · simp [account, Account.gain, gained]
      · simp [account, Account.gain, given]
      · exact (keptAfter.trans grown.walk).trans
          (congrArg (· ++ [s.host.blocks]) (inv.kept_eq up).symm)
      · funext io
        by_cases new : io = s.host.blocks <;> simp [account, Account.gain, new]

theorem delete_account [DecidableEq T] {K : PageItems T β} (inv : OwnershipInv s)
    (up : s.stage = .up) {current : T} {vaddr : BitVec 64} {host : HostBuffers T} {dma : DmaLog}
    (taken : s.host.deleteHostIoBuf s.io.dma current vaddr = some (host, dma))
    (after : OwnershipInv { s with host := host, io := { s.io with dma := dma } }) :
    ∃ io ∈ s.kept, account K { s with host := host, io := { s.io with dma := dma } } =
      (s.account K).settle io := by
  have running : s.stage ≠ .down := by
    rw [up]
    decide
  obtain ⟨list, _⟩ := inv.list running
  have keptAfter := after.kept_eq up
  simp only [HostBuffers.deleteHostIoBuf, HostBuffers.findIobuf_eq list, Option.bind_some,
    Option.bind_eq_some_iff, Option.map_eq_some_iff] at taken
  obtain ⟨io, found, linked, removed, result⟩ := taken
  have member := List.mem_of_find?_eq_some found
  obtain ⟨linked', ran, shorter⟩ := list.listRemove member
  obtain rfl : linked' = linked := Option.some.inj (ran.symm.trans removed)
  simp only [HostBuffers.releaseIobuf, Prod.mk.injEq] at result
  obtain ⟨rfl, rfl⟩ := result
  obtain ⟨gained, given⟩ := K.release (s.host.iobuf io).map s.host.pages
  refine ⟨io, by rwa [inv.kept_eq up], ?_⟩
  ext1
  · exact gained
  · exact given
  · exact (keptAfter.trans shorter.walk).trans (congrArg (List.erase · io) (inv.kept_eq up).symm)
  · rfl

theorem clearRound_account {K : PageItems T β} (inv : OwnershipInv s) (running : s.stage ≠ .down)
    {host : HostBuffers T} {dma : DmaLog}
    (taken : s.host.clearHostIoRound s.io.dma = some (host, dma)) :
    ∃ io ∈ s.kept, account K { s with host := host, io := { s.io with dma := dma } } =
      (s.account K).settle io := by
  obtain ⟨list, _⟩ := inv.list running
  rw [HostBuffers.clearHostIoRound] at taken
  split at taken
  · next io next =>
    split at taken
    · cases taken
    · next fresh =>
      obtain ⟨first, front, same⟩ := Option.map_eq_some_iff.mp (list.listNext_head.symm.trans next)
      obtain rfl := NodePtr.node.inj same
      have member := List.mem_of_head? front
      simp only [HostBuffers.releaseIobuf, Option.some.injEq, Prod.mk.injEq] at taken
      obtain ⟨rfl, rfl⟩ := taken
      obtain ⟨gained, given⟩ := K.release (s.host.iobuf first).map s.host.pages
      have kept_eq : s.kept = s.buffers.filter fun io => io ∉ s.host.kfreed := if_neg running
      refine ⟨first, ?_, ?_⟩
      · rw [kept_eq, List.mem_filter]
        exact ⟨member, decide_eq_true fresh⟩
      · ext1
        · exact gained
        · exact given
        · have without : s.buffers.filter (fun io => io ∉ s.host.kfreed ++ [first]) =
              (s.buffers.filter fun io => io ∉ s.host.kfreed).erase first := by
            rw [(list.nodup.filter _).erase_eq_filter, List.filter_filter]
            refine List.filter_congr fun io _ => ?_
            simp [and_comm, bne, beq_eq_decide]
          exact (if_neg running).trans (without.trans (congrArg (List.erase · first) kept_eq.symm))
        · rfl
  · cases taken

theorem settled_step [DecidableEq T] (K : PageItems T β) (inv : OwnershipInv s)
    (settled : (s.account K).Settled) {e : DriverEvent T} (taken : s.step e = some s') :
    (s'.account K).Settled ↔ mapsClean K s e := by
  have after := inv.step taken
  have same (equal : s'.account K = s.account K) : (s'.account K).Settled ↔ True :=
    iff_of_true (equal ▸ settled) trivial
  have takes := step_takes taken
  cases e with
  | adminInit input =>
      obtain ⟨down, rfl⟩ := takes
      refine same ?_
      have none_kept : s.kept = [] := if_pos down
      have none_listed : (s.adminInit input).kept = [] := by
        rw [after.kept_eq rfl]
        exact (BlockList.listInit _ s.host.blocks).walk
      ext1
      · rfl
      · rfl
      · exact none_listed.trans none_kept.symm
      · rfl
  | createPair cqAddr sqAddr cqStatus sqStatus =>
      obtain ⟨_, rfl⟩ := takes
      exact same rfl
  | deletePair i sqStatus cqStatus =>
      obtain ⟨_, _, io, _, rfl⟩ := takes
      exact same rfl
  | createHostIoBuf current env pageSize pagesPerEntry numEntries vaddr prpAddr =>
      obtain ⟨up, result, host, dma, created, rfl⟩ := takes
      exact create_account inv up settled created after
  | deleteHostIoBuf current vaddr =>
      obtain ⟨up, host, dma, deleted, rfl⟩ := takes
      obtain ⟨io, member, equal⟩ := delete_account (K := K) inv up deleted after
      exact iff_of_true (equal ▸ (Account.settled_settle member).mpr settled) trivial
  | adminClean statuses =>
      obtain ⟨up, cleaned⟩ := takes
      obtain ⟨io, _, rfl⟩ := Option.map_eq_some_iff.mp cleaned
      refine same ?_
      ext1
      · rfl
      · rfl
      · simp [account, kept, buffers, up]
      · rfl
  | clearHostIoRound =>
      obtain ⟨clearing, host, dma, round, rfl⟩ := takes
      have running : s.stage ≠ .down := by
        rw [clearing]
        decide
      obtain ⟨io, member, equal⟩ := clearRound_account (K := K) inv running round
      exact iff_of_true (equal ▸ (Account.settled_settle member).mpr settled) trivial
  | cleared =>
      obtain ⟨clearing, ended, rfl⟩ := takes
      have running : s.stage ≠ .down := by
        rw [clearing]
        decide
      obtain ⟨list, _⟩ := inv.list running
      have empty : s.buffers = [] := by
        rw [list.listNext_head, Option.map_eq_none_iff, List.head?_eq_none_iff] at ended
        exact ended
      refine same ?_
      ext1
      · rfl
      · rfl
      · simp [account, kept, empty]
      · rfl

theorem settled_start [DecidableEq T] (K : PageItems T β) (initial : (machine T).init s)
    (log : K.obtained s.host.pages = [] ∧ K.returned s.host.pages = []) :
    (s.account K).Settled := by
  have none_kept : s.kept = [] := if_pos initial.1
  simp [Account.Settled, account, log, none_kept]

theorem settled_iff [DecidableEq T] (K : PageItems T β) (initial : (machine T).init s)
    (log : K.obtained s.host.pages = [] ∧ K.returned s.host.pages = [])
    (events : List (DriverEvent T)) (ran : (machine T).run s events = some s') :
    (machine T).RunHolds (fun s => (s.account K).Settled) s events ↔
      (machine T).RunMeets (mapsClean K) s events :=
  runHolds_iff OwnershipInv (fun _ _ _ inv _ taken => inv.step taken)
    (fun _ _ _ inv settled _ taken => settled_step K inv settled taken) events
    (.start initial) (settled_start K initial log) (anyEvent_runMeets _ events s) ran

/-- In every run each page pinned is held by one buffer of the list or was put, as often as it
was pinned; and after `admin_clean` every page has been put. -/
theorem pages_settled [DecidableEq T] (s s' : DriverState T) (initial : (machine T).init s)
    (log : s.host.pages = ⟨[], [], [], []⟩) (events : List (DriverEvent T))
    (ran : (machine T).run s events = some s') :
    s'.host.pages.pinned.Perm
        (s'.host.pages.put ++ s'.kept.flatMap fun io => (s'.host.iobuf io).map.pages) ∧
      (s'.stage = .down → s'.host.pages.pinned.Perm s'.host.pages.put) := by
  have clean : (machine T).RunMeets (mapsClean pinnedPages) s events := by
    have always : mapsClean (T := T) pinnedPages = anyEvent := by
      funext s e
      cases e <;> simp [mapsClean, pinnedPages, anyEvent]
    exact always ▸ anyEvent_runMeets _ events s
  have settled := ((settled_iff pinnedPages initial (by simp [pinnedPages, log]) events ran).mpr
    clean).last ran
  refine ⟨settled, fun down => ?_⟩
  have none_kept : s'.kept = [] := if_pos down
  simpa [Account.Settled, account, none_kept, pinnedPages] using settled

/-- In every state of a run the bus addresses mapped are those unmapped and those that the buffers
of the list hold, if and only if no pinned page failed to map. -/
theorem addresses_settled_iff [DecidableEq T] (s s' : DriverState T)
    (initial : (machine T).init s) (log : s.host.pages = ⟨[], [], [], []⟩)
    (events : List (DriverEvent T)) (ran : (machine T).run s events = some s') :
    (machine T).RunHolds (fun s => s.host.pages.mapped.Perm
        (s.host.pages.unmapped ++ s.kept.flatMap fun io => (s.host.iobuf io).map.addresses))
        s events ↔
      (machine T).RunMeets (mapsClean mappedAddresses) s events :=
  settled_iff mappedAddresses initial (by simp [mappedAddresses, log]) events ran

def firstDeleted : List (DriverEvent Unit) :=
  [.adminInit smallInit,
    .createHostIoBuf () (allMapped 2) 4096#64 1#64 2#64 0x10000#64 0x5000#64,
    .createHostIoBuf () (pinsPages 1 fun _ => 0) 4096#64 1#64 2#64 0x20000#64 0x6000#64,
    .deleteHostIoBuf () 0x10008#64]

theorem pages_settled_first_deleted :
    ∃ s : DriverState Unit, s.host.pages.put = [0, 1] ∧ s.kept = [1] ∧
      s.host.pages.pinned.Perm
        (s.host.pages.put ++ s.kept.flatMap fun io => (s.host.iobuf io).map.pages) := by
  have ended : ((machine Unit).run blank firstDeleted).map (fun s => (s.host.pages.put, s.kept)) =
      some ([0, 1], [1]) := by
    decide +kernel
  obtain ⟨s, ran, facts⟩ := Option.map_eq_some_iff.mp ended
  obtain ⟨put, kept⟩ := Prod.mk.inj facts
  exact ⟨s, put, kept, (pages_settled blank s ⟨rfl, rfl, rfl⟩ rfl _ ran).1⟩

theorem addresses_settled_first_deleted :
    (machine Unit).RunHolds (fun s => s.host.pages.mapped.Perm
      (s.host.pages.unmapped ++ s.kept.flatMap fun io => (s.host.iobuf io).map.addresses))
      blank firstDeleted := by
  have returned : ((machine Unit).run blank firstDeleted).isSome = true := by
    decide +kernel
  obtain ⟨s, ran⟩ := Option.isSome_iff_exists.mp returned
  refine (addresses_settled_iff blank s ⟨rfl, rfl, rfl⟩ rfl _ ran).mpr ?_
  refine ⟨trivial, fun _ _ => ⟨fun _ _ k _ => rfl, fun _ _ => ⟨fun _ _ k _ => rfl, fun _ _ =>
    ⟨trivial, fun _ _ => trivial⟩⟩⟩⟩

end DriverState

end BafsNvme
