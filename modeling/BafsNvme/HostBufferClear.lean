import BafsNvme.HostBufferLookup

/-! The whole loop of `clear_host_io_list` and the call of it in `admin_clean`. -/

namespace BafsNvme

open Machine

variable {T : Type}

namespace HostBuffers

/-- `clear_host_io_list`, with `i` buffers counted so far. `none` is a loop that follows a buffer
given back before, or one that has not ended after `fuel` rounds. -/
def clearHostIoList : Nat → HostBuffers T → DmaLog → Nat → Option (Nat × HostBuffers T × DmaLog)
  | 0, _, _, _ => none
  | fuel + 1, s, dma, i =>
      if s.list.listNext (.head ()) = none then some (i, s, dma)
      else
        (s.clearHostIoRound dma).bind fun (s, dma) => clearHostIoList fuel s dma (i + 1)

structure Cleared (s : HostBuffers T) (dma : DmaLog) (seq : List Nat) (i : Nat)
    (s' : HostBuffers T) (dma' : DmaLog) : Prop where
  count : i = seq.length
  list : BlockList s'.list s'.blocks []
  kfreed : s'.kfreed = s.kfreed ++ seq
  maps : s'.pages = seq.foldl (fun log io => unmapAndReleaseMap (s.iobuf io).map log) s.pages
  prp : dma'.frees = dma.frees ++ seq.map fun io =>
    ⟨(s.iobuf io).prpFreeSize.toNat, (s.iobuf io).prpListPhys, (s.iobuf io).prpListDmaAddr⟩

theorem clearHostIoRound_front {s s' : HostBuffers T} {dma dma' : DmaLog} {b : Nat}
    (front : s.list.listNext (.head ()) = some (.node b))
    (round : s.clearHostIoRound dma = some (s', dma')) :
    s'.list.listNext (.head ()) = some (.node b) ∧ b ∈ s'.kfreed := by
  simp only [clearHostIoRound, front] at round
  split at round
  · cases round
  · simp only [releaseIobuf, Option.some.injEq, Prod.mk.injEq] at round
    obtain ⟨rfl, _⟩ := round
    exact ⟨front, List.mem_append_right _ (List.mem_singleton_self b)⟩

theorem clearHostIoList_freed {s : HostBuffers T} {b : Nat}
    (front : s.list.listNext (.head ()) = some (.node b)) (freed : b ∈ s.kfreed) (fuel : Nat)
    (dma : DmaLog) (i : Nat) : s.clearHostIoList fuel dma i = none := by
  cases fuel with
  | zero => rfl
  | succ fuel => simp [clearHostIoList, clearHostIoRound, front, freed]

/-- A list with a buffer in it is never cleared: the second round comes back to the buffer of the
first. -/
theorem clearHostIoList_front {s : HostBuffers T} {b : Nat}
    (front : s.list.listNext (.head ()) = some (.node b)) (fuel : Nat) (dma : DmaLog) (i : Nat) :
    s.clearHostIoList fuel dma i = none := by
  cases fuel with
  | zero => rfl
  | succ fuel =>
      have some_node : s.list.listNext (.head ()) ≠ none := by
        rw [front]
        exact Option.some_ne_none _
      rw [clearHostIoList, if_neg some_node]
      cases round : s.clearHostIoRound dma with
      | none => rfl
      | some after =>
          obtain ⟨again, freed⟩ := clearHostIoRound_front front round
          exact clearHostIoList_freed again freed fuel after.2 (i + 1)

theorem clearHostIoList_empty {s : HostBuffers T} (list : BlockList s.list s.blocks [])
    (dma : DmaLog) (i : Nat) : s.clearHostIoList 1 dma i = some (i, s, dma) := by
  have ended : s.list.listNext (.head ()) = none := list.listNext_head
  rw [clearHostIoList, if_pos ended]

end HostBuffers

theorem deletePairs_returns {P : Nat → QueuePair → Prop} {s : IoState} (hold : PairsHold P s)
    (statuses : Nat → Nat × Nat) (n : Nat) :
    ∃ s', DriverState.deletePairs statuses s n = some s' ∧ PairsHold P s' := by
  induction n with
  | zero => exact ⟨s, rfl, hold⟩
  | succ n ih =>
      obtain ⟨before, ran, held⟩ := ih
      have returns :
          ∃ s', adminDeleteIoQueuePair before n (statuses n).1 (statuses n).2 = some s' := by
        cases marked : before.aqp.queueUseMark n with
        | false => exact ⟨_, IoState.delete_unmarked marked ..⟩
        | true =>
            obtain ⟨pair, listed⟩ := held.listed n marked
            exact ⟨_, IoState.delete_marked marked listed ..⟩
      obtain ⟨s', deleted⟩ := returns
      refine ⟨s', ?_, held.delete deleted⟩
      rw [DriverState.deletePairs, ran, Option.bind_some, deleted]

namespace DriverState

def adminCleanWhole (s : DriverState T) (statuses : Nat → Nat × Nat) (fuel : Nat) :
    Option (Nat × DriverState T) :=
  (s.adminClean statuses).bind fun s =>
    (s.host.clearHostIoList fuel s.io.dma 0).map fun (remaining, host, dma) =>
      (remaining, { s with host := host, io := { s.io with dma := dma }, stage := .down })

def Clears (s : DriverState T) (seq : List Nat) (statuses : Nat → Nat × Nat) : Prop :=
  (∃ fuel i host dma, s.host.clearHostIoList fuel s.io.dma 0 = some (i, host, dma) ∧
    s.host.Cleared s.io.dma seq i host dma) ∧
    ∃ fuel remaining s', s.adminCleanWhole statuses fuel = some (remaining, s')

theorem cleared_iff {s : HostBuffers T} {seq : List Nat} (list : BlockList s.list s.blocks seq)
    (dma : DmaLog) :
    (∃ fuel i host dma', s.clearHostIoList fuel dma 0 = some (i, host, dma') ∧
      s.Cleared dma seq i host dma') ↔ seq = [] := by
  constructor
  · rintro ⟨fuel, i, host, dma', ended, _⟩
    cases seq with
    | nil => rfl
    | cons b rest =>
        have never := HostBuffers.clearHostIoList_front list.listNext_head fuel dma 0
        exact absurd (never.symm.trans ended) (Option.some_ne_none _).symm
  · rintro rfl
    refine ⟨1, 0, s, dma, HostBuffers.clearHostIoList_empty list dma 0, rfl, list, ?_, rfl, ?_⟩
    · exact (List.append_nil _).symm
    · exact (List.append_nil _).symm

theorem adminClean_ends_iff {s : DriverState T} {seq : List Nat}
    (list : BlockList s.host.list s.host.blocks seq) (pairs : PairsHold (fun _ _ => True) s.io)
    (statuses : Nat → Nat × Nat) :
    (∃ fuel remaining s', s.adminCleanWhole statuses fuel = some (remaining, s')) ↔ seq = [] := by
  obtain ⟨io, deleted, _⟩ := deletePairs_returns pairs statuses s.io.aqp.numIoQueuePairsSupported
  constructor
  · rintro ⟨fuel, remaining, s', ended⟩
    rw [adminCleanWhole, adminClean, deleted, Option.map_some, Option.bind_some] at ended
    cases seq with
    | nil => rfl
    | cons b rest =>
        rw [HostBuffers.clearHostIoList_front (b := b) list.listNext_head] at ended
        cases ended
  · rintro rfl
    refine ⟨1, 0, ?_⟩
    rw [adminCleanWhole, adminClean, deleted, Option.map_some, Option.bind_some,
      HostBuffers.clearHostIoList_empty list]
    exact ⟨_, rfl⟩

/-- The list is cleared, and `admin_clean` ends, if and only if there is no buffer in the list. -/
theorem clears_iff (s : DriverState T) (seq : List Nat)
    (list : BlockList s.host.list s.host.blocks seq) (pairs : PairsHold (fun _ _ => True) s.io)
    (statuses : Nat → Nat × Nat) : s.Clears seq statuses ↔ seq = [] := by
  rw [Clears, cleared_iff list, adminClean_ends_iff list pairs, and_self]

theorem pairsListed [DecidableEq T] {s : DriverState T}
    (reached : Reachable (machine T) anyEvent s) (up : s.stage = .up) :
    PairsHold (fun _ _ => True) s.io := by
  obtain ⟨spec, inv⟩ := SizesInv.of_reachable reached
  exact ⟨(inv.pairs up).listed, (inv.pairs up).blocks, fun _ _ _ _ => trivial⟩

theorem clears_after_delete :
    ∃ s : DriverState Unit, (machine Unit).run blank
        [.adminInit smallInit,
          .createHostIoBuf () (allMapped 1) 4096#64 1#64 1#64 0x10000#64 0x5000#64,
          .deleteHostIoBuf () 0x10000#64] = some s ∧ s.Clears [] fun _ => (0, 0) := by
  have begins : Reachable (machine Unit) anyEvent blank := .start ⟨rfl, rfl, rfl⟩
  have ended : ((machine Unit).run blank
      [.adminInit smallInit,
        .createHostIoBuf () (allMapped 1) 4096#64 1#64 1#64 0x10000#64 0x5000#64,
        .deleteHostIoBuf () 0x10000#64]).map (fun s =>
          (s.stage, s.host.list.walk s.host.blocks (s.host.list.listNext (.head ())))) =
      some (.up, []) := by
    decide +kernel
  obtain ⟨s, ran, reached, facts⟩ := begins.computed ended
  simp only [Prod.mk.injEq] at facts
  obtain ⟨up, walked⟩ := facts
  obtain ⟨seq, list⟩ := hostList reached (by rw [up]; decide)
  obtain rfl : seq = [] := list.walk.symm.trans walked
  exact ⟨s, ran, (clears_iff s [] list (pairsListed reached up) _).mpr rfl⟩

/-- With one buffer in the list the second round reads the structure that the first one freed. -/
theorem freed_buffer_followed :
    ¬ ∀ (T : Type) [DecidableEq T] (s : DriverState T), Reachable (machine T) anyEvent s →
      s.stage = .up → ∀ seq, BlockList s.host.list s.host.blocks seq → ∀ statuses,
      s.Clears seq statuses := by
  intro always_clears
  have begins : Reachable (machine Unit) anyEvent blank := .start ⟨rfl, rfl, rfl⟩
  have ended : ((machine Unit).run blank
      [.adminInit smallInit,
        .createHostIoBuf () (allMapped 1) 4096#64 1#64 1#64 0x10000#64 0x5000#64]).map (fun s =>
          (s.stage, s.host.list.walk s.host.blocks (s.host.list.listNext (.head ())))) =
      some (.up, [0]) := by
    decide +kernel
  obtain ⟨s, _, reached, facts⟩ := begins.computed ended
  simp only [Prod.mk.injEq] at facts
  obtain ⟨up, walked⟩ := facts
  obtain ⟨seq, list⟩ := hostList reached (by rw [up]; decide)
  obtain rfl : seq = [0] := list.walk.symm.trans walked
  obtain ⟨cleared, _⟩ := always_clears Unit s reached up [0] list fun _ => (0, 0)
  exact List.cons_ne_nil 0 [] ((cleared_iff list _).mp cleared)

end DriverState

end BafsNvme
