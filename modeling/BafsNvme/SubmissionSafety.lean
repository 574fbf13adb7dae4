import BafsNvme.Fifo
import BafsNvme.SubmissionQueue

/-! What holds in every interleaving of submissions, fetches and SQ cleanups. -/

namespace BafsNvme

open Window RetireCursor Machine

namespace SqSystem

variable {ι : Type}

def InRing (sq : Ring Cmd) (loc : Nat) : Prop :=
  loc < sq.qs ∧ (loc + sq.qs - sq.head) % sq.qs < (sq.tail + sq.qs - sq.head) % sq.qs

structure FetchInv (n low : Nat) (s : SqSystem ι) : Prop where
  devHead : s.devHead = s.fetched.length % n
  inOrder : s.fetched = s.enqueued.zipIdx.take s.fetched.length
  behind : low ≤ s.fetched.length
  notAhead : s.fetched.length ≤ s.enqueued.length
  served : ∀ j, j < s.enqueued.length → ¬ s.Pending j → j < s.fetched.length

theorem FetchInv.fetched_iff {n low : Nat} {s : SqSystem ι} (inv : FetchInv n low s)
    (serial : Nat) : s.Fetched serial ↔ serial < s.fetched.length := by
  constructor
  · rintro ⟨cmd, member⟩
    rw [inv.inOrder] at member
    obtain ⟨i, bound, entry⟩ := List.mem_take_iff_getElem.mp member
    simp only [List.getElem_zipIdx, Nat.zero_add, Prod.mk.injEq] at entry
    omega
  · intro bound
    have whole := inv.notAhead
    refine ⟨s.enqueued[serial], ?_⟩
    rw [inv.inOrder]
    apply List.mem_take_iff_getElem.mpr
    refine ⟨serial, ?_, ?_⟩
    · rw [List.length_zipIdx]
      omega
    · simp

variable [DecidableEq ι]

namespace RingInv

variable {n low : Nat} {s s' : SqSystem ι}

omit [DecidableEq ι] in
theorem next_entry (inv : RingInv n low s) (fetching : FetchInv n low s)
    (more : s.devHead ≠ s.devTail) :
    ∃ cmd, s.enqueued[s.fetched.length]? = some cmd ∧
      s.aqp.sq.addr s.devHead = cmd ∧ s.tag s.devHead = s.fetched.length := by
  have behind := fetching.behind
  have notAll : s.fetched.length ≠ s.enqueued.length := by
    intro all
    apply more
    rw [fetching.devHead, all, SqSystem.devTail, inv.door]
    split
    · next none_sent => simp [none_sent]
    · rfl
  have notAhead := fetching.notAhead
  obtain ⟨stored, tagged⟩ := inv.stored s.fetched.length behind (by omega)
  rw [← fetching.devHead] at stored tagged
  exact ⟨_, stored, rfl, tagged⟩

omit [DecidableEq ι] in
theorem devTail_eq (inv : RingInv n low s) : s.devTail = s.enqueued.length % n := by
  rw [SqSystem.devTail, inv.door]
  split
  · next none_sent => simp [none_sent]
  · rfl

omit [DecidableEq ι] in
/-- A full ring never looks empty to the device. -/
theorem caught_up (inv : RingInv n low s) (fetching : FetchInv n low s)
    (empty : s.devHead = s.devTail) : s.fetched.length = s.enqueued.length := by
  have behind := fetching.behind
  have notAhead := fetching.notAhead
  have room := inv.room
  rw [fetching.devHead, inv.devTail_eq] at empty
  exact slot_inj low ⟨behind, by omega⟩ ⟨by omega, room⟩ empty

end RingInv

omit [DecidableEq ι] in
theorem RingInv.congr {n low : Nat} {s s' : SqSystem ι} (inv : RingInv n low s)
    (ring : s'.aqp.sq = s.aqp.sq) (held : s'.held = s.held) (enqueued : s'.enqueued = s.enqueued)
    (tag : s'.tag = s.tag) : RingInv n low s' := by
  rcases s with ⟨⟨_, _⟩, _, _, _, _, _⟩
  rcases s' with ⟨⟨_, _⟩, _, _, _, _, _⟩
  simp only at ring held enqueued tag
  subst ring held enqueued tag
  exact ⟨inv.size, inv.retiring, inv.atRest, inv.room, inv.tail, inv.door, inv.stored, inv.held,
    inv.serials, inv.cids, inv.table⟩

namespace FetchInv

variable {n low : Nat} {s : SqSystem ι}

omit [DecidableEq ι] in
theorem start (n : Nat) (aqp : AdminRings) : FetchInv n 0 (SqSystem.start (ι := ι) aqp) := by
  constructor <;> simp [SqSystem.start]

theorem accept (inv : FetchInv n low s) {t : ι} (idle : s.held t = none) (cmd : FreshCmd)
    (loc : Nat) (aqp : AdminRings) (cmd_ : Cmd) :
    FetchInv n low (s.accept t cmd loc aqp cmd_) := by
  obtain ⟨devHead, inOrder, behind, notAhead, served⟩ := inv
  constructor
  · exact devHead
  · simp only [SqSystem.accept, List.zipIdx_append]
    rw [List.take_append_of_le_length (by simpa using notAhead)]
    exact inOrder
  · exact behind
  · simp only [SqSystem.accept, List.length_append]
    omega
  · intro j below gone
    simp only [SqSystem.accept, List.length_append, List.length_singleton] at below
    rcases Nat.lt_succ_iff_lt_or_eq.mp below with earlier | rfl
    · apply served j earlier
      rintro ⟨t', h, now, serial⟩
      have other : t' ≠ t := by
        rintro rfl
        simp [idle] at now
      exact gone ⟨t', h, by rw [← now]; exact Function.update_of_ne other .., serial⟩
    · exact absurd ⟨t, _, Function.update_self .., rfl⟩ gone

theorem release {aqp : AdminRings} {r : Nat} (inv : FetchInv n low s) {t : ι} {h : Held}
    (mine : s.held t = some h) (fetched : s.Fetched h.serial)
    (ring : RingInv n (low + r) (s.release t aqp))
    (retired : ∀ j, low ≤ j → j < low + r → ¬ (s.release t aqp).Pending j) :
    FetchInv n (low + r) (s.release t aqp) := by
  have own := (inv.fetched_iff h.serial).mp fetched
  obtain ⟨devHead, inOrder, behind, notAhead, served⟩ := inv
  have stillServed : ∀ j, j < s.enqueued.length → ¬ (s.release t aqp).Pending j →
      j < s.fetched.length := by
    intro j below gone
    by_cases same : j = h.serial
    · omega
    · apply served j below
      rintro ⟨t', h', now, serial⟩
      have other : t' ≠ t := by
        rintro rfl
        rw [mine, Option.some.injEq] at now
        exact same (by rw [← serial, now])
      exact gone ⟨t', h', by rw [← now]; exact Function.update_of_ne other .., serial⟩
  constructor
  · exact devHead
  · exact inOrder
  · rcases Nat.eq_zero_or_pos r with rfl | positive
    · exact behind
    · have ordered := ring.retiring.ordered
      have last := stillServed (low + r - 1) (by simp only [SqSystem.release] at ordered; omega)
        (retired _ (by omega) (by omega))
      simp only [SqSystem.release]
      omega
  · exact notAhead
  · exact stillServed

omit [DecidableEq ι] in
theorem fetchOne (ring : RingInv n low s) (inv : FetchInv n low s)
    (more : s.devHead ≠ s.devTail) :
    FetchInv n low s.fetchOne ∧
      ∃ cmd, s.enqueued[s.fetched.length]? = some cmd ∧
        s.fetchOne.fetched = s.fetched ++ [(cmd, s.fetched.length)] := by
  obtain ⟨cmd, stored, entry, tagged⟩ := ring.next_entry inv more
  have below : s.fetched.length < s.enqueued.length := by
    by_contra beyond
    rw [List.getElem?_eq_none (by omega)] at stored
    cases stored
  have extended : s.fetchOne.fetched = s.fetched ++ [(cmd, s.fetched.length)] := by
    simp only [SqSystem.fetchOne, entry, tagged]
  refine ⟨?_, cmd, stored, extended⟩
  obtain ⟨devHead, inOrder, behind, notAhead, served⟩ := inv
  constructor
  · rw [extended]
    simp only [SqSystem.fetchOne, ring.size, devHead, List.length_append, List.length_singleton,
      slot_succ]
  · have index : s.enqueued.zipIdx[s.fetched.length]? = some (cmd, s.fetched.length) := by
      rw [List.getElem?_zipIdx, stored]
      simp
    rw [extended, List.length_append, List.length_singleton, List.take_add_one]
    simp only [SqSystem.fetchOne, index, Option.toList_some]
    rw [← inOrder]
  · rw [extended, List.length_append]
    omega
  · rw [extended, List.length_append, List.length_singleton]
    exact below
  · intro j bound gone
    rw [extended, List.length_append]
    exact Nat.lt_add_right _ (served j bound gone)

end FetchInv

theorem RingInv.step {n low : Nat} {s s' : SqSystem ι} {e : SqEvent ι} (positive : 0 < n)
    (small : n ≤ 4096) (inv : RingInv n low s)
    (free : sqFull s.aqp.sq = false → SlotFree s.aqp.sq)
    (taken : s.step e = some s') : ∃ low', RingInv n low' s' := by
  cases e with
  | enqueue t cmd =>
      simp only [SqSystem.step] at taken
      split at taken
      · cases taken
      · next idle =>
        have idle : s.held t = none := by simpa using idle
        rcases adminEnqueueCommand_cases s.aqp cmd.1 with ⟨refused, _⟩ | ⟨cid, room, found, accepted⟩
        · simp only [refused, Option.some.injEq] at taken
          exact ⟨low, taken ▸ inv⟩
        · simp only [accepted, Option.some.injEq] at taken
          exact ⟨low, taken ▸ inv.accept small idle (free room) found⟩
  | sqCleanup t =>
      simp only [SqSystem.step] at taken
      split at taken
      · cases taken
      · next h mine =>
        obtain ⟨aqp, r, ended, _, _, kept, _⟩ := inv.release positive small mine
        rw [ended, Option.map_some, Option.some.injEq] at taken
        exact ⟨low + r, taken ▸ kept⟩
  | fetch =>
      simp only [SqSystem.step] at taken
      split at taken
      · cases taken
      · simp only [Option.some.injEq] at taken
        exact ⟨low, taken ▸ inv.congr rfl rfl rfl rfl⟩

def toFifo (s : SqSystem ι) : Fifo Cmd where
  sent := s.enqueued
  waiting := s.enqueued.drop s.fetched.length
  delivered := s.fetched.map Prod.fst

/-- A step taken after the fetch of what it cleans up is a step of the abstract queue. -/
theorem RingInv.step_fifo {n low : Nat} {s s' : SqSystem ι} {e : SqEvent ι} (positive : 0 < n)
    (small : n ≤ 4096) (inv : RingInv n low s) (fetching : FetchInv n low s)
    (free : sqFull s.aqp.sq = false → SlotFree s.aqp.sq) (permitted : s.afterFetch e)
    (taken : s.step e = some s') :
    (∃ low', RingInv n low' s' ∧ FetchInv n low' s') ∧
      (s'.toFifo = s.toFifo ∨ ∃ d, s.toFifo.step d = some s'.toFifo) := by
  cases e with
  | enqueue t cmd =>
      simp only [SqSystem.step] at taken
      split at taken
      · cases taken
      · next idle =>
        have idle : s.held t = none := by simpa using idle
        rcases adminEnqueueCommand_cases s.aqp cmd.1 with ⟨refused, _⟩ | ⟨cid, room, found, accepted⟩
        · simp only [refused, Option.some.injEq] at taken
          subst taken
          exact ⟨⟨low, inv, fetching⟩, .inl rfl⟩
        · simp only [accepted, Option.some.injEq] at taken
          subst taken
          refine ⟨⟨low, inv.accept small idle (free room) found, fetching.accept idle ..⟩,
            .inr ⟨.push (cmd.1.withCid cid), ?_⟩⟩
          have notAhead := fetching.notAhead
          simp [Fifo.step, toFifo, SqSystem.accept, List.drop_append_of_le_length notAhead]
  | sqCleanup t =>
      simp only [SqSystem.step] at taken
      split at taken
      · cases taken
      · next h mine =>
        obtain ⟨aqp, r, ended, _, _, kept, retired⟩ := inv.release positive small mine
        rw [ended, Option.map_some, Option.some.injEq] at taken
        subst taken
        exact ⟨⟨low + r, kept, fetching.release mine (permitted h mine) kept retired⟩, .inl rfl⟩
  | fetch =>
      simp only [SqSystem.step] at taken
      split at taken
      · cases taken
      · next more =>
        simp only [Option.some.injEq] at taken
        subst taken
        obtain ⟨fetched, cmd, stored, extended⟩ := fetching.fetchOne inv more
        refine ⟨⟨low, inv.congr rfl rfl rfl rfl, fetched⟩, .inr ⟨.pop, ?_⟩⟩
        obtain ⟨below, entry⟩ := List.getElem?_eq_some_iff.mp stored
        have waiting : s.enqueued.drop s.fetched.length =
            cmd :: s.enqueued.drop (s.fetched.length + 1) := by
          rw [List.drop_eq_getElem_cons below, entry]
        simp only [Fifo.step, toFifo, extended, waiting, List.length_append, List.length_singleton,
          List.map_append]
        rfl

theorem power_size_divides {cap0 : Dword} (power : ∃ k, initQueueSize cap0 = 2 ^ (k + 1)) :
    initQueueSize cap0 ∣ 2 ^ 16 := by
  obtain ⟨k, size⟩ := power
  have bound := (initQueueSize_bounds cap0).2
  rw [size] at bound ⊢
  apply Nat.pow_dvd_pow
  by_contra large
  have grows : 2 ^ 13 ≤ 2 ^ (k + 1) := Nat.pow_le_pow_right (by norm_num) (by omega)
  omega

omit [DecidableEq ι] in
theorem RingInv.exact_full {n low : Nat} {s : SqSystem ι} (positive : 0 < n)
    (divides : n ∣ 2 ^ 16) (inv : RingInv n low s) :
    sqFull s.aqp.sq = false → SlotFree s.aqp.sq := by
  intro notFull
  have full : sqFull s.aqp.sq = true ↔ ¬ SlotFree s.aqp.sq := sqFull_exact (by rwa [inv.size])
    (by rw [inv.size]; exact inv.head_lt positive)
  by_contra occupied
  rw [full.mpr occupied] at notFull
  cases notFull

structure HeldSlotsSafe (s : SqSystem ι) : Prop where
  slots_distinct : ∀ t t' h h', s.held t = some h → s.held t' = some h' → t ≠ t' → h.loc ≠ h'.loc
  slots_in_ring : ∀ t h, s.held t = some h → InRing s.aqp.sq h.loc
  cids_distinct : ∀ t t' h h', s.held t = some h → s.held t' = some h' → t ≠ t' → h.cid ≠ h'.cid
  table_exact : ∀ c, s.aqp.sq.cid c = true ↔ ∃ t h, s.held t = some h ∧ h.cid = c
  entry_kept : ∀ t h, s.held t = some h →
    s.aqp.sq.addr h.loc = h.submitted.1.withCid h.cid ∧ (s.aqp.sq.addr h.loc).cid = h.cid
  cleanup_frees_own : ∀ t h, s.held t = some h → ∃ aqp, adminSqMarkCleanup s.aqp h.loc = some aqp ∧
    aqp.sq.cid = Function.update s.aqp.sq.cid h.cid false
  cid_left : ∃ cid, nextCid s.aqp.sq = some cid

theorem RingInv.safe {n low : Nat} {s : SqSystem ι} (positive : 0 < n) (small : n ≤ 4096)
    (inv : RingInv n low s) : HeldSlotsSafe s where
  slots_distinct := by
    intro t t' h h' now now' different slots
    obtain ⟨above, below, slot, _⟩ := inv.held t h now
    obtain ⟨above', below', slot', _⟩ := inv.held t' h' now'
    have room := inv.room
    rw [slot, slot'] at slots
    exact different (inv.serials _ _ _ _ now now'
      (slot_inj low ⟨above, by omega⟩ ⟨above', by omega⟩ slots))
  slots_in_ring := by
    intro t h now
    obtain ⟨above, below, slot, _⟩ := inv.held t h now
    have room := inv.room
    rw [InRing, inv.size, inv.tail, inv.retiring.placed.1, slot, slot_offset ⟨above, by omega⟩,
      slot_offset ⟨by omega, room⟩]
    exact ⟨Nat.mod_lt _ positive, by omega⟩
  cids_distinct := fun t t' h h' now now' different same =>
    different (inv.cids _ _ _ _ now now' same)
  table_exact := inv.table
  entry_kept := by
    intro t h now
    obtain ⟨_, _, _, _, built, _⟩ := inv.held t h now
    obtain ⟨entry, cid⟩ := inv.held_cid now
    exact ⟨entry.trans built, cid⟩
  cleanup_frees_own := by
    intro t h now
    obtain ⟨aqp, _, ended, freed, _⟩ := inv.release positive small now
    exact ⟨aqp, ended, freed⟩
  cid_left := inv.cid_available small

/-- With a power-of-two admin queue every interleaving of enqueues and SQ cleanups keeps the
clients' slots, their CIDs and the ring memory intact. -/
theorem held_slots_safe (cap0 : Dword) (power : ∃ k, initQueueSize cap0 = 2 ^ (k + 1))
    (s : SqSystem ι) (reached : Reachable (machine ι (initQueueSize cap0)) anyEvent s) :
    HeldSlotsSafe s := by
  obtain ⟨positive, small⟩ := initQueueSize_bounds cap0
  have divides := power_size_divides power
  have inv : ∃ low, RingInv (initQueueSize cap0) low s := by
    refine reached.invariant (P := fun s => ∃ low, RingInv (initQueueSize cap0) low s) ?_ ?_
    · rintro s ⟨cqAddr, sqAddr, rfl⟩
      exact ⟨0, RingInv.start _ positive cqAddr sqAddr⟩
    · rintro s e s' ⟨low, inv⟩ _ taken
      exact inv.step positive small (inv.exact_full positive divides) taken
  obtain ⟨low, inv⟩ := inv
  exact inv.safe positive small

theorem held_slots_safe_out_of_order :
    ∃ s, (machine Bool (initQueueSize 3#32)).run
        (start (adminInitRings (initQueueSize 3#32) (fun _ => Cpl.zero) fun _ => clearCmd))
        [.enqueue true devSelfTestCmd, .enqueue false devSelfTestCmd, .sqCleanup true,
          .enqueue true devSelfTestCmd] = some s ∧ HeldSlotsSafe s := by
  have begins : Reachable (machine Bool (initQueueSize 3#32)) anyEvent
      (start (adminInitRings (initQueueSize 3#32) (fun _ => Cpl.zero) fun _ => clearCmd)) :=
    .start ⟨_, _, rfl⟩
  have ended : ((machine Bool (initQueueSize 3#32)).run
      (start (adminInitRings (initQueueSize 3#32) (fun _ => Cpl.zero) fun _ => clearCmd))
      [.enqueue true devSelfTestCmd, .enqueue false devSelfTestCmd, .sqCleanup true,
        .enqueue true devSelfTestCmd]).isSome = true := by
    decide +kernel
  obtain ⟨s, ran⟩ := Option.isSome_iff_exists.mp ended
  exact ⟨s, ran, held_slots_safe 3#32 ⟨1, by decide⟩ s (begins.extendAny _ ran)⟩

end SqSystem

end BafsNvme
