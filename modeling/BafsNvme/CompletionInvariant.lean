import BafsNvme.CompletionQueue
import Mathlib.Data.Finset.Insert

/-! The invariant behind a hit of `admin_cq_poll`, and the runs that keep it. -/

namespace BafsNvme

open Window RetireCursor Machine

namespace AdminSystem

variable {ι : Type}

/-- The CID a submission would take is carried by no completion that the CQ head has not yet
passed, and the slot it would take is really free. -/
def FreshCid (s : AdminSystem ι) : Prop :=
  ∀ cid, sqFull s.sub.aqp.sq = false → nextCid s.sub.aqp.sq = some cid →
    SlotFree s.sub.aqp.sq ∧
      ∀ l p, l < s.sub.aqp.cq.qs → s.cqTag l = some p → (s.sub.aqp.cq.addr l).cid = cid →
        p < s.cqPassed

def freshEnqueue (s : AdminSystem ι) : AdminEvent ι → Prop
  | .enqueue _ _ => s.FreshCid
  | _ => True

def hasFreshCid (s : AdminSystem ι) : Bool :=
  let sq := s.sub.aqp.sq
  let cq := s.sub.aqp.cq
  sqFull sq || (nextCid sq).all fun cid => (sq.tail + sq.qs - sq.head) % sq.qs != sq.qs - 1 &&
    (List.range cq.qs).all fun l => (s.cqTag l).all fun p =>
      (cq.addr l).cid != cid || decide (p < s.cqPassed)

theorem freshCid_iff (s : AdminSystem ι) : s.FreshCid ↔ s.hasFreshCid = true := by
  simp only [FreshCid, SlotFree, hasFreshCid, Bool.or_eq_true, Option.all_eq_true, Bool.and_eq_true,
    bne_iff_ne, List.all_eq_true, List.mem_range, decide_eq_true_iff]
  cases full : sqFull s.sub.aqp.sq with
  | true => simp
  | false =>
      simp only [true_implies, Bool.false_eq_true, false_or]
      apply forall₂_congr
      intro cid _
      apply and_congr_right
      intro _
      constructor
      · intro stale l bound p tagged
        by_cases same : (s.sub.aqp.cq.addr l).cid = cid
        · exact .inr (stale l p bound tagged same)
        · exact .inl same
      · intro stale l p bound tagged same
        exact (stale l bound p tagged).resolve_left fun other => other same

instance (s : AdminSystem ι) : Decidable s.FreshCid :=
  decidable_of_iff' _ s.freshCid_iff

instance (s : AdminSystem ι) (e : AdminEvent ι) : Decidable (s.freshEnqueue e) :=
  match e with
  | .enqueue _ _ => inferInstanceAs (Decidable s.FreshCid)
  | .poll _ | .sqCleanup _ | .cqCleanup _ | .fetch | .post .. => .isTrue trivial

structure DeviceInv (n : Nat) (s : AdminSystem ι) : Prop where
  cqSize : s.sub.aqp.cq.qs = n
  tail : s.cqTail = s.posted.length % n
  phase : s.cqPhase = passPhase n s.posted.length
  empty : ∀ l, l < n → s.cqTag l = none →
    s.posted.length ≤ l ∧ (s.sub.aqp.cq.addr l).phase = false
  latest : ∀ l p, l < n → s.cqTag l = some p → p < s.posted.length ∧ s.posted.length ≤ p + n ∧
    p % n = l ∧ (s.sub.aqp.cq.addr l).phase = passPhase n p ∧
    ∃ serial, s.posted[p]? = some (s.sub.aqp.cq.addr l, serial)
  answers : ∀ cpl serial, (cpl, serial) ∈ s.posted → serial < s.sub.fetched.length
  answered : ∀ cpl serial, (cpl, serial) ∈ s.posted →
    ∃ cmd, s.sub.enqueued[serial]? = some cmd ∧ cpl.cid = cmd.cid
  flying : ∀ cmd serial, (cmd, serial) ∈ s.inflight →
    serial < s.sub.fetched.length ∧ s.sub.enqueued[serial]? = some cmd
  once : (s.posted.map Prod.snd ++ s.inflight.map Prod.snd).Nodup

/-- The client side: who still polls, who has seen which completion, and which serial
numbers `retired` have been through their CQ cleanup. -/
structure ClientInv (n : Nat) (retired : Finset Nat) (s : AdminSystem ι) : Prop where
  cursor : At n s.cqPassed s.sub.aqp.cq.toRetireCursor
  waiting : ∀ k, k < s.sub.enqueued.length → ¬ s.Posted k →
    ∃ t h, s.sub.held t = some h ∧ h.serial = k ∧ s.seen t = none
  seenPosted : ∀ t v, s.seen t = some v → s.Posted v.serial
  seenOnce : ∀ t t' v v', s.seen t = some v → s.seen t' = some v' → v.serial = v'.serial → t = t'
  heldSeen : ∀ t t' h v, s.sub.held t = some h → s.seen t' = some v → h.serial = v.serial → t = t'
  seenHeld : ∀ t h v, s.sub.held t = some h → s.seen t = some v → h.serial = v.serial
  retiredPosted : ∀ k ∈ retired, s.Posted k
  seenNotRetired : ∀ t v, s.seen t = some v → v.serial ∉ retired
  heldNotRetired : ∀ t h, s.sub.held t = some h → h.serial ∉ retired
  passed : s.cqPassed + setCount s.sub.aqp.cq.mark n ≤ retired.card
  fresh : ∀ t h l p serial, s.sub.held t = some h → s.seen t = none → l < n →
    s.cqTag l = some p → (s.sub.aqp.cq.addr l).cid = h.cid → s.cqPassed ≤ p →
    s.posted[p]? = some (s.sub.aqp.cq.addr l, serial) → serial = h.serial

structure AdminInv (n low : Nat) (retired : Finset Nat) (s : AdminSystem ι) : Prop where
  ring : s.sub.RingInv n low
  fetching : s.sub.FetchInv n low
  device : DeviceInv n s
  clients : ClientInv n retired s

theorem posted_iff (s : AdminSystem ι) (serial : Nat) :
    s.Posted serial ↔ serial ∈ s.posted.map Prod.snd := by
  simp [Posted]

namespace AdminInv

variable {n low : Nat} {retired : Finset Nat} {s : AdminSystem ι}

theorem start (positive : 0 < n) {cqAddr : Nat → Cpl} (clear : PhasesClear n cqAddr)
    (sqAddr : Nat → Cmd) : AdminInv (ι := ι) n 0 ∅ (start (adminInitRings n cqAddr sqAddr)) where
  ring := SqSystem.RingInv.start n positive _ sqAddr
  fetching := SqSystem.FetchInv.start n _
  device := by
    constructor
    case empty =>
      intro l below _
      exact ⟨Nat.zero_le l, clear l below⟩
    all_goals simp [AdminSystem.start, SqSystem.start, adminInitRings, passPhase_zero]
  clients := by
    constructor
    · exact ⟨by simp [AdminSystem.start, SqSystem.start, adminInitRings],
        by simp [AdminSystem.start, SqSystem.start, adminInitRings, passPhase_zero]⟩
    case passed =>
      have clear : setCount (fun _ => false) n = 0 := setCount_eq_zero.mpr (by simp)
      simp [AdminSystem.start, SqSystem.start, adminInitRings, clear]
    all_goals simp [AdminSystem.start, SqSystem.start, Posted]

theorem passed_le (inv : AdminInv n low retired s) : s.cqPassed ≤ s.posted.length := by
  have within : retired ⊆ (s.posted.map Prod.snd).toFinset := by
    intro k member
    rw [List.mem_toFinset, ← posted_iff]
    exact inv.clients.retiredPosted k member
  have counted := Finset.card_le_card within
  have distinct := (List.nodup_append.mp inv.device.once).1
  rw [List.toFinset_card_of_nodup distinct, List.length_map] at counted
  have passed := inv.clients.passed
  omega

theorem cq_head_lt (positive : 0 < n) (inv : AdminInv n low retired s) :
    s.sub.aqp.cq.head < s.sub.aqp.cq.qs := by
  rw [inv.device.cqSize, inv.clients.cursor.1]
  exact Nat.mod_lt _ positive

/-- A slot the poll of a waiting client stops at holds the answer to its command: entries
that the head has passed are a whole pass behind, so the device would have overwritten them. -/
theorem hit_answers (positive : 0 < n) (inv : AdminInv n low retired s) {t : ι} {h : Held}
    {l : Nat} (mine : s.sub.held t = some h) (unseen : s.seen t = none)
    (hit : adminCqPoll s.sub.aqp h.cid = some l) : s.Answers l h.serial := by
  obtain ⟨above, below, cid, phase⟩ := adminCqPoll_some (inv.cq_head_lt positive) hit
  obtain ⟨headSlot, headPhase⟩ := inv.clients.cursor
  rw [inv.device.cqSize] at below
  have notPassed := inv.passed_le
  cases tagged : s.cqTag l with
  | none =>
      obtain ⟨unposted, dark⟩ := inv.device.empty l below tagged
      have first := passPhase_first (n := n) (k := s.cqPassed) (by omega)
      rw [dark, headPhase, first] at phase
      cases phase
  | some p =>
      obtain ⟨_, recent, slot, entryPhase, serial, entry⟩ := inv.device.latest l p below tagged
      have current : s.cqPassed ≤ p := by
        by_contra behind
        have gap := same_phase_behind positive (Nat.lt_of_not_le behind)
          (by rw [slot, ← headSlot]; exact above) (by rw [← entryPhase, phase, headPhase])
        omega
      have own := inv.clients.fresh t h l p serial mine unseen below tagged cid current entry
      exact ⟨p, tagged, own ▸ entry⟩

variable [DecidableEq ι]

omit [DecidableEq ι] in
theorem posted_lt (device : DeviceInv n s)
    (notAhead : s.sub.fetched.length ≤ s.sub.enqueued.length) {k : Nat} (posted : s.Posted k) :
    k < s.sub.enqueued.length := by
  obtain ⟨cpl, member⟩ := posted
  exact (device.answers cpl k member).trans_le notAhead

theorem accept_device (device : DeviceInv n s)
    (notAhead : s.sub.fetched.length ≤ s.sub.enqueued.length) (t : ι) (cmd : FreshCmd)
    (loc cid : Nat) :
    DeviceInv n { s with
      sub := s.sub.accept t cmd loc { s.sub.aqp with sq := sqPush s.sub.aqp.sq cid cmd }
        (cmd.1.withCid cid) } := by
  constructor
  · exact device.cqSize
  · exact device.tail
  · exact device.phase
  · exact device.empty
  · exact device.latest
  · exact device.answers
  · intro cpl serial member
    obtain ⟨command, stored, same⟩ := device.answered cpl serial member
    refine ⟨command, ?_, same⟩
    simp only [SqSystem.accept]
    rwa [List.getElem?_append_left (posted_lt device notAhead ⟨cpl, member⟩)]
  · intro command serial member
    obtain ⟨bound, stored⟩ := device.flying command serial member
    refine ⟨bound, ?_⟩
    simp only [SqSystem.accept]
    rwa [List.getElem?_append_left (bound.trans_le notAhead)]
  · exact device.once

/-- The client side: the new holder waits, and no completion it could see carries its CID. -/
theorem accept_clients (clients : ClientInv n retired s)
    (before : ∀ k, s.Posted k → k < s.sub.enqueued.length) {t : ι} {cmd : FreshCmd} {loc cid : Nat}
    (idle : s.sub.held t = none) (unseen : s.seen t = none) (ownCid : (cmd.1.withCid cid).cid = cid)
    (stale : ∀ l p, l < n → s.cqTag l = some p → (s.sub.aqp.cq.addr l).cid = cid → p < s.cqPassed) :
    ClientInv n retired { s with
      sub := s.sub.accept t cmd loc { s.sub.aqp with sq := sqPush s.sub.aqp.sq cid cmd }
        (cmd.1.withCid cid) } := by
  constructor
  · exact clients.cursor
  · intro k below unanswered
    simp only [SqSystem.accept, List.length_append, List.length_singleton] at below
    rcases Nat.lt_succ_iff_lt_or_eq.mp below with earlier | rfl
    · obtain ⟨t', h, now, serial, polling⟩ := clients.waiting k earlier unanswered
      exact ⟨t', h, SqSystem.held_beside idle now, serial, polling⟩
    · exact ⟨t, _, Function.update_self .., rfl, unseen⟩
  · exact clients.seenPosted
  · exact clients.seenOnce
  · intro t₁ t₂ h v now seen same
    rcases SqSystem.held_update now with ⟨rfl, rfl⟩ | ⟨_, old⟩
    · exact absurd same (before v.serial (clients.seenPosted t₂ v seen)).ne'
    · exact clients.heldSeen t₁ t₂ h v old seen same
  · intro t' h v now seen
    rcases SqSystem.held_update now with ⟨rfl, _⟩ | ⟨_, old⟩
    · simp [unseen] at seen
    · exact clients.seenHeld t' h v old seen
  · exact clients.retiredPosted
  · exact clients.seenNotRetired
  · intro t' h now member
    rcases SqSystem.held_update now with ⟨_, rfl⟩ | ⟨_, old⟩
    · exact lt_irrefl _ (before _ (clients.retiredPosted _ member))
    · exact clients.heldNotRetired t' h old member
  · exact clients.passed
  · intro t' h l p serial now polling bound tagged same current entry
    rcases SqSystem.held_update now with ⟨_, rfl⟩ | ⟨_, old⟩
    · simp only [Held.cid, ownCid] at same
      exact absurd current (Nat.not_le.mpr (stale l p bound tagged same))
    · exact clients.fresh t' h l p serial old polling bound tagged same current entry

theorem accept (small : n ≤ 4096) (inv : AdminInv n low retired s) {t : ι} {cmd : FreshCmd}
    {cid : Nat} (idle : s.sub.held t = none) (unseen : s.seen t = none) (free : s.FreshCid)
    (room : sqFull s.sub.aqp.sq = false) (found : nextCid s.sub.aqp.sq = some cid) :
    AdminInv n low retired { s with
      sub := s.sub.accept t cmd (s.sub.aqp.sq.tail % 2 ^ 16)
        { s.sub.aqp with sq := sqPush s.sub.aqp.sq cid cmd } (cmd.1.withCid cid) } := by
  obtain ⟨slotFree, cidFresh⟩ := free cid room found
  obtain ⟨ring, fetching, device, clients⟩ := inv
  have notAhead := fetching.notAhead
  have ownCid : (cmd.1.withCid cid).cid = cid := by
    obtain ⟨_, bound, _⟩ := firstFree_some found
    rw [Nat.zero_add] at bound
    exact Cmd.withCid_cid cmd.2 bound
  rw [device.cqSize] at cidFresh
  exact ⟨ring.accept small idle slotFree found, fetching.accept idle ..,
    accept_device device notAhead t cmd _ cid,
    accept_clients clients (fun _ => posted_lt device notAhead) idle unseen ownCid cidFresh⟩

theorem see (positive : 0 < n) (inv : AdminInv n low retired s) {t : ι} {h : Held} {l : Nat}
    (mine : s.sub.held t = some h) (unseen : s.seen t = none)
    (hit : adminCqPoll s.sub.aqp h.cid = some l) :
    AdminInv n low retired { s with seen := Function.update s.seen t (some ⟨l, h.serial⟩) } := by
  obtain ⟨_, _, entry⟩ := inv.hit_answers positive mine unseen hit
  have posted : s.Posted h.serial := ⟨_, List.mem_of_getElem? entry⟩
  obtain ⟨ring, fetching, device, clients⟩ := inv
  refine ⟨ring, fetching, ⟨device.cqSize, device.tail, device.phase, device.empty, device.latest,
    device.answers, device.answered, device.flying, device.once⟩, ?_⟩
  have split : ∀ t' v, Function.update s.seen t (some ⟨l, h.serial⟩) t' = some v →
      (t' = t ∧ v.serial = h.serial) ∨ (t' ≠ t ∧ s.seen t' = some v) :=
    fun t' v now => (SqSystem.held_update now).imp_left fun own => ⟨own.1, by rw [own.2]⟩
  constructor
  · exact clients.cursor
  · intro k below unanswered
    obtain ⟨t', h', now, serial, polling⟩ := clients.waiting k below unanswered
    have other : t' ≠ t := by
      rintro rfl
      rw [mine, Option.some.injEq] at now
      exact unanswered (by rw [← serial, ← now]; exact posted)
    exact ⟨t', h', now, serial, by rw [← polling]; exact Function.update_of_ne other ..⟩
  · intro t' v now
    rcases split t' v now with ⟨_, same⟩ | ⟨_, old⟩
    · exact same ▸ posted
    · exact clients.seenPosted t' v old
  · intro t₁ t₂ v₁ v₂
    apply SqSystem.held_apart Seen.serial clients.seenOnce
    intro t' v old clash
    obtain rfl := clients.heldSeen t t' h v mine old clash.symm
    rw [unseen] at old
    cases old
  · intro t₁ t₂ h' v now seen same
    rcases split t₂ v seen with ⟨rfl, own⟩ | ⟨_, old⟩
    · exact ring.serials _ _ _ _ now mine (same.trans own)
    · exact clients.heldSeen t₁ t₂ h' v now old same
  · intro t' h' v now seen
    rcases split t' v seen with ⟨rfl, own⟩ | ⟨_, old⟩
    · rw [mine, Option.some.injEq] at now
      rw [own, ← now]
    · exact clients.seenHeld t' h' v now old
  · exact clients.retiredPosted
  · intro t' v now
    rcases split t' v now with ⟨_, same⟩ | ⟨_, old⟩
    · exact same ▸ clients.heldNotRetired t h mine
    · exact clients.seenNotRetired t' v old
  · exact clients.heldNotRetired
  · exact clients.passed
  · intro t' h' l' p serial now polling
    have other : t' ≠ t := by
      rintro rfl
      simp at polling
    simp only [Function.update_of_ne other] at polling
    exact clients.fresh t' h' l' p serial now polling

theorem release (positive : 0 < n) (small : n ≤ 4096) (inv : AdminInv n low retired s) {t : ι}
    {h : Held} {v : Seen} (mine : s.sub.held t = some h) (seen : s.seen t = some v) :
    ∃ aqp r, adminSqMarkCleanup s.sub.aqp h.loc = some aqp ∧
      AdminInv n (low + r) retired { s with sub := s.sub.release t aqp } := by
  obtain ⟨ring, fetching, device, clients⟩ := inv
  obtain ⟨aqp, r, ended, _, sameCq, kept, gone⟩ := ring.release positive small mine
  have fetched : s.sub.Fetched h.serial := by
    rw [fetching.fetched_iff, clients.seenHeld t h v mine seen]
    obtain ⟨cpl, member⟩ := clients.seenPosted t v seen
    exact device.answers cpl v.serial member
  refine ⟨aqp, r, ended, kept, fetching.release mine fetched kept gone, ?_, ?_⟩
  · constructor
    · simpa only [SqSystem.release, sameCq] using device.cqSize
    · exact device.tail
    · exact device.phase
    · simpa only [SqSystem.release, sameCq] using device.empty
    · simpa only [SqSystem.release, sameCq] using device.latest
    · exact device.answers
    · exact device.answered
    · exact device.flying
    · exact device.once
  · constructor
    · simpa only [SqSystem.release, sameCq] using clients.cursor
    · intro k below unanswered
      obtain ⟨t', h', now, serial, polling⟩ := clients.waiting k below unanswered
      have other : t' ≠ t := by
        rintro rfl
        simp [seen] at polling
      exact ⟨t', h', by rw [← now]; exact Function.update_of_ne other .., serial, polling⟩
    · exact clients.seenPosted
    · exact clients.seenOnce
    · intro t₁ t₂ h' v' now
      exact clients.heldSeen t₁ t₂ h' v' (SqSystem.held_drop now).2
    · intro t' h' v' now
      exact clients.seenHeld t' h' v' (SqSystem.held_drop now).2
    · exact clients.retiredPosted
    · exact clients.seenNotRetired
    · intro t' h' now
      exact clients.heldNotRetired t' h' (SqSystem.held_drop now).2
    · simpa only [SqSystem.release, sameCq] using clients.passed
    · intro t' h' l p serial now
      simpa only [SqSystem.release, sameCq] using
        clients.fresh t' h' l p serial (SqSystem.held_drop now).2

/-- A CQ cleanup: the sweep passes at most as many slots as clients have retired. -/
theorem retire (positive : 0 < n) (small : n ≤ 4096) (inv : AdminInv n low retired s) {t : ι}
    {v : Seen} (gone : s.sub.held t = none) (seen : s.seen t = some v) :
    ∃ aqp, adminCqMarkCleanup s.sub.aqp v.slot = some aqp ∧
      AdminInv n low (insert v.serial retired) (s.retire t aqp) := by
  have headBound := inv.cq_head_lt positive
  obtain ⟨ring, fetching, device, clients⟩ := inv
  obtain ⟨r, c, short, moves, ended⟩ := adminCqMarkCleanup_swept s.sub.aqp v.slot headBound
    (by rw [device.cqSize]; exact small)
  rw [device.cqSize] at moves short headBound
  have placed : At n (s.cqPassed + r) c := moves.at positive clients.cursor
  have spent := moves.setCount headBound
  have marked := setCount_set_le s.sub.aqp.cq.mark n v.slot
  have moved := headMoves_eq positive clients.cursor placed short
  have others : ∀ t' v', (Function.update s.seen t none) t' = some v' →
      t' ≠ t ∧ s.seen t' = some v' := fun t' v' now => SqSystem.held_drop now
  refine ⟨_, ended, ring.congr rfl rfl rfl rfl, ?_, ?_, ?_⟩
  · exact ⟨fetching.devHead, fetching.inOrder, fetching.behind, fetching.notAhead,
      fetching.served⟩
  · exact ⟨device.cqSize, device.tail, device.phase, device.empty, device.latest,
      device.answers, device.answered, device.flying, device.once⟩
  · constructor
    · simpa only [AdminSystem.retire, withRings, device.cqSize, moved] using placed
    · intro k below unanswered
      obtain ⟨t', h, now, serial, polling⟩ := clients.waiting k below unanswered
      refine ⟨t', h, now, serial, ?_⟩
      have other : t' ≠ t := by
        rintro rfl
        simp [seen] at polling
      rw [← polling]
      exact Function.update_of_ne other ..
    · intro t' v' now
      exact clients.seenPosted t' v' (others t' v' now).2
    · intro t₁ t₂ v₁ v₂ now₁ now₂
      exact clients.seenOnce t₁ t₂ v₁ v₂ (others _ _ now₁).2 (others _ _ now₂).2
    · intro t₁ t₂ h v' now seen'
      exact clients.heldSeen t₁ t₂ h v' now (others _ _ seen').2
    · intro t' h v' now seen'
      exact clients.seenHeld t' h v' now (others _ _ seen').2
    · intro k member
      rcases Finset.mem_insert.mp member with rfl | old
      · exact clients.seenPosted t v seen
      · exact clients.retiredPosted k old
    · intro t' v' now member
      obtain ⟨other, old⟩ := others t' v' now
      rcases Finset.mem_insert.mp member with same | before
      · exact other (clients.seenOnce t' t v' v old seen same)
      · exact clients.seenNotRetired t' v' old before
    · intro t' h (now : s.sub.held t' = some h) member
      rcases Finset.mem_insert.mp member with same | before
      · rw [clients.heldSeen t' t h v now seen same, gone] at now
        cases now
      · exact clients.heldNotRetired t' h now before
    · rw [Finset.card_insert_of_notMem (clients.seenNotRetired t v seen)]
      have passed := clients.passed
      simp only [AdminSystem.retire, withRings, device.cqSize, moved]
      simp only [markAt] at spent
      omega
    · intro t' h l p serial (now : s.sub.held t' = some h) polling bound tagged same current
      have stillPolling : s.seen t' = none := by
        by_cases mine : t' = t
        · rw [mine, gone] at now
          cases now
        · simp only [AdminSystem.retire, Function.update_of_ne mine] at polling
          exact polling
      simp only [AdminSystem.retire] at current
      exact clients.fresh t' h l p serial now stillPolling bound tagged same (by omega)

omit [DecidableEq ι] in
theorem fetch (inv : AdminInv n low retired s) (more : s.sub.devHead ≠ s.sub.devTail) :
    AdminInv n low retired { s with
      sub := s.sub.fetchOne
      inflight := s.inflight ++ [(s.sub.aqp.sq.addr s.sub.devHead, s.sub.tag s.sub.devHead)] } := by
  obtain ⟨ring, fetching, device, clients⟩ := inv
  obtain ⟨fetched, cmd, stored, extended⟩ := fetching.fetchOne ring more
  obtain ⟨_, _, entry, tagged⟩ := ring.next_entry fetching more
  have sameCmd : s.sub.aqp.sq.addr s.sub.devHead = cmd := by
    obtain ⟨cmd', stored', entry', _⟩ := ring.next_entry fetching more
    rw [stored, Option.some.injEq] at stored'
    rw [entry', stored']
  have longer : s.sub.fetchOne.fetched.length = s.sub.fetched.length + 1 := by
    simp [extended]
  refine ⟨ring.congr rfl rfl rfl rfl, fetched, ?_, ?_⟩
  · constructor
    · exact device.cqSize
    · exact device.tail
    · exact device.phase
    · exact device.empty
    · exact device.latest
    · intro cpl serial member
      have := device.answers cpl serial member
      simp only [longer]
      omega
    · exact device.answered
    · intro command serial member
      simp only [List.mem_append, List.mem_singleton, Prod.mk.injEq] at member
      simp only [longer]
      rcases member with old | ⟨rfl, rfl⟩
      · obtain ⟨bound, kept⟩ := device.flying command serial old
        exact ⟨by omega, kept⟩
      · rw [tagged, sameCmd]
        exact ⟨by omega, stored⟩
    · simp only [List.map_append, List.map_cons, List.map_nil, tagged]
      rw [← List.append_assoc, List.nodup_append]
      refine ⟨device.once, List.nodup_singleton _, ?_⟩
      intro a member b single same
      rw [List.mem_singleton] at single
      have below : a < s.sub.fetched.length := by
        rcases List.mem_append.mp member with answered | flying
        · obtain ⟨⟨cpl, serial⟩, found, rfl⟩ := List.mem_map.mp answered
          exact device.answers cpl serial found
        · obtain ⟨⟨command, serial⟩, found, rfl⟩ := List.mem_map.mp flying
          exact (device.flying command serial found).1
      omega
  · exact ⟨clients.cursor, clients.waiting, clients.seenPosted, clients.seenOnce, clients.heldSeen,
      clients.seenHeld, clients.retiredPosted, clients.seenNotRetired, clients.heldNotRetired,
      clients.passed, clients.fresh⟩

omit [DecidableEq ι] in
theorem post_device (positive : 0 < n) (device : DeviceInv n s) {k serial : Nat} {cmd : Cmd}
    {cpl : Cpl} (flying : s.inflight[k]? = some (cmd, serial)) (cid : cpl.cid = cmd.cid)
    (phase : cpl.phase = s.cqPhase) : DeviceInv n (s.postOne k serial cpl) := by
  obtain ⟨present, entry⟩ := List.getElem?_eq_some_iff.mp flying
  obtain ⟨fetched, stored⟩ := device.flying cmd serial (List.mem_of_getElem? flying)
  have tailBound : s.cqTail < n := by
    rw [device.tail]
    exact Nat.mod_lt _ positive
  have moved : ((s.inflight.eraseIdx k).map Prod.snd ++ [serial]).Perm
      (s.inflight.map Prod.snd) := by
    have erased := (List.getElem_cons_eraseIdx_perm present).map Prod.snd
    rw [entry] at erased
    exact (List.perm_append_singleton _ _).trans erased
  constructor
  · exact device.cqSize
  · simp only [postOne, device.cqSize, device.tail, List.length_append, List.length_singleton,
      slot_next positive]
  · simp only [postOne, device.cqSize, device.tail, device.phase, List.length_append,
      List.length_singleton, passPhase_next positive]
  · intro l bound untagged
    have other : l ≠ s.cqTail := by
      rintro rfl
      simp [postOne] at untagged
    simp only [postOne, Function.update_of_ne other] at untagged
    obtain ⟨unposted, dark⟩ := device.empty l bound untagged
    have notYet : l ≠ s.posted.length := by
      rintro rfl
      exact other (by rw [device.tail, Nat.mod_eq_of_lt bound])
    simp only [postOne, withRings, List.length_append, List.length_singleton,
      Function.update_of_ne other]
    exact ⟨by omega, dark⟩
  · intro l p bound tagged
    by_cases here : l = s.cqTail
    · subst here
      simp only [postOne, Function.update_self, Option.some.injEq] at tagged
      subst tagged
      simp only [postOne, withRings, List.length_append, List.length_singleton,
        Function.update_self]
      refine ⟨by omega, by omega, device.tail.symm, ?_, serial, by simp⟩
      rw [phase, device.phase]
    · simp only [postOne, Function.update_of_ne here] at tagged
      obtain ⟨before, recent, slot, kept, owner, recorded⟩ := device.latest l p bound tagged
      have notYet : s.posted.length ≠ p + n := by
        intro lapped
        apply here
        rw [device.tail, lapped, Nat.add_mod_right, slot]
      simp only [postOne, withRings, List.length_append, List.length_singleton,
        Function.update_of_ne here]
      refine ⟨by omega, by omega, slot, kept, owner, ?_⟩
      rwa [List.getElem?_append_left before]
  · intro c k' member
    simp only [postOne, List.mem_append, List.mem_singleton, Prod.mk.injEq] at member
    rcases member with old | ⟨_, rfl⟩
    · exact device.answers c k' old
    · exact fetched
  · intro c k' member
    simp only [postOne, List.mem_append, List.mem_singleton, Prod.mk.injEq] at member
    rcases member with old | ⟨rfl, rfl⟩
    · exact device.answered c k' old
    · exact ⟨cmd, stored, cid⟩
  · intro command k' member
    exact device.flying command k' (List.mem_of_mem_eraseIdx member)
  · simp only [postOne, List.map_append, List.map_cons, List.map_nil, List.append_assoc]
    apply (List.Perm.nodup_iff _).mpr device.once
    apply List.Perm.append_left
    exact (List.perm_append_comm).trans moved

omit [DecidableEq ι] in
theorem unanswered (device : DeviceInv n s) {k serial : Nat} {cmd : Cmd}
    (flying : s.inflight[k]? = some (cmd, serial)) : ¬ s.Posted serial := by
  rw [posted_iff]
  intro answered
  have inFlight : serial ∈ s.inflight.map Prod.snd :=
    List.mem_map.mpr ⟨_, List.mem_of_getElem? flying, rfl⟩
  exact (List.nodup_append.mp device.once).2.2 _ answered _ inFlight rfl

omit [DecidableEq ι] in
theorem post (positive : 0 < n) (inv : AdminInv n low retired s) {k serial : Nat} {cmd : Cmd}
    {cpl : Cpl} (flying : s.inflight[k]? = some (cmd, serial)) (cid : cpl.cid = cmd.cid)
    (phase : cpl.phase = s.cqPhase) : AdminInv n low retired (s.postOne k serial cpl) := by
  obtain ⟨ring, fetching, device, clients⟩ := inv
  obtain ⟨fetched, stored⟩ := device.flying cmd serial (List.mem_of_getElem? flying)
  have stillPosted : ∀ k', s.Posted k' → (s.postOne k serial cpl).Posted k' := by
    rintro k' ⟨c, member⟩
    exact ⟨c, List.mem_append_left _ member⟩
  refine ⟨ring.congr rfl rfl rfl rfl, ?_, post_device positive device flying cid phase, ?_⟩
  · exact ⟨fetching.devHead, fetching.inOrder, fetching.behind, fetching.notAhead,
      fetching.served⟩
  · constructor
    · exact clients.cursor
    · exact fun k' below missing =>
        clients.waiting k' below fun before => missing (stillPosted k' before)
    · exact fun t v seen => stillPosted _ (clients.seenPosted t v seen)
    · exact clients.seenOnce
    · exact clients.heldSeen
    · exact clients.seenHeld
    · exact fun k' member => stillPosted k' (clients.retiredPosted k' member)
    · exact clients.seenNotRetired
    · exact clients.heldNotRetired
    · exact clients.passed
    · intro t h l p owner now polling bound tagged same current recorded
      by_cases here : l = s.cqTail
      · subst here
        simp only [postOne, Function.update_self, Option.some.injEq] at tagged
        subst tagged
        simp only [postOne, withRings, Function.update_self] at same recorded
        simp only [List.getElem?_concat_length, Option.some.injEq, Prod.mk.injEq] at recorded
        -- the command just answered belongs to the one client that holds its CID
        have below := fetching.notAhead
        obtain ⟨t', h', now', serial', _⟩ :=
          clients.waiting serial (by omega) (unanswered device flying)
        obtain ⟨_, _, _, stored', _⟩ := ring.held t' h' now'
        rw [serial', stored, Option.some.injEq] at stored'
        have cids : h'.cid = h.cid := by
          rw [← same, cid, stored']
          rfl
        have clients_eq := ring.cids t' t h' h now' now cids
        have holds : s.sub.held t = some h := now
        rw [clients_eq, holds, Option.some.injEq] at now'
        rw [← recorded.2, ← serial', now']
      · simp only [postOne, Function.update_of_ne here] at tagged
        simp only [postOne, withRings, Function.update_of_ne here] at same recorded
        obtain ⟨before, _⟩ := device.latest l p bound tagged
        rw [List.getElem?_append_left before] at recorded
        exact clients.fresh t h l p owner now polling bound tagged same current recorded

end AdminInv

section Step

variable [DecidableEq ι] {n low : Nat} {retired : Finset Nat} {s s' : AdminSystem ι}

theorem enqueue_cases {t : ι} {cmd : FreshCmd} (taken : s.step (.enqueue t cmd) = some s') :
    s.sub.held t = none ∧ s.seen t = none ∧ (s' = s ∨ ∃ cid, sqFull s.sub.aqp.sq = false ∧
      nextCid s.sub.aqp.sq = some cid ∧ s' = { s with
        sub := s.sub.accept t cmd (s.sub.aqp.sq.tail % 2 ^ 16)
          { s.sub.aqp with sq := sqPush s.sub.aqp.sq cid cmd } (cmd.1.withCid cid) }) := by
  simp only [step] at taken
  split at taken
  · cases taken
  · next unseen =>
    simp only [SqSystem.step] at taken
    split at taken
    · cases taken
    · next idle =>
      refine ⟨by simpa using idle, by simpa using unseen, ?_⟩
      rcases adminEnqueueCommand_cases s.sub.aqp cmd.1 with ⟨refused, _⟩ | ⟨cid, room, found, accepted⟩
      · simp only [refused, Option.map_some, Option.some.injEq] at taken
        exact .inl taken.symm
      · simp only [accepted, Option.map_some, Option.some.injEq] at taken
        exact .inr ⟨cid, room, found, taken.symm⟩

theorem poll_cases {t : ι} (taken : s.step (.poll t) = some s') :
    ∃ h, s.sub.held t = some h ∧ s.seen t = none ∧ (s' = s ∨
      ∃ l, adminCqPoll s.sub.aqp h.cid = some l ∧
        s' = { s with seen := Function.update s.seen t (some ⟨l, h.serial⟩) }) := by
  simp only [step] at taken
  split at taken
  · next h mine unseen =>
    refine ⟨h, mine, unseen, ?_⟩
    split at taken
    · simp only [Option.some.injEq] at taken
      exact .inl taken.symm
    · next l hit =>
      simp only [Option.some.injEq] at taken
      exact .inr ⟨l, hit, taken.symm⟩
  · cases taken

theorem sqCleanup_cases {t : ι} (taken : s.step (.sqCleanup t) = some s') :
    ∃ h v aqp, s.sub.held t = some h ∧ s.seen t = some v ∧
      adminSqMarkCleanup s.sub.aqp h.loc = some aqp ∧
      s' = { s with sub := s.sub.release t aqp } := by
  simp only [step] at taken
  split at taken
  · next seen =>
    obtain ⟨v, seen⟩ := Option.isSome_iff_exists.mp seen
    simp only [SqSystem.step] at taken
    split at taken
    · cases taken
    · next h mine =>
      simp only [Option.map_eq_some_iff] at taken
      obtain ⟨_, ⟨aqp, ended, rfl⟩, rfl⟩ := taken
      exact ⟨h, v, aqp, mine, seen, ended, rfl⟩
  · cases taken

theorem cqCleanup_cases {t : ι} (taken : s.step (.cqCleanup t) = some s') :
    ∃ v aqp, s.sub.held t = none ∧ s.seen t = some v ∧
      adminCqMarkCleanup s.sub.aqp v.slot = some aqp ∧ s' = s.retire t aqp := by
  simp only [step] at taken
  split at taken
  · next v gone seen =>
    simp only [Option.map_eq_some_iff] at taken
    obtain ⟨aqp, ended, rfl⟩ := taken
    exact ⟨v, aqp, gone, seen, ended, rfl⟩
  · cases taken

theorem fetch_cases (taken : s.step .fetch = some s') :
    s.sub.devHead ≠ s.sub.devTail ∧ s' = { s with
      sub := s.sub.fetchOne
      inflight :=
        s.inflight ++ [(s.sub.aqp.sq.addr s.sub.devHead, s.sub.tag s.sub.devHead)] } := by
  simp only [step, SqSystem.step] at taken
  split at taken
  · cases taken
  · next more =>
    simp only [Option.map_some, Option.some.injEq] at taken
    exact ⟨more, taken.symm⟩

theorem post_cases {k : Nat} {cpl : Cpl} (taken : s.step (.post k cpl) = some s') :
    ∃ cmd serial, s.inflight[k]? = some (cmd, serial) ∧ cpl.cid = cmd.cid ∧
      cpl.phase = s.cqPhase ∧ s' = s.postOne k serial cpl := by
  simp only [step] at taken
  split at taken
  · cases taken
  · next cmd serial flying =>
    split at taken
    · next valid =>
      simp only [Option.some.injEq] at taken
      exact ⟨cmd, serial, flying, valid.1, valid.2, taken.symm⟩
    · cases taken

theorem AdminInv.step {e : AdminEvent ι} (positive : 0 < n) (small : n ≤ 4096)
    (inv : AdminInv n low retired s) (fresh : s.freshEnqueue e) (taken : s.step e = some s') :
    ∃ low' retired', AdminInv n low' retired' s' := by
  cases e with
  | enqueue t cmd =>
      obtain ⟨idle, unseen, rfl | ⟨cid, room, found, rfl⟩⟩ := enqueue_cases taken
      · exact ⟨low, retired, inv⟩
      · exact ⟨low, retired, inv.accept small idle unseen fresh room found⟩
  | poll t =>
      obtain ⟨h, mine, unseen, rfl | ⟨l, hit, rfl⟩⟩ := poll_cases taken
      · exact ⟨low, retired, inv⟩
      · exact ⟨low, retired, inv.see positive mine unseen hit⟩
  | sqCleanup t =>
      obtain ⟨h, v, aqp, mine, seen, ended, rfl⟩ := sqCleanup_cases taken
      obtain ⟨_, r, same, kept⟩ := inv.release positive small mine seen
      rw [ended, Option.some.injEq] at same
      exact ⟨low + r, retired, same ▸ kept⟩
  | cqCleanup t =>
      obtain ⟨v, aqp, gone, seen, ended, rfl⟩ := cqCleanup_cases taken
      obtain ⟨_, same, kept⟩ := inv.retire positive small gone seen
      rw [ended, Option.some.injEq] at same
      exact ⟨low, _, same ▸ kept⟩
  | fetch =>
      obtain ⟨more, rfl⟩ := fetch_cases taken
      exact ⟨low, retired, inv.fetch more⟩
  | post k cpl =>
      obtain ⟨cmd, serial, flying, cid, phase, rfl⟩ := post_cases taken
      exact ⟨low, retired, inv.post positive flying cid phase⟩

def PollsAnswered (s : AdminSystem ι) : Prop :=
  ∀ t h l, s.sub.held t = some h → s.seen t = none → adminCqPoll s.sub.aqp h.cid = some l →
    s.Answers l h.serial

/-- In every interleaving in which each submission takes a CID that no completion ahead of
the CQ head carries, every poll that hits returns its own client's completion. -/
theorem polls_answered (cap0 : Dword) (s : AdminSystem ι)
    (reached : Reachable (machine ι (initQueueSize cap0)) freshEnqueue s) : s.PollsAnswered := by
  obtain ⟨positive, small⟩ := initQueueSize_bounds cap0
  have inv : ∃ low retired, AdminInv (initQueueSize cap0) low retired s := by
    refine reached.invariant
      (P := fun s => ∃ low retired, AdminInv (initQueueSize cap0) low retired s) ?_ ?_
    · rintro s ⟨cqAddr, sqAddr, clear, rfl⟩
      exact ⟨0, ∅, AdminInv.start positive clear sqAddr⟩
    · rintro s e s' ⟨low, retired, inv⟩ fresh taken
      exact inv.step positive small fresh taken
  obtain ⟨low, retired, inv⟩ := inv
  intro t h l mine unseen hit
  exact inv.hit_answers positive mine unseen hit

end Step

/-- Two slots and two clients: the second enqueue takes CID 0 again between the two cleanups
of the first client, whose completion still matches it. -/
theorem stale_completion_polled :
    ¬ ∀ (ι : Type) [DecidableEq ι] (cap0 : Dword) (s : AdminSystem ι),
      Reachable (machine ι (initQueueSize cap0)) anyEvent s → s.PollsAnswered := by
  intro polls_always_answered
  let events : List (AdminEvent Bool) :=
    [.enqueue true devSelfTestCmd, .fetch, .post 0 (Cpl.answer 0 true 0), .poll true,
      .sqCleanup true, .enqueue false devSelfTestCmd]
  let rings := adminInitRings (initQueueSize 1#32) (fun _ => Cpl.zero) fun _ => clearCmd
  have begins : Reachable (machine Bool (initQueueSize 1#32)) anyEvent (start rings) :=
    .start (machine_init _ _)
  have ended : ((machine Bool (initQueueSize 1#32)).run (start rings) events).map (fun s =>
      ((s.sub.held false).map fun h => (h.cid, h.serial), (s.seen false).map Seen.slot,
        adminCqPoll s.sub.aqp 0, s.posted.map Prod.snd)) =
      some (some (0, 1), none, some 0, [0]) := by
    decide +kernel
  obtain ⟨s, ran, facts⟩ := Option.map_eq_some_iff.mp ended
  simp only [Prod.mk.injEq, Option.map_eq_some_iff, Option.map_eq_none_iff] at facts
  obtain ⟨⟨h, mine, cid, serial⟩, unseen, hit, posted⟩ := facts
  obtain ⟨p, _, entry⟩ := polls_always_answered Bool 1#32 s (begins.extendAny events ran) false h 0
    mine unseen
    (by rw [cid, hit])
  have member : h.serial ∈ s.posted.map Prod.snd :=
    List.mem_map.mpr ⟨_, List.mem_of_getElem? entry, rfl⟩
  rw [serial, posted] at member
  simp at member

/-- The first client's answer still lies at CID 0 in front of the CQ head after its SQ cleanup and
its CQ cleanup, so that a submission has to wait; once the second client's slot is retired CID 0 is
given out again, and the poll for it skips the two old entries. -/
theorem polls_answered_reused :
    ∃ s s' h, (machine Bool (initQueueSize 3#32)).run
        (start (adminInitRings (initQueueSize 3#32) (fun _ => Cpl.zero) fun _ => clearCmd))
        [.enqueue true devSelfTestCmd, .enqueue false devSelfTestCmd, .fetch, .fetch,
          .post 1 (Cpl.answer 1 true 0), .post 0 (Cpl.answer 0 true 0), .poll true, .poll false,
          .sqCleanup true, .cqCleanup true] = some s ∧ ¬ s.FreshCid ∧
      (machine Bool (initQueueSize 3#32)).run s
        [.sqCleanup false, .cqCleanup false, .enqueue true devSelfTestCmd, .fetch,
          .post 0 (Cpl.answer 0 true 0)] = some s' ∧
      s'.sub.held true = some h ∧ h.cid = 0 ∧ adminCqPoll s'.sub.aqp h.cid = some 2 ∧
      s'.Answers 2 h.serial := by
  have begins : Reachable (machine Bool (initQueueSize 3#32)) freshEnqueue
      (start (adminInitRings (initQueueSize 3#32) (fun _ => Cpl.zero) fun _ => clearCmd)) :=
    .start (machine_init _ _)
  have blocked : ((machine Bool (initQueueSize 3#32)).runAllowed freshEnqueue
      (start (adminInitRings (initQueueSize 3#32) (fun _ => Cpl.zero) fun _ => clearCmd))
      [.enqueue true devSelfTestCmd, .enqueue false devSelfTestCmd, .fetch, .fetch,
        .post 1 (Cpl.answer 1 true 0), .post 0 (Cpl.answer 0 true 0), .poll true, .poll false,
        .sqCleanup true, .cqCleanup true]).any (fun s => decide (¬ s.FreshCid) &&
          ((machine Bool (initQueueSize 3#32)).runAllowed freshEnqueue s
            [.sqCleanup false, .cqCleanup false, .enqueue true devSelfTestCmd, .fetch,
              .post 0 (Cpl.answer 0 true 0)]).any fun s' =>
            (s'.sub.held true).map Held.cid == some 0 && (s'.seen true).isNone &&
              adminCqPoll s'.sub.aqp 0 == some 2) = true := by
    decide +kernel
  simp only [Option.any_eq_true, Bool.and_eq_true, decide_eq_true_eq, beq_iff_eq,
    Option.map_eq_some_iff, Option.isNone_iff_eq_none] at blocked
  obtain ⟨s, first, stale, s', second, ⟨⟨h, mine, cid⟩, unseen⟩, hit⟩ := blocked
  have reached := (begins.extendAllowed _ first).extendAllowed _ second
  rw [← cid] at hit
  exact ⟨s, s', h, (runAllowed_meets first).2, stale, (runAllowed_meets second).2, mine, cid, hit,
    polls_answered 3#32 s' reached true h 2 mine unseen hit⟩

end AdminSystem

end BafsNvme
