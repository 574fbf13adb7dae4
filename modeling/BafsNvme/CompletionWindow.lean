import BafsNvme.CompletionInvariant

/-! The completion ring as the device sees it: a device that never overtakes the CQ head
doorbell, and what every client then finds in the slot its poll returned, up to its own
CQ cleanup. -/

namespace BafsNvme

open Window RetireCursor Machine

namespace AdminSystem

variable {ι : Type}

/-- The CQ is not full for the device, which knows the head from the last doorbell write. -/
def CqRoom (s : AdminSystem ι) : Prop :=
  (s.cqTail + 1) % s.sub.aqp.cq.qs ≠ s.sub.aqp.cq.db.getD 0

def paced (s : AdminSystem ι) : AdminEvent ι → Prop
  | .enqueue _ _ => s.FreshCid
  | .post _ _ => s.CqRoom
  | _ => True

theorem paced_fresh {s : AdminSystem ι} {e : AdminEvent ι} (permitted : s.paced e) :
    s.freshEnqueue e := by
  cases e with
  | enqueue t cmd => exact permitted
  | _ => trivial

def serving (s : AdminSystem ι) : AdminEvent ι → Prop
  | .enqueue _ _ => False
  | .post _ cpl => s.CqRoom ∧ cpl.status = 0
  | _ => True

instance (s : AdminSystem ι) : Decidable s.CqRoom :=
  inferInstanceAs (Decidable (_ ≠ _))

instance (s : AdminSystem ι) (e : AdminEvent ι) : Decidable (s.serving e) :=
  match e with
  | .enqueue _ _ => .isFalse not_false
  | .post _ _ => inferInstanceAs (Decidable (_ ∧ _))
  | .poll _ | .sqCleanup _ | .cqCleanup _ | .fetch => .isTrue trivial

theorem serving_paced (s : AdminSystem ι) (e : AdminEvent ι) (serves : s.serving e) :
    s.paced e := by
  cases e with
  | enqueue t cmd => exact serves.elim
  | post k cpl => exact serves.1
  | _ => exact serves

def Working (s : AdminSystem ι) (serial : Nat) : Prop :=
  ∃ t, (∃ h, s.sub.held t = some h ∧ h.serial = serial) ∨
    ∃ v, s.seen t = some v ∧ v.serial = serial

def Open (s : AdminSystem ι) (p : Nat) : Prop :=
  ∃ cpl serial, s.posted[p]? = some (cpl, serial) ∧ s.Working serial

/-- The ring between the counters `cqPassed` of retired and `posted.length` of posted
completions. -/
structure WindowInv (n : Nat) (s : AdminSystem ι) : Prop where
  window : Retiring n s.cqPassed s.posted.length s.Open s.sub.aqp.cq.toRetireCursor
  stops : s.cqPassed < s.posted.length → s.Open s.cqPassed
  room : s.posted.length < s.cqPassed + n
  door : s.sub.aqp.cq.db.getD 0 = s.cqPassed % n
  tagged : ∀ p, s.cqPassed ≤ p → p < s.posted.length → s.cqTag (p % n) = some p
  behind : ∀ p, p < s.cqPassed → ¬ s.Open p
  seen : ∀ t v, s.seen t = some v → ∃ p, s.cqPassed ≤ p ∧ v.slot = p % n ∧
    s.posted[p]? = some (s.sub.aqp.cq.addr v.slot, v.serial)

namespace WindowInv

variable {n low : Nat} {retired : Finset Nat} {s s' : AdminSystem ι}

theorem start (positive : 0 < n) (cqAddr : Nat → Cpl) (sqAddr : Nat → Cmd) :
    WindowInv (ι := ι) n (start (adminInitRings n cqAddr sqAddr)) := by
  constructor
  · apply Retiring.empty
    · exact ⟨by simp [AdminSystem.start, SqSystem.start, adminInitRings],
        by simp [AdminSystem.start, SqSystem.start, adminInitRings, passPhase_zero]⟩
    · intro l _
      rfl
  · intro nonempty
    exact absurd nonempty (Nat.lt_irrefl 0)
  · simpa [AdminSystem.start] using positive
  · simp [AdminSystem.start, SqSystem.start, adminInitRings]
  · intro p _ below
    simp [AdminSystem.start] at below
  · intro p below
    simp [AdminSystem.start] at below
  · intro t v seen
    cases seen

theorem congr (inv : WindowInv n s) (ring : s'.sub.aqp.cq = s.sub.aqp.cq)
    (posted : s'.posted = s.posted) (passed : s'.cqPassed = s.cqPassed)
    (tags : s'.cqTag = s.cqTag) (same : ∀ p, s'.Open p ↔ s.Open p)
    (seen : ∀ t v, s'.seen t = some v → ∃ p, s.cqPassed ≤ p ∧ v.slot = p % n ∧
      s.posted[p]? = some (s.sub.aqp.cq.addr v.slot, v.serial)) : WindowInv n s' := by
  constructor
  · rw [ring, posted, passed]
    exact inv.window.congr _ fun p _ _ => (same p).symm
  · rw [posted, passed, same]
    exact inv.stops
  · rw [posted, passed]
    exact inv.room
  · rw [ring, passed]
    exact inv.door
  · rw [posted, passed, tags]
    exact inv.tagged
  · intro p
    rw [passed, same]
    exact inv.behind p
  · rw [ring, posted, passed]
    exact seen

theorem open_congr (posted : s'.posted = s.posted)
    (working : ∀ (p : Nat) (cpl : Cpl) (serial : Nat), s.posted[p]? = some (cpl, serial) →
      (s'.Working serial ↔ s.Working serial)) (p : Nat) : s'.Open p ↔ s.Open p := by
  constructor
  · rintro ⟨cpl, serial, entry, at_work⟩
    rw [posted] at entry
    exact ⟨cpl, serial, entry, (working p cpl serial entry).mp at_work⟩
  · rintro ⟨cpl, serial, entry, at_work⟩
    exact ⟨cpl, serial, by rwa [posted], (working p cpl serial entry).mpr at_work⟩

theorem entry (positive : 0 < n) (device : DeviceInv n s) (inv : WindowInv n s) {p : Nat}
    (above : s.cqPassed ≤ p) (below : p < s.posted.length) :
    ∃ serial, s.posted[p]? = some (s.sub.aqp.cq.addr (p % n), serial) := by
  have tagged := inv.tagged p above below
  exact (device.latest (p % n) p (Nat.mod_lt p positive) tagged).2.2.2.2

variable [DecidableEq ι]

theorem accept (adm : AdminInv n low retired s) (inv : WindowInv n s) {t : ι} {cmd : FreshCmd}
    {loc cid : Nat} (idle : s.sub.held t = none) :
    WindowInv n { s with
      sub := s.sub.accept t cmd loc { s.sub.aqp with sq := sqPush s.sub.aqp.sq cid cmd }
        (cmd.1.withCid cid) } := by
  refine inv.congr rfl rfl rfl rfl (open_congr rfl ?_) inv.seen
  intro p cpl serial entry
  have earlier : serial < s.sub.enqueued.length :=
    AdminInv.posted_lt adm.device adm.fetching.notAhead ⟨cpl, List.mem_of_getElem? entry⟩
  constructor
  · rintro ⟨t', ⟨h, now, same⟩ | seen⟩
    · rcases SqSystem.held_update now with ⟨_, rfl⟩ | ⟨_, old⟩
      · exact absurd same earlier.ne'
      · exact ⟨t', .inl ⟨h, old, same⟩⟩
    · exact ⟨t', .inr seen⟩
  · rintro ⟨t', ⟨h, old, same⟩ | seen⟩
    · exact ⟨t', .inl ⟨h, SqSystem.held_beside idle old, same⟩⟩
    · exact ⟨t', .inr seen⟩

theorem see (positive : 0 < n) (adm : AdminInv n low retired s) (inv : WindowInv n s) {t : ι}
    {h : Held} {l : Nat} (mine : s.sub.held t = some h) (unseen : s.seen t = none)
    (hit : adminCqPoll s.sub.aqp h.cid = some l) :
    WindowInv n { s with seen := Function.update s.seen t (some ⟨l, h.serial⟩) } := by
  obtain ⟨p, tagged, answer⟩ := adm.hit_answers positive mine unseen hit
  have bound : l < n := by
    have inside := (adminCqPoll_some (adm.cq_head_lt positive) hit).2.1
    rwa [adm.device.cqSize] at inside
  have slot := (adm.device.latest l p bound tagged).2.2.1
  have current : s.cqPassed ≤ p := by
    by_contra passed
    exact inv.behind p (Nat.lt_of_not_le passed) ⟨_, _, answer, t, .inl ⟨h, mine, rfl⟩⟩
  refine inv.congr rfl rfl rfl rfl (open_congr rfl ?_) ?_
  · intro q cpl serial _
    constructor
    · rintro ⟨t', held | ⟨v, now, same⟩⟩
      · exact ⟨t', .inl held⟩
      · rcases SqSystem.held_update now with ⟨_, rfl⟩ | ⟨_, old⟩
        · exact ⟨t, .inl ⟨h, mine, same⟩⟩
        · exact ⟨t', .inr ⟨v, old, same⟩⟩
    · rintro ⟨t', held | ⟨v, old, same⟩⟩
      · exact ⟨t', .inl held⟩
      · have other : t' ≠ t := by
          rintro rfl
          rw [unseen] at old
          cases old
        exact ⟨t', .inr ⟨v, (Function.update_of_ne other ..).trans old, same⟩⟩
  · intro t' v now
    rcases SqSystem.held_update now with ⟨_, rfl⟩ | ⟨_, old⟩
    · exact ⟨p, current, slot.symm, answer⟩
    · exact inv.seen t' v old

theorem release (adm : AdminInv n low retired s) (inv : WindowInv n s) {t : ι} {h : Held}
    {v : Seen} {aqp : AdminRings} (mine : s.sub.held t = some h) (seen : s.seen t = some v)
    (ring : aqp.cq = s.sub.aqp.cq) :
    WindowInv n { s with sub := s.sub.release t aqp } := by
  refine inv.congr ring rfl rfl rfl (open_congr rfl ?_) inv.seen
  intro p cpl serial _
  constructor
  · rintro ⟨t', ⟨h', now, same⟩ | seen'⟩
    · exact ⟨t', .inl ⟨h', (SqSystem.held_drop now).2, same⟩⟩
    · exact ⟨t', .inr seen'⟩
  · rintro ⟨t', ⟨h', old, same⟩ | seen'⟩
    · by_cases own : t' = t
      · subst own
        rw [mine, Option.some.injEq] at old
        subst old
        exact ⟨t', .inr ⟨v, seen, (adm.clients.seenHeld t' h v mine seen).symm.trans same⟩⟩
      · exact ⟨t', .inl ⟨h', by rw [← old]; exact Function.update_of_ne own .., same⟩⟩
    · exact ⟨t', .inr seen'⟩

omit [DecidableEq ι] in
theorem posted_inj (device : DeviceInv n s) {p q serial : Nat} {cpl cpl' : Cpl}
    (first : s.posted[p]? = some (cpl, serial)) (second : s.posted[q]? = some (cpl', serial)) :
    p = q := by
  have distinct := (List.nodup_append.mp device.once).1
  have below : p < (s.posted.map Prod.snd).length := by
    rw [List.length_map]
    exact (List.getElem?_eq_some_iff.mp first).1
  apply (List.getElem?_inj below distinct).mp
  rw [List.getElem?_map, List.getElem?_map, first, second]
  rfl

theorem retire_open (adm : AdminInv n low retired s) {t : ι} {v : Seen} {aqp : AdminRings}
    (gone : s.sub.held t = none) (seen : s.seen t = some v) {p : Nat}
    (answer : s.posted[p]? = some (s.sub.aqp.cq.addr v.slot, v.serial)) (q : Nat) :
    (s.retire t aqp).Open q ↔ s.Open q ∧ q ≠ p := by
  constructor
  · rintro ⟨cpl, serial, entry, t', held | ⟨v', now, same⟩⟩
    · refine ⟨⟨cpl, serial, entry, t', .inl held⟩, ?_⟩
      rintro rfl
      obtain ⟨h, now, same⟩ := held
      obtain rfl : v.serial = serial := (Prod.mk.inj (Option.some.inj (answer.symm.trans entry))).2
      obtain rfl := adm.clients.heldSeen t' t h v now seen same
      have now : s.sub.held t' = some h := now
      rw [gone] at now
      cases now
    · obtain ⟨other, old⟩ := SqSystem.held_drop now
      refine ⟨⟨cpl, serial, entry, t', .inr ⟨v', old, same⟩⟩, ?_⟩
      rintro rfl
      obtain rfl : v.serial = serial := (Prod.mk.inj (Option.some.inj (answer.symm.trans entry))).2
      exact other (adm.clients.seenOnce t' t v' v old seen same)
  · rintro ⟨⟨cpl, serial, entry, t', at_work⟩, different⟩
    refine ⟨cpl, serial, entry, t', at_work.imp_right ?_⟩
    rintro ⟨v', old, same⟩
    have other : t' ≠ t := by
      rintro rfl
      rw [seen, Option.some.injEq] at old
      subst old
      subst same
      exact different (posted_inj adm.device entry answer)
    exact ⟨v', by rw [← old]; exact Function.update_of_ne other .., same⟩

/-- The CQ cleanup: the sweep stops at the first completion still open, and the doorbell
follows. -/
theorem retire (positive : 0 < n) (small : n ≤ 4096) (adm : AdminInv n low retired s)
    (inv : WindowInv n s) {t : ι} {v : Seen} {aqp : AdminRings} (gone : s.sub.held t = none)
    (seen : s.seen t = some v) (ended : adminCqMarkCleanup s.sub.aqp v.slot = some aqp) :
    WindowInv n (s.retire t aqp) := by
  have headBound := adm.cq_head_lt positive
  have size := adm.device.cqSize
  obtain ⟨p, current, slot, answer⟩ := inv.seen t v seen
  obtain ⟨r, c, short, moves, same⟩ := adminCqMarkCleanup_swept s.sub.aqp v.slot headBound
    (by rw [size]; exact small)
  obtain rfl := Option.some.inj (ended.symm.trans same)
  rw [size] at moves short
  have below := (List.getElem?_eq_some_iff.mp answer).1
  have placed : At n (s.cqPassed + r) c := moves.at positive adm.clients.cursor
  have moved : headMoves s.sub.aqp.cq.toRetireCursor c n = r :=
    headMoves_eq positive adm.clients.cursor placed short
  rw [markAt, slot] at moves
  have opened {aqp : AdminRings} (q : Nat) : (s.retire t aqp).Open q ↔ s.Open q ∧ q ≠ p :=
    retire_open adm gone seen answer q
  obtain ⟨window, before, stops⟩ := (inv.window.release current below).swept positive moves
  have room := inv.room
  constructor
  · simp only [AdminSystem.retire, withRings, size, moved]
    exact window.congr _ fun q _ _ => (opened q).symm
  · simp only [AdminSystem.retire, withRings, size, moved]
    intro nonempty
    exact (opened _).mpr (stops nonempty)
  · simp only [AdminSystem.retire, withRings, size, moved]
    omega
  · simp only [AdminSystem.retire, withRings, size, moved]
    rw [← placed.1]
    split
    · rfl
    · next still =>
      rw [inv.door, ← adm.clients.cursor.1]
      exact not_not.mp still
  · simp only [AdminSystem.retire, withRings, size, moved]
    intro q above
    exact inv.tagged q (by omega)
  · simp only [AdminSystem.retire, withRings, size, moved]
    intro q early at_work
    have old := (opened q).mp at_work
    by_cases passed : q < s.cqPassed
    · exact inv.behind q passed old.1
    · exact before q (by omega) early old
  · simp only [AdminSystem.retire, withRings, size, moved]
    intro t' v' now
    obtain ⟨_, old⟩ := SqSystem.held_drop now
    obtain ⟨q, above, slot', answer'⟩ := inv.seen t' v' old
    have other : (s.retire t { s.sub.aqp with cq := { s.sub.aqp.cq with
        toRetireCursor := c
        db := if s.sub.aqp.cq.head ≠ c.head then some c.head else s.sub.aqp.cq.db } }).Open q :=
      ⟨_, _, answer', t', .inr ⟨v', now, rfl⟩⟩
    refine ⟨q, ?_, slot', answer'⟩
    by_contra early
    exact before q above (by omega) ((opened q).mp other)

omit [DecidableEq ι] in
theorem post (adm : AdminInv n low retired s) (inv : WindowInv n s) {k serial : Nat} {cmd : Cmd}
    (cpl : Cpl) (flying : s.inflight[k]? = some (cmd, serial)) (free : s.CqRoom) :
    WindowInv n (s.postOne k serial cpl) := by
  have size := adm.device.cqSize
  have tail := adm.device.tail
  have ordered := inv.window.ordered
  have room : s.posted.length + 1 < s.cqPassed + n := by
    have notFull := free
    rw [CqRoom, size, tail, inv.door, slot_succ] at notFull
    have inside := inv.room
    have notLast : s.posted.length + 1 ≠ s.cqPassed + n := by
      intro last
      rw [last, Nat.add_mod_right] at notFull
      exact notFull rfl
    omega
  have apart : ∀ p, s.cqPassed ≤ p → p < s.posted.length → p % n ≠ s.cqTail := by
    intro p above below same
    rw [tail] at same
    have := slot_inj s.cqPassed ⟨above, by omega⟩ ⟨ordered, by omega⟩ same
    omega
  have earlier : ∀ p, p < s.posted.length →
      ((s.postOne k serial cpl).Open p ↔ s.Open p) := by
    intro p below
    have entry : (s.postOne k serial cpl).posted[p]? = s.posted[p]? :=
      List.getElem?_append_left below
    simp only [Open, entry]
    rfl
  have entered : (s.postOne k serial cpl).Open s.posted.length := by
    have bound := (adm.device.flying cmd serial (List.mem_of_getElem? flying)).1
    obtain ⟨t, h, now, same, _⟩ := adm.clients.waiting serial
      (bound.trans_le adm.fetching.notAhead) (AdminInv.unanswered adm.device flying)
    exact ⟨cpl, serial, List.getElem?_concat_length, t, .inl ⟨h, now, same⟩⟩
  constructor
  · have window := inv.window.congr (s.postOne k serial cpl).Open
      fun p _ below => (earlier p below).symm
    have longer : (s.postOne k serial cpl).posted.length = s.posted.length + 1 := by
      simp [postOne]
    rw [longer]
    exact window.extend inv.room entered
  · intro _
    rcases Nat.eq_or_lt_of_le ordered with empty | more
    · exact empty ▸ entered
    · exact (earlier _ more).mpr (inv.stops more)
  · simp only [postOne, List.length_append, List.length_singleton]
    exact room
  · exact inv.door
  · intro p above below
    simp only [postOne, List.length_append, List.length_singleton] at below
    rcases Nat.lt_succ_iff_lt_or_eq.mp below with old | rfl
    · simp only [postOne, Function.update_of_ne (apart p above old)]
      exact inv.tagged p above old
    · simp only [postOne, ← tail, Function.update_self]
  · intro p early
    rw [earlier p (Nat.lt_of_lt_of_le early ordered)]
    exact inv.behind p early
  · intro t v now
    obtain ⟨p, above, slot, answer⟩ := inv.seen t v now
    have below := (List.getElem?_eq_some_iff.mp answer).1
    refine ⟨p, above, slot, ?_⟩
    simp only [postOne, withRings]
    rw [List.getElem?_append_left below,
      Function.update_of_ne (by rw [slot]; exact apart p above below)]
    exact answer

theorem step {e : AdminEvent ι} (positive : 0 < n) (small : n ≤ 4096)
    (adm : AdminInv n low retired s) (inv : WindowInv n s) (permitted : s.paced e)
    (taken : s.step e = some s') : WindowInv n s' := by
  cases e with
  | enqueue t cmd =>
      obtain ⟨idle, _, rfl | ⟨cid, _, _, rfl⟩⟩ := enqueue_cases taken
      · exact inv
      · exact inv.accept adm idle
  | poll t =>
      obtain ⟨h, mine, unseen, rfl | ⟨l, hit, rfl⟩⟩ := poll_cases taken
      · exact inv
      · exact inv.see positive adm mine unseen hit
  | sqCleanup t =>
      obtain ⟨h, v, aqp, mine, seen, ended, rfl⟩ := sqCleanup_cases taken
      obtain ⟨_, _, same, _, ring, _⟩ := adm.ring.release positive small mine
      obtain rfl := Option.some.inj (ended.symm.trans same)
      exact inv.release adm mine seen ring
  | cqCleanup t =>
      obtain ⟨v, aqp, gone, seen, ended, rfl⟩ := cqCleanup_cases taken
      exact inv.retire positive small adm gone seen ended
  | fetch =>
      obtain ⟨_, rfl⟩ := fetch_cases taken
      exact inv.congr rfl rfl rfl rfl (fun _ => Iff.rfl) inv.seen
  | post k cpl =>
      obtain ⟨cmd, serial, flying, _, _, rfl⟩ := post_cases taken
      exact inv.post adm cpl flying permitted

end WindowInv

structure CompletionsKept (s : AdminSystem ι) : Prop where
  bounded : s.cqPassed ≤ s.posted.length ∧ s.posted.length < s.cqPassed + s.sub.aqp.cq.qs
  kept : ∀ p, s.cqPassed ≤ p → p < s.posted.length →
    ∃ serial, s.posted[p]? = some (s.sub.aqp.cq.addr (p % s.sub.aqp.cq.qs), serial)
  own : ∀ t v, s.seen t = some v → s.Answers v.slot v.serial
  apart : ∀ t t' v v', s.seen t = some v → s.seen t' = some v' → t ≠ t' → v.slot ≠ v'.slot
  head : s.sub.aqp.cq.head = s.cqPassed % s.sub.aqp.cq.qs ∧
    s.sub.aqp.cq.db.getD 0 = s.sub.aqp.cq.head
  retired : ∀ p, p < s.cqPassed → ¬ s.Open p
  waits : s.cqPassed < s.posted.length → s.Open s.cqPassed
  marks : ∀ p, s.cqPassed ≤ p → p < s.posted.length →
    (s.sub.aqp.cq.mark (p % s.sub.aqp.cq.qs) = true ↔ ¬ s.Open p)

theorem WindowInv.completionsKept {n low : Nat} {retired : Finset Nat} {s : AdminSystem ι}
    (positive : 0 < n) (adm : AdminInv n low retired s) (inv : WindowInv n s) :
    s.CompletionsKept := by
  have size := adm.device.cqSize
  constructor
  · rw [size]
    exact ⟨inv.window.ordered, inv.room⟩
  · rw [size]
    exact fun p above below => inv.entry positive adm.device above below
  · intro t v seen
    obtain ⟨p, above, slot, answer⟩ := inv.seen t v seen
    refine ⟨p, ?_, answer⟩
    rw [slot]
    exact inv.tagged p above (List.getElem?_eq_some_iff.mp answer).1
  · intro t t' v v' seen seen' different slots
    obtain ⟨p, above, slot, answer⟩ := inv.seen t v seen
    obtain ⟨q, above', slot', answer'⟩ := inv.seen t' v' seen'
    have below := (List.getElem?_eq_some_iff.mp answer).1
    have below' := (List.getElem?_eq_some_iff.mp answer').1
    have room := inv.room
    rw [slot, slot'] at slots
    obtain rfl := slot_inj s.cqPassed ⟨above, by omega⟩ ⟨above', by omega⟩ slots
    have serials := (Prod.mk.inj (Option.some.inj (answer.symm.trans answer'))).2
    exact different (adm.clients.seenOnce t t' v v' seen seen' serials)
  · rw [size, inv.door, adm.clients.cursor.1]
    exact ⟨rfl, rfl⟩
  · exact inv.behind
  · exact inv.stops
  · rw [size]
    exact inv.window.owned

variable [DecidableEq ι]

theorem paced_inv {n : Nat} (positive : 0 < n) (small : n ≤ 4096) {s : AdminSystem ι}
    (reached : Reachable (machine ι n) paced s) :
    ∃ low retired, AdminInv n low retired s ∧ WindowInv n s := by
  refine reached.invariant
    (P := fun s => ∃ low retired, AdminInv n low retired s ∧ WindowInv n s) ?_ ?_
  · rintro s ⟨cqAddr, sqAddr, clear, rfl⟩
    exact ⟨0, ∅, AdminInv.start positive clear sqAddr, WindowInv.start positive cqAddr sqAddr⟩
  · rintro s e s' ⟨low, retired, adm, inv⟩ permitted taken
    obtain ⟨low', retired', kept⟩ := adm.step positive small (paced_fresh permitted) taken
    exact ⟨low', retired', kept, inv.step positive small adm permitted taken⟩

/-- While the device does not overtake the CQ doorbell, a completion stays in its slot until
its own client has cleaned it up, whatever the other clients do. -/
theorem completions_kept (cap0 : Dword) (s : AdminSystem ι)
    (reached : Reachable (machine ι (initQueueSize cap0)) paced s) : s.CompletionsKept := by
  obtain ⟨positive, small⟩ := initQueueSize_bounds cap0
  obtain ⟨low, retired, adm, inv⟩ := paced_inv positive small reached
  exact inv.completionsKept positive adm

omit [DecidableEq ι] in
theorem freshCid_start {n : Nat} (two : 2 ≤ n) (cqAddr : Nat → Cpl) (sqAddr : Nat → Cmd) :
    (start (ι := ι) (adminInitRings n cqAddr sqAddr)).FreshCid := by
  intro cid _ _
  refine ⟨?_, fun l p _ tagged => nomatch tagged⟩
  simp only [SlotFree, start, SqSystem.start, adminInitRings, Nat.zero_add, Nat.sub_zero,
    Nat.mod_self]
  omega

theorem completions_kept_first :
    ∃ s v, Reachable (machine Bool (initQueueSize 1#32)) paced s ∧ s.seen true = some v ∧
      s.CompletionsKept := by
  let rings := adminInitRings (initQueueSize 1#32) (fun _ => Cpl.zero) fun _ => clearCmd
  have begins : Reachable (machine Bool (initQueueSize 1#32)) paced (start rings) :=
    .start (machine_init _ _)
  have ended : (((machine Bool (initQueueSize 1#32)).step (start rings)
      (.enqueue true devSelfTestCmd)).bind fun s =>
      (machine Bool (initQueueSize 1#32)).runAllowed serving s
        [.fetch, .post 0 (Cpl.answer 0 true 0), .poll true]).map
      (fun s => (s.seen true).map Seen.slot) = some (some 0) := by
    decide +kernel
  obtain ⟨s, ran, seen⟩ := Option.map_eq_some_iff.mp ended
  obtain ⟨s₁, enqueued, served⟩ := Option.bind_eq_some_iff.mp ran
  obtain ⟨v, seen, _⟩ := Option.map_eq_some_iff.mp seen
  have fresh : (start rings : AdminSystem Bool).paced (.enqueue true devSelfTestCmd) :=
    freshCid_start (by decide +kernel) _ _
  have reached : Reachable (machine Bool (initQueueSize 1#32)) paced s :=
    (begins.next fresh enqueued).leads (fun s e _ _ serves _ => serving_paced s e serves)
      (Leads.computed _ served)
  exact ⟨s, v, reached, seen, completions_kept 1#32 s reached⟩

end AdminSystem

end BafsNvme
