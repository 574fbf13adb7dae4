import BafsNvme.CompletionWindow

/-! No submission of the admin rings gets stuck: the clients and the device can always finish
what has been enqueued, although a poll overlooks completions behind the end of the ring. -/

namespace BafsNvme

open Window RetireCursor Machine

namespace AdminSystem

variable {ι : Type}

def Resting (s : AdminSystem ι) : Prop := ∀ t, s.sub.held t = none ∧ s.seen t = none

/-- Each fetched command is answered or in flight, once. -/
def Served (s : AdminSystem ι) : Prop :=
  (s.posted.map Prod.snd ++ s.inflight.map Prod.snd).Perm (List.range s.sub.fetched.length)

structure LiveInv (n low : Nat) (retired : Finset Nat) (s : AdminSystem ι) : Prop where
  adm : AdminInv n low retired s
  window : WindowInv n s
  served : s.Served

def Serves [DecidableEq ι] (n : Nat) (s s' : AdminSystem ι) : Prop :=
  (machine ι n).Leads serving s s' ∧ s'.sub.enqueued = s.sub.enqueued

variable [DecidableEq ι] {n low : Nat} {retired : Finset Nat} {s s' s'' : AdminSystem ι}

theorem Serves.trans (first : Serves n s s') (second : Serves n s' s'') : Serves n s s'' :=
  ⟨first.1.trans second.1, second.2.trans first.2⟩

omit [DecidableEq ι] in
theorem Served.fetch (served : s.Served) (ring : s.sub.RingInv n low)
    (fetching : s.sub.FetchInv n low) (more : s.sub.devHead ≠ s.sub.devTail) :
    Served { s with
      sub := s.sub.fetchOne
      inflight := s.inflight ++ [(s.sub.aqp.sq.addr s.sub.devHead, s.sub.tag s.sub.devHead)] } := by
  obtain ⟨_, _, _, tagged⟩ := ring.next_entry fetching more
  simp only [Served, SqSystem.fetchOne, tagged, List.map_append, List.map_cons, List.map_nil,
    List.length_append, List.length_singleton, List.range_succ, ← List.append_assoc]
  exact served.append_right _

omit [DecidableEq ι] in
theorem Served.post (served : s.Served) {k serial : Nat} {cmd : Cmd} (cpl : Cpl)
    (flying : s.inflight[k]? = some (cmd, serial)) : (s.postOne k serial cpl).Served := by
  obtain ⟨present, entry⟩ := List.getElem?_eq_some_iff.mp flying
  have erased := (List.getElem_cons_eraseIdx_perm present).map Prod.snd
  rw [entry] at erased
  have moved : (s.posted.map Prod.snd ++ [serial] ++ (s.inflight.eraseIdx k).map Prod.snd).Perm
      (s.posted.map Prod.snd ++ s.inflight.map Prod.snd) := by
    rw [List.append_assoc]
    exact erased.append_left _
  simp only [Served, postOne, List.map_append, List.map_cons, List.map_nil]
  exact moved.trans served

namespace LiveInv

omit [DecidableEq ι] in
theorem start (positive : 0 < n) {cqAddr : Nat → Cpl} (clear : PhasesClear n cqAddr)
    (sqAddr : Nat → Cmd) : LiveInv (ι := ι) n 0 ∅ (start (adminInitRings n cqAddr sqAddr)) where
  adm := AdminInv.start positive clear sqAddr
  window := WindowInv.start positive cqAddr sqAddr
  served := by simp [Served, AdminSystem.start, SqSystem.start]

theorem step (positive : 0 < n) (small : n ≤ 4096) (live : LiveInv n low retired s)
    {e : AdminEvent ι} (permitted : s.paced e) (taken : s.step e = some s') :
    ∃ low' retired', LiveInv n low' retired' s' := by
  obtain ⟨low', retired', adm⟩ := live.adm.step positive small (paced_fresh permitted) taken
  have window := live.window.step positive small live.adm permitted taken
  refine ⟨low', retired', adm, window, ?_⟩
  cases e with
  | enqueue t cmd =>
      obtain ⟨_, _, rfl | ⟨cid, _, _, rfl⟩⟩ := enqueue_cases taken <;> exact live.served
  | poll t =>
      obtain ⟨_, _, _, rfl | ⟨_, _, rfl⟩⟩ := poll_cases taken <;> exact live.served
  | sqCleanup t =>
      obtain ⟨_, _, _, _, _, _, rfl⟩ := sqCleanup_cases taken
      exact live.served
  | cqCleanup t =>
      obtain ⟨_, _, _, _, _, rfl⟩ := cqCleanup_cases taken
      exact live.served
  | fetch =>
      obtain ⟨more, rfl⟩ := fetch_cases taken
      exact live.served.fetch live.adm.ring live.adm.fetching more
  | post k cpl =>
      obtain ⟨_, _, flying, _, _, rfl⟩ := post_cases taken
      exact live.served.post cpl flying

theorem retires_released (positive : 0 < n) (small : n ≤ 4096) (live : LiveInv n low retired s)
    {t : ι} {v : Seen} (gone : s.sub.held t = none) (seen : s.seen t = some v) :
    ∃ s', Serves n s s' ∧ LiveInv n low (insert v.serial retired) s' := by
  obtain ⟨aqp, ended, adm⟩ := live.adm.retire positive small gone seen
  have taken : s.step (.cqCleanup t) = some (s.retire t aqp) := by
    simp only [AdminSystem.step, gone, seen, ended, Option.map_some]
  refine ⟨s.retire t aqp, ⟨Leads.one (e := .cqCleanup t) trivial taken, rfl⟩, adm, ?_,
    live.served⟩
  exact live.window.retire positive small live.adm gone seen ended

theorem retires (positive : 0 < n) (small : n ≤ 4096) (live : LiveInv n low retired s) {t : ι}
    {v : Seen} (seen : s.seen t = some v) :
    ∃ s' low', Serves n s s' ∧ LiveInv n low' (insert v.serial retired) s' := by
  cases mine : s.sub.held t with
  | none =>
      obtain ⟨s', serves, live'⟩ := live.retires_released positive small mine seen
      exact ⟨s', low, serves, live'⟩
  | some h =>
      obtain ⟨aqp, r, ended, adm⟩ := live.adm.release positive small mine seen
      have taken : s.step (.sqCleanup t) = some { s with sub := s.sub.release t aqp } := by
        simp only [AdminSystem.step, SqSystem.step, seen, mine, ended, Option.isSome_some, if_true,
          Option.map_some]
      have ring : aqp.cq = s.sub.aqp.cq := by
        obtain ⟨_, _, same, _, ring, _⟩ := live.adm.ring.release positive small mine
        obtain rfl := Option.some.inj (ended.symm.trans same)
        exact ring
      have released : LiveInv n (low + r) retired { s with sub := s.sub.release t aqp } :=
        ⟨adm, live.window.release live.adm mine seen ring, live.served⟩
      have gone : (s.sub.release t aqp).held t = none := Function.update_self ..
      obtain ⟨s', serves, live'⟩ := released.retires_released positive small gone seen
      refine ⟨s', low + r, ?_, live'⟩
      exact Serves.trans ⟨Leads.one (e := .sqCleanup t) trivial taken, rfl⟩ serves

omit [DecidableEq ι] in
theorem head_found (positive : 0 < n) (live : LiveInv n low retired s)
    (nonempty : s.cqPassed < s.posted.length) :
    ∃ t serial, (∃ v, s.seen t = some v ∧ v.serial = serial) ∨
      ∃ h, s.sub.held t = some h ∧ h.serial = serial ∧ s.seen t = none ∧
        adminCqPoll s.sub.aqp h.cid = some s.sub.aqp.cq.head := by
  obtain ⟨cpl, serial, entry, t, ⟨h, mine, same⟩ | seen⟩ := live.window.stops nonempty
  · refine ⟨t, serial, ?_⟩
    cases unseen : s.seen t with
    | some v =>
        exact .inl ⟨v, rfl, (live.adm.clients.seenHeld t h v mine unseen).symm.trans same⟩
    | none =>
        refine .inr ⟨h, mine, same, rfl, ?_⟩
        have bound := live.adm.cq_head_lt positive
        have tagged := live.window.tagged s.cqPassed le_rfl nonempty
        have slot : s.sub.aqp.cq.head = s.cqPassed % n := live.adm.clients.cursor.1
        rw [← slot] at tagged
        obtain ⟨_, _, _, phase, serial', stored⟩ := live.adm.device.latest _ _
          (by rwa [live.adm.device.cqSize] at bound) tagged
        rw [entry, Option.some.injEq, Prod.mk.injEq] at stored
        obtain ⟨command, accepted, answers⟩ := live.adm.device.answered cpl serial
          (List.mem_of_getElem? entry)
        obtain ⟨_, _, _, passed, _⟩ := live.adm.ring.held t h mine
        rw [same, accepted, Option.some.injEq] at passed
        apply adminCqPoll_head bound
        rw [pollMatches, Bool.and_eq_true, beq_iff_eq, beq_iff_eq, ← stored.1]
        refine ⟨answers.trans (congrArg Cmd.cid passed), ?_⟩
        rw [stored.1, phase, live.adm.clients.cursor.2]
  · exact ⟨t, serial, .inl seen⟩

theorem head_retires (positive : 0 < n) (small : n ≤ 4096) (live : LiveInv n low retired s)
    (nonempty : s.cqPassed < s.posted.length) :
    ∃ s' low' serial, serial ∉ retired ∧ Serves n s s' ∧
      LiveInv n low' (insert serial retired) s' := by
  obtain ⟨t, serial, ⟨v, seen, rfl⟩ | ⟨h, mine, rfl, unseen, hit⟩⟩ :=
    live.head_found positive nonempty
  · obtain ⟨s', low', serves, live'⟩ := live.retires positive small seen
    exact ⟨s', low', v.serial, live.adm.clients.seenNotRetired t v seen, serves, live'⟩
  · have taken : s.step (.poll t) = some { s with
        seen := Function.update s.seen t (some ⟨s.sub.aqp.cq.head, h.serial⟩) } := by
      simp only [AdminSystem.step, mine, unseen, hit]
    have polled : LiveInv n low retired { s with
        seen := Function.update s.seen t (some ⟨s.sub.aqp.cq.head, h.serial⟩) } :=
      ⟨live.adm.see positive mine unseen hit, live.window.see positive live.adm mine unseen hit,
        live.served⟩
    have seen : Function.update s.seen t (some ⟨s.sub.aqp.cq.head, h.serial⟩) t =
        some ⟨s.sub.aqp.cq.head, h.serial⟩ := Function.update_self ..
    obtain ⟨s', low', serves, live'⟩ := polled.retires positive small seen
    refine ⟨s', low', h.serial, live.adm.clients.heldNotRetired t h mine, ?_, live'⟩
    exact Serves.trans ⟨Leads.one (e := .poll t) trivial taken, rfl⟩ serves

omit [DecidableEq ι] in
theorem room_of_empty (two : 2 ≤ n) (live : LiveInv n low retired s)
    (empty : s.cqPassed = s.posted.length) : s.CqRoom := by
  rw [CqRoom, live.adm.device.cqSize, live.adm.device.tail, live.window.door, empty, slot_succ]
  intro same
  have := slot_inj s.posted.length ⟨by omega, by omega⟩ ⟨le_rfl, by omega⟩ same
  omega

theorem posts (two : 2 ≤ n) (live : LiveInv n low retired s)
    (empty : s.cqPassed = s.posted.length) {cmd : Cmd} {serial : Nat}
    (flying : s.inflight[0]? = some (cmd, serial)) :
    ∃ s', Serves n s s' ∧ LiveInv n low retired s' ∧ s'.cqPassed < s'.posted.length := by
  have positive : 0 < n := by omega
  have free : s.CqRoom := live.room_of_empty two empty
  have success : 0 < 2 ^ 15 := by norm_num
  obtain ⟨cid, phase⟩ := Cpl.answer_fields s.cqPhase cmd.cid_lt success
  have taken : s.step (.post 0 (Cpl.answer cmd.cid s.cqPhase 0)) =
      some (s.postOne 0 serial (Cpl.answer cmd.cid s.cqPhase 0)) := by
    simp only [AdminSystem.step, flying, cid, phase, and_self, if_true]
  have permitted : s.serving (.post 0 (Cpl.answer cmd.cid s.cqPhase 0)) :=
    ⟨free, Cpl.answer_status _ cmd.cid_lt success⟩
  refine ⟨_, ⟨Leads.one permitted taken, rfl⟩, ⟨live.adm.post positive flying cid phase,
    live.window.post live.adm _ flying free, live.served.post _ flying⟩, ?_⟩
  simp only [postOne, withRings, List.length_append, List.length_singleton, empty]
  omega

theorem fetches (live : LiveInv n low retired s)
    (behind : s.sub.fetched.length < s.sub.enqueued.length) :
    ∃ s', Serves n s s' ∧ LiveInv n low retired s' ∧ s'.cqPassed = s.cqPassed ∧
      s'.posted = s.posted ∧ s'.inflight ≠ [] := by
  have more : s.sub.devHead ≠ s.sub.devTail := by
    intro same
    have all := live.adm.ring.caught_up live.adm.fetching same
    omega
  have taken : s.step .fetch = some { s with
      sub := s.sub.fetchOne
      inflight := s.inflight ++
        [(s.sub.aqp.sq.addr s.sub.devHead, s.sub.tag s.sub.devHead)] } := by
    simp only [AdminSystem.step, SqSystem.step, if_neg more, Option.map_some]
  refine ⟨_, ⟨Leads.one (e := .fetch) trivial taken, rfl⟩, ⟨live.adm.fetch more, ?_,
    live.served.fetch live.adm.ring live.adm.fetching more⟩, rfl, rfl, by simp⟩
  exact live.window.congr rfl rfl rfl rfl (fun _ => Iff.rfl) live.window.seen

omit [DecidableEq ι] in
theorem mem_inflight (live : LiveInv n low retired s) {k : Nat}
    (fetched : k < s.sub.fetched.length) (unanswered : ¬ s.Posted k) : s.inflight ≠ [] := by
  intro none_flying
  have member := live.served.mem_iff.mpr (List.mem_range.mpr fetched)
  rw [none_flying, List.map_nil, List.append_nil, ← posted_iff] at member
  exact unanswered member

omit [DecidableEq ι] in
theorem unanswered_of_empty (live : LiveInv n low retired s)
    (empty : s.cqPassed = s.posted.length) {serial : Nat} (at_work : s.Working serial) :
    ¬ s.Posted serial := by
  rintro ⟨cpl, member⟩
  obtain ⟨p, entry⟩ := List.getElem?_of_mem member
  have below := (List.getElem?_eq_some_iff.mp entry).1
  exact live.window.behind p (by omega) ⟨cpl, serial, entry, at_work⟩

omit [DecidableEq ι] in
theorem working_lt (live : LiveInv n low retired s) {serial : Nat} (at_work : s.Working serial) :
    serial < s.sub.enqueued.length := by
  obtain ⟨t, ⟨h, mine, rfl⟩ | ⟨v, seen, rfl⟩⟩ := at_work
  · exact (live.adm.ring.held t h mine).2.1
  · exact AdminInv.posted_lt live.adm.device live.adm.fetching.notAhead
      (live.adm.clients.seenPosted t v seen)

theorem progress (two : 2 ≤ n) (small : n ≤ 4096) (live : LiveInv n low retired s) {serial : Nat}
    (at_work : s.Working serial) :
    ∃ s' low' serial', serial' ∉ retired ∧ Serves n s s' ∧
      LiveInv n low' (insert serial' retired) s' := by
  have positive : 0 < n := by omega
  have posted {s : AdminSystem ι} (live : LiveInv n low retired s)
      (empty : s.cqPassed = s.posted.length) (flying : s.inflight ≠ []) :
      ∃ s' low' serial', serial' ∉ retired ∧ Serves n s s' ∧
        LiveInv n low' (insert serial' retired) s' := by
    obtain ⟨⟨cmd, next⟩, rest, front⟩ := List.exists_cons_of_ne_nil flying
    obtain ⟨s₁, first, live₁, nonempty⟩ := live.posts two empty
      (show s.inflight[0]? = some (cmd, next) by rw [front]; rfl)
    obtain ⟨s', low', serial', fresh, second, live'⟩ := live₁.head_retires positive small nonempty
    exact ⟨s', low', serial', fresh, first.trans second, live'⟩
  rcases Nat.eq_or_lt_of_le live.window.window.ordered with empty | nonempty
  · have unanswered := live.unanswered_of_empty empty at_work
    by_cases fetched : serial < s.sub.fetched.length
    · exact posted live empty (live.mem_inflight fetched unanswered)
    · have below := live.working_lt at_work
      obtain ⟨s₁, first, live₁, passed, same, flying⟩ := live.fetches (by omega)
      obtain ⟨s', low', serial', fresh, second, live'⟩ :=
        posted live₁ (by rw [passed, same]; exact empty) flying
      exact ⟨s', low', serial', fresh, first.trans second, live'⟩
  · exact live.head_retires positive small nonempty

end LiveInv

structure Drained (s : AdminSystem ι) : Prop where
  resting : s.Resting
  answered : s.posted.length = s.sub.enqueued.length ∧
    ∀ serial, serial < s.sub.enqueued.length → s.Posted serial
  idle : s.inflight = []
  sqEmpty : s.sub.aqp.sq.head = s.sub.aqp.sq.tail ∧ ∀ cid, s.sub.aqp.sq.cid cid = false
  cqEmpty : s.cqPassed = s.posted.length ∧ s.sub.aqp.cq.head = s.cqTail
  accepts : ∀ cmd, (adminEnqueueCommand s.sub.aqp cmd).1 = some s.sub.aqp.sq.tail
  fresh : s.FreshCid

omit [DecidableEq ι] in
theorem Resting.no_pending (resting : s.Resting) (serial : Nat) : ¬ s.sub.Pending serial := by
  rintro ⟨t, h, mine, _⟩
  rw [(resting t).1] at mine
  cases mine

omit [DecidableEq ι] in
theorem Resting.no_work (resting : s.Resting) (serial : Nat) : ¬ s.Working serial := by
  rintro ⟨t, ⟨h, mine, _⟩ | ⟨v, seen, _⟩⟩
  · rw [(resting t).1] at mine
    cases mine
  · rw [(resting t).2] at seen
    cases seen

namespace LiveInv

omit [DecidableEq ι] in
theorem resting_heads (live : LiveInv n low retired s) (resting : s.Resting) :
    low = s.sub.enqueued.length ∧ s.cqPassed = s.posted.length := by
  constructor
  · have ordered := live.adm.ring.retiring.ordered
    by_contra short
    exact resting.no_pending low (live.adm.ring.atRest (by omega))
  · rcases Nat.eq_or_lt_of_le live.window.window.ordered with same | nonempty
    · exact same
    · obtain ⟨_, serial, _, at_work⟩ := live.window.stops nonempty
      exact absurd at_work (resting.no_work serial)

omit [DecidableEq ι] in
theorem resting_sqHead (live : LiveInv n low retired s) (resting : s.Resting) :
    s.sub.aqp.sq.head = s.sub.aqp.sq.tail := by
  rw [live.adm.ring.retiring.placed.1, live.adm.ring.tail, (live.resting_heads resting).1]

omit [DecidableEq ι] in
theorem resting_full (live : LiveInv n low retired s) (resting : s.Resting) :
    sqFull s.sub.aqp.sq = decide (n = 1) := by
  have size := live.adm.ring.size
  have bound := live.adm.ring.room
  have ordered := live.adm.ring.retiring.ordered
  rw [sqFull, live.resting_sqHead resting, Nat.add_sub_cancel_left, Nat.mod_self, Nat.zero_mod,
    Nat.zero_mod, size, Bool.eq_iff_iff, beq_iff_eq, decide_eq_true_iff]
  omega

omit [DecidableEq ι] in
/-- Between two commands a submission has a fresh CID: no completion is ahead of the head, and
where a ring of one slot has no slot to give, nothing is submitted. -/
theorem resting_fresh (live : LiveInv n low retired s) (resting : s.Resting) : s.FreshCid := by
  intro cid open_ _
  rw [live.resting_full resting, decide_eq_false_iff_not] at open_
  have bound := live.adm.ring.room
  have ordered := live.adm.ring.retiring.ordered
  refine ⟨?_, fun l p inside tagged _ => ?_⟩
  · rw [SlotFree, live.resting_sqHead resting, Nat.add_sub_cancel_left, Nat.mod_self,
      live.adm.ring.size]
    omega
  · rw [live.adm.device.cqSize] at inside
    rw [(live.resting_heads resting).2]
    exact (live.adm.device.latest l p inside tagged).1

omit [DecidableEq ι] in
theorem lone_room (live : LiveInv n low retired s) {t : ι} {h : Held}
    (mine : s.sub.held t = some h) (unanswered : ¬ s.Posted h.serial)
    (lone : ∀ t', t' ≠ t → s.sub.held t' = none ∧ s.seen t' = none) : s.CqRoom := by
  have two : 2 ≤ n := by
    obtain ⟨above, below, _⟩ := live.adm.ring.held t h mine
    have room := live.adm.ring.room
    omega
  apply live.room_of_empty two
  rcases Nat.eq_or_lt_of_le live.window.window.ordered with same | nonempty
  · exact same
  · obtain ⟨cpl, serial, entry, t', at_work⟩ := live.window.stops nonempty
    have own : t' = t := by
      by_contra other
      rcases at_work with ⟨h', held, _⟩ | ⟨v, seen, _⟩
      · rw [(lone t' other).1] at held
        cases held
      · rw [(lone t' other).2] at seen
        cases seen
    subst own
    have current : h.serial = serial := by
      rcases at_work with ⟨h', held, same⟩ | ⟨v, seen, same⟩
      · rw [mine, Option.some.injEq] at held
        exact held ▸ same
      · exact (live.adm.clients.seenHeld t' h v mine seen).trans same
    exact absurd ⟨cpl, current ▸ List.mem_of_getElem? entry⟩ unanswered

omit [DecidableEq ι] in
theorem drained (two : 2 ≤ n) (small : n ≤ 4096) (live : LiveInv n low retired s)
    (resting : s.Resting) : s.Drained := by
  have positive : 0 < n := by omega
  have answered : ∀ serial, serial < s.sub.enqueued.length → s.Posted serial := by
    intro serial below
    by_contra unanswered
    obtain ⟨t, h, mine, _⟩ := live.adm.clients.waiting serial below unanswered
    exact resting.no_pending _ ⟨t, h, mine, rfl⟩
  have fetched : s.sub.fetched.length = s.sub.enqueued.length := by
    have notAhead := live.adm.fetching.notAhead
    by_contra short
    exact short (Nat.le_antisymm notAhead (Nat.le_of_not_lt fun behind =>
      (live.adm.fetching.served s.sub.fetched.length behind (resting.no_pending _)).false))
  have idle : s.inflight = [] := by
    rw [List.eq_nil_iff_forall_not_mem]
    rintro ⟨cmd, serial⟩ member
    obtain ⟨k, flying⟩ := List.getElem?_of_mem member
    have below := (live.adm.device.flying cmd serial member).1
    exact AdminInv.unanswered live.adm.device flying (answered serial (by omega))
  have counted : s.posted.length = s.sub.enqueued.length := by
    have same := live.served.length_eq
    simpa [idle, fetched] using same
  have cids : ∀ cid, s.sub.aqp.sq.cid cid = false := by
    intro cid
    by_contra used
    obtain ⟨t, h, mine, _⟩ := (live.adm.ring.table cid).mp (Bool.eq_true_of_not_eq_false used)
    exact resting.no_pending _ ⟨t, h, mine, rfl⟩
  have passed := (live.resting_heads resting).2
  have room : sqFull s.sub.aqp.sq = false := by
    rw [live.resting_full resting, decide_eq_false_iff_not]
    omega
  have tail : s.sub.aqp.sq.tail % 2 ^ 16 = s.sub.aqp.sq.tail := by
    have bound := Nat.mod_lt s.sub.enqueued.length positive
    apply Nat.mod_eq_of_lt
    rw [live.adm.ring.tail]
    omega
  constructor
  · exact resting
  · exact ⟨counted, answered⟩
  · exact idle
  · exact ⟨live.resting_sqHead resting, cids⟩
  · exact ⟨passed, by rw [live.adm.clients.cursor.1, live.adm.device.tail, passed]⟩
  · intro cmd
    obtain ⟨cid, found⟩ := live.adm.ring.cid_available small
    rcases adminEnqueueCommand_cases s.sub.aqp cmd with ⟨_, full | empty⟩ | ⟨_, _, _, done⟩
    · rw [room] at full
      cases full
    · rw [found] at empty
      cases empty
    · rw [done, tail]
  · exact live.resting_fresh resting

omit [DecidableEq ι] in
theorem retired_le (live : LiveInv n low retired s) : retired.card ≤ s.sub.enqueued.length := by
  have within : retired ⊆ Finset.range s.sub.enqueued.length := by
    intro serial member
    rw [Finset.mem_range]
    exact AdminInv.posted_lt live.adm.device live.adm.fetching.notAhead
      (live.adm.clients.retiredPosted serial member)
  simpa using Finset.card_le_card within

end LiveInv

def Unretired (n : Nat) (all : List Cmd) (work : Nat) (s : AdminSystem ι) : Prop :=
  ∃ low retired, LiveInv n low retired s ∧ s.sub.enqueued = all ∧ work = all.length - retired.card

theorem Unretired.progress (two : 2 ≤ n) (small : n ≤ 4096) {all : List Cmd} {work : Nat}
    (left : Unretired n all work s) : s.Drained ∨
      ∃ less s', less < work ∧ Unretired n all less s' ∧ (machine ι n).Leads serving s s' := by
  obtain ⟨low, retired, live, same, rfl⟩ := left
  by_cases resting : s.Resting
  · exact .inl (live.drained two small resting)
  · right
    obtain ⟨serial, at_work⟩ : ∃ serial, s.Working serial := by
      simp only [Resting, not_forall, not_and_or] at resting
      obtain ⟨t, holds | sees⟩ := resting
      · obtain ⟨h, mine⟩ := Option.ne_none_iff_exists'.mp holds
        exact ⟨h.serial, t, .inl ⟨h, mine, rfl⟩⟩
      · obtain ⟨v, seen⟩ := Option.ne_none_iff_exists'.mp sees
        exact ⟨v.serial, t, .inr ⟨v, seen, rfl⟩⟩
    obtain ⟨last, low', serial', fresh, serves, live'⟩ := live.progress two small at_work
    have now : last.sub.enqueued = all := serves.2.trans same
    have most := live'.retired_le
    rw [Finset.card_insert_of_notMem fresh, now] at most
    refine ⟨all.length - (insert serial' retired).card, last, ?_, ⟨low', _, live', now, rfl⟩,
      serves.1⟩
    rw [Finset.card_insert_of_notMem fresh]
    omega

theorem LiveInv.drains (two : 2 ≤ n) (small : n ≤ 4096) (live : LiveInv n low retired s) :
    ∃ s', Serves n s s' ∧ s'.Drained := by
  obtain ⟨last, _, drained, ⟨_, _, _, same, _⟩, path⟩ :=
    leads_done (Unretired n s.sub.enqueued) Drained (fun _ _ left => left.progress two small)
      ⟨low, retired, live, rfl, rfl⟩
  exact ⟨last, ⟨path, same⟩, drained⟩

theorem enqueue_taken {t : ι} {cmd : FreshCmd} {loc : Nat} {aqp : AdminRings} {cmd_ : Cmd}
    (idle : s.sub.held t = none) (unseen : s.seen t = none)
    (accepted : adminEnqueueCommand s.sub.aqp cmd = (some loc, aqp, cmd_)) :
    s.step (.enqueue t cmd) = some { s with sub := s.sub.accept t cmd loc aqp cmd_ } := by
  have taken : s.sub.step (.enqueue t cmd) = some (s.sub.accept t cmd loc aqp cmd_) := by
    rw [SqSystem.step, idle, accepted]
    rfl
  rw [step, unseen, taken]
  rfl

theorem Drained.enqueues (drained : s.Drained) (t : ι) (cmd : FreshCmd) :
    ∃ s', s.step (.enqueue t cmd) = some s' ∧ (s'.sub.held t).isSome = true := by
  obtain ⟨idle, unseen⟩ := drained.resting t
  rcases adminEnqueueCommand_cases s.sub.aqp cmd.1 with ⟨refused, _⟩ | ⟨cid, _, _, done⟩
  · have accepts := drained.accepts cmd.1
    rw [refused] at accepts
    cases accepts
  · exact ⟨_, enqueue_taken idle unseen done, by simp [SqSystem.accept]⟩

theorem live_inv (positive : 0 < n) (small : n ≤ 4096)
    (reached : Reachable (machine ι n) paced s) : ∃ low retired, LiveInv n low retired s := by
  refine reached.invariant (P := fun s => ∃ low retired, LiveInv n low retired s) ?_ ?_
  · rintro s ⟨cqAddr, sqAddr, clear, rfl⟩
    exact ⟨0, ∅, LiveInv.start positive clear sqAddr⟩
  · rintro s e s' ⟨low, retired, live⟩ permitted taken
    exact live.step positive small permitted taken

/-- From every state of a paced run the commands accepted so far can be finished, without any
further submission, and then the queue takes the next one. -/
theorem admin_queue_drains (cap0 : Dword) (two : 2 ≤ initQueueSize cap0) (s : AdminSystem ι)
    (reached : Reachable (machine ι (initQueueSize cap0)) paced s) :
    ∃ s', Serves (initQueueSize cap0) s s' ∧ s'.Drained := by
  obtain ⟨positive, small⟩ := initQueueSize_bounds cap0
  obtain ⟨low, retired, live⟩ := live_inv positive small reached
  exact live.drains two small

theorem admin_queue_drains_enqueued :
    ∃ s s', s.sub.enqueued.length = 1 ∧ Serves (ι := Bool) (initQueueSize 1#32) s s' ∧
      s'.Drained := by
  let rings := adminInitRings (initQueueSize 1#32) (fun _ => Cpl.zero) fun _ => clearCmd
  have begins : Reachable (machine Bool (initQueueSize 1#32)) paced (start rings) :=
    .start (machine_init _ _)
  have two : 2 ≤ initQueueSize 1#32 := by decide +kernel
  have ended : ((machine Bool (initQueueSize 1#32)).step (start rings)
      (.enqueue true devSelfTestCmd)).map (fun s => s.sub.enqueued.length) = some 1 := by
    decide +kernel
  obtain ⟨s, enqueued, one⟩ := Option.map_eq_some_iff.mp ended
  have fresh : (start rings : AdminSystem Bool).paced (.enqueue true devSelfTestCmd) :=
    freshCid_start two _ _
  obtain ⟨s', serves, drained⟩ := admin_queue_drains 1#32 two s (begins.next fresh enqueued)
  exact ⟨s, s', one, serves, drained⟩

end AdminSystem

end BafsNvme
