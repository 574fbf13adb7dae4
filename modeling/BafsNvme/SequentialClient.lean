import BafsNvme.CompletionInvariant

/-! One client alone: every command reuses CID 0, so only the phase bit keeps the answers of
earlier passes apart from the one the client waits for. -/

namespace BafsNvme

open Window RetireCursor Machine

namespace AdminSystem

def Idle (s : AdminSystem Unit) : Prop := s.sub.held () = none ∧ s.seen () = none

instance (s : AdminSystem Unit) : Decidable s.Idle :=
  decidable_of_iff ((s.sub.held ()).isNone ∧ (s.seen ()).isNone) (by simp [Idle])

/-- Completions come in the order of the commands, and everything but the current command
is behind both heads. -/
structure SequentialInv (n : Nat) (s : AdminSystem Unit) : Prop where
  order : ∀ (p : Nat) (cpl : Cpl) (k : Nat), s.posted[p]? = some (cpl, k) → k = p
  passed : s.cqPassed + (if s.Idle then 0 else 1) = s.sub.enqueued.length
  unmarked : ∀ l, l < n → s.sub.aqp.cq.mark l = false
  current : ∀ h, s.sub.held () = some h → h.serial + 1 = s.sub.enqueued.length
  seen : ∀ v, s.seen () = some v →
    v.serial + 1 = s.sub.enqueued.length ∧ v.slot = v.serial % n
  door : s.sub.aqp.cq.db = if s.cqPassed = 0 then none else some (s.cqPassed % n)

structure Settled (n k : Nat) (aqp : AdminRings) : Prop where
  sq_head : aqp.sq.head = k % n
  sq_tail : aqp.sq.tail = k % n
  cq_head : aqp.cq.head = k % n
  sq_phase : aqp.sq.phase = decide (k / n % 2 = 0)
  cq_phase : aqp.cq.phase = decide (k / n % 2 = 0)
  sq_marks : ∀ l, l < n → aqp.sq.mark l = false
  cq_marks : ∀ l, l < n → aqp.cq.mark l = false
  cids : ∀ c, aqp.sq.cid c = false
  doorbells : 0 < k → aqp.sq.db = some (k % n) ∧ aqp.cq.db = some (k % n)

namespace SequentialInv

variable {n low : Nat} {retired : Finset Nat} {s : AdminSystem Unit}

theorem posted_iff_lt (seq : SequentialInv n s) (k : Nat) :
    s.Posted k ↔ k < s.posted.length := by
  constructor
  · rintro ⟨cpl, member⟩
    obtain ⟨p, entry⟩ := List.getElem?_of_mem member
    obtain ⟨bound, _⟩ := List.getElem?_eq_some_iff.mp entry
    rw [seq.order p cpl k entry]
    exact bound
  · intro bound
    refine ⟨s.posted[k].1, ?_⟩
    have own := seq.order k s.posted[k].1 s.posted[k].2 (List.getElem?_eq_getElem bound)
    have member := List.getElem_mem bound
    rwa [show s.posted[k] = (s.posted[k].1, k) from Prod.ext rfl own] at member

theorem posted_le (inv : AdminInv n low retired s) (seq : SequentialInv n s) :
    s.posted.length ≤ s.sub.enqueued.length := by
  by_contra beyond
  obtain ⟨cpl, member⟩ := (seq.posted_iff_lt s.sub.enqueued.length).mpr (by omega)
  have fetched := inv.device.answers _ _ member
  have notAhead := inv.fetching.notAhead
  omega

theorem earlier_posted (inv : AdminInv n low retired s) (seq : SequentialInv n s) {k : Nat}
    (earlier : k + 1 < s.sub.enqueued.length) : s.Posted k := by
  by_contra unanswered
  obtain ⟨_, h, mine, serial, _⟩ := inv.clients.waiting k (by omega) unanswered
  have := seq.current h mine
  omega

theorem idle_posted (inv : AdminInv n low retired s) (seq : SequentialInv n s) (idle : s.Idle) :
    s.posted.length = s.sub.enqueued.length := by
  have most := seq.posted_le inv
  by_contra fewer
  have unanswered : ¬ s.Posted s.posted.length := by
    rw [seq.posted_iff_lt]
    exact lt_irrefl _
  obtain ⟨_, h, mine, _⟩ := inv.clients.waiting _ (by omega) unanswered
  have none_held := idle.1
  rw [mine] at none_held
  cases none_held

theorem idle_low (inv : AdminInv n low retired s) (idle : s.Idle) :
    low = s.sub.enqueued.length := by
  have ordered := inv.ring.retiring.ordered
  by_contra fewer
  obtain ⟨_, h, mine, _⟩ := inv.ring.atRest (by omega)
  have none_held := idle.1
  rw [mine] at none_held
  cases none_held

theorem settled (inv : AdminInv n low retired s) (seq : SequentialInv n s) (idle : s.Idle) :
    Settled n s.sub.enqueued.length s.sub.aqp := by
  have atLow := idle_low inv idle
  have passed := seq.passed
  rw [if_pos idle, Nat.add_zero] at passed
  have sqPlaced := inv.ring.retiring.placed
  have cqPlaced := inv.clients.cursor
  rw [atLow] at sqPlaced
  rw [passed] at cqPlaced
  constructor
  · exact sqPlaced.1
  · exact inv.ring.tail
  · exact cqPlaced.1
  · exact sqPlaced.2
  · exact cqPlaced.2
  · intro l bound
    by_contra marked
    obtain ⟨j, above, below, _⟩ := inv.ring.retiring.only l bound (by simpa using marked)
    omega
  · exact seq.unmarked
  · intro c
    by_contra taken
    obtain ⟨_, h, mine, _⟩ := (inv.ring.table c).mp (by simpa using taken)
    have none_held := idle.1
    rw [mine] at none_held
    cases none_held
  · intro some_command
    have sqDoor := inv.ring.door
    have cqDoor := seq.door
    rw [if_neg (by omega)] at sqDoor
    rw [passed, if_neg (by omega)] at cqDoor
    exact ⟨sqDoor, cqDoor⟩

theorem freshCid (two : 2 ≤ n) (inv : AdminInv n low retired s) (seq : SequentialInv n s)
    (idle : s.Idle) : s.FreshCid := by
  have rings := seq.settled inv idle
  have passed := seq.passed
  have most := seq.posted_le inv
  rw [if_pos idle, Nat.add_zero] at passed
  intro cid _ _
  constructor
  · rw [SlotFree, inv.ring.size, rings.sq_head, rings.sq_tail, Nat.add_sub_cancel_left,
      Nat.mod_self]
    omega
  · intro l p bound tagged _
    rw [inv.device.cqSize] at bound
    obtain ⟨before, _⟩ := inv.device.latest l p bound tagged
    omega

theorem poll_found (positive : 0 < n) (inv : AdminInv n low retired s) (seq : SequentialInv n s)
    {h : Held} (mine : s.sub.held () = some h) (posted : s.Posted h.serial) :
    adminCqPoll s.sub.aqp h.cid = some (h.serial % n) := by
  have busy : ¬ s.Idle := by
    rintro ⟨none_held, _⟩
    rw [mine] at none_held
    cases none_held
  have passed := seq.passed
  have current := seq.current h mine
  have most := seq.posted_le inv
  have count := (seq.posted_iff_lt h.serial).mp posted
  rw [if_neg busy] at passed
  have atHead : s.cqPassed = h.serial := by omega
  obtain ⟨headSlot, headPhase⟩ := inv.clients.cursor
  rw [atHead] at headSlot headPhase
  have slotBound := Nat.mod_lt h.serial positive
  have tagged : s.cqTag (h.serial % n) = some h.serial := by
    cases tag : s.cqTag (h.serial % n) with
    | none =>
        have unposted := (inv.device.empty _ slotBound tag).1
        have := Nat.mod_le h.serial n
        omega
    | some p =>
        obtain ⟨before, recent, slot, _⟩ := inv.device.latest _ p slotBound tag
        have same := slot_inj p ⟨le_rfl, by omega⟩
          (⟨by omega, by omega⟩ : p ≤ h.serial ∧ h.serial < p + n) slot
        rw [same]
  obtain ⟨_, _, _, phase, serial, entry⟩ := inv.device.latest _ _ slotBound tagged
  have own := seq.order _ _ _ entry
  rw [own] at entry
  have answered := inv.device.answered _ _ (List.mem_of_getElem? entry)
  obtain ⟨cmd, stored, cid⟩ := answered
  obtain ⟨_, _, _, stored', _⟩ := inv.ring.held _ h mine
  rw [stored', Option.some.injEq] at stored
  rw [← headSlot]
  apply adminCqPoll_head (inv.cq_head_lt positive)
  simp only [pollMatches, headSlot, headPhase, phase, cid, ← stored, beq_self_eq_true,
    Bool.and_true, beq_iff_eq]
  rfl

theorem start (n : Nat) (cqAddr : Nat → Cpl) (sqAddr : Nat → Cmd) :
    SequentialInv n (AdminSystem.start (adminInitRings n cqAddr sqAddr)) := by
  constructor <;> simp [AdminSystem.start, SqSystem.start, adminInitRings, Idle]

theorem accept (seq : SequentialInv n s) (idle : s.Idle) (cmd : FreshCmd) (loc : Nat)
    (aqp : AdminRings) (sameCq : aqp.cq = s.sub.aqp.cq) (cmd_ : Cmd) :
    SequentialInv n { s with sub := s.sub.accept () cmd loc aqp cmd_ } := by
  have passed := seq.passed
  rw [if_pos idle, Nat.add_zero] at passed
  constructor
  · exact seq.order
  · rw [if_neg (by simp [Idle, SqSystem.accept])]
    simp [SqSystem.accept, passed]
  · simpa only [SqSystem.accept, sameCq] using seq.unmarked
  · intro h now
    simp only [SqSystem.accept, Function.update_self, Option.some.injEq] at now
    simp [SqSystem.accept, ← now]
  · intro v seen
    have unseen := idle.2
    rw [unseen] at seen
    cases seen
  · simpa only [SqSystem.accept, sameCq] using seq.door

theorem see (positive : 0 < n) (inv : AdminInv n low retired s) (seq : SequentialInv n s)
    {h : Held} {l : Nat} (mine : s.sub.held () = some h) (unseen : s.seen () = none)
    (hit : adminCqPoll s.sub.aqp h.cid = some l) :
    SequentialInv n { s with seen := Function.update s.seen () (some ⟨l, h.serial⟩) } := by
  obtain ⟨_, _, entry⟩ := inv.hit_answers positive mine unseen hit
  have slot := seq.poll_found positive inv mine ⟨_, List.mem_of_getElem? entry⟩
  rw [hit, Option.some.injEq] at slot
  have passed := seq.passed
  rw [if_neg (by simp [Idle, mine])] at passed
  constructor
  · exact seq.order
  · rw [if_neg (by simp [Idle, mine])]
    exact passed
  · exact seq.unmarked
  · exact seq.current
  · intro v now
    simp only [Function.update_self, Option.some.injEq] at now
    subst now
    exact ⟨seq.current h mine, slot⟩
  · exact seq.door

theorem release (seq : SequentialInv n s) {aqp : AdminRings} (sameCq : aqp.cq = s.sub.aqp.cq)
    {v : Seen} (seen : s.seen () = some v) :
    SequentialInv n { s with sub := s.sub.release () aqp } := by
  have passed := seq.passed
  rw [if_neg (by simp [Idle, seen])] at passed
  constructor
  · exact seq.order
  · rw [if_neg (by simp [Idle, seen])]
    exact passed
  · simpa only [SqSystem.release, sameCq] using seq.unmarked
  · intro h now
    simp [SqSystem.release] at now
  · exact seq.seen
  · simpa only [SqSystem.release, sameCq] using seq.door

theorem retire (two : 2 ≤ n) (small : n ≤ 4096) (inv : AdminInv n low retired s)
    (seq : SequentialInv n s) {v : Seen} {aqp : AdminRings} (gone : s.sub.held () = none)
    (seen : s.seen () = some v) (ended : adminCqMarkCleanup s.sub.aqp v.slot = some aqp) :
    SequentialInv n (s.retire () aqp) := by
  have positive : 0 < n := by omega
  have headBound := inv.cq_head_lt positive
  have cqSize := inv.device.cqSize
  obtain ⟨r, c, short, moves, ended'⟩ := adminCqMarkCleanup_swept s.sub.aqp v.slot headBound
    (by rw [cqSize]; exact small)
  rw [ended', Option.some.injEq] at ended
  subst ended
  rw [cqSize] at moves short headBound
  obtain ⟨serial, slot⟩ := seq.seen v seen
  have passed := seq.passed
  rw [if_neg (by simp [Idle, seen])] at passed
  have cursor := inv.clients.cursor
  have atHead : v.slot = s.sub.aqp.cq.head := by
    rw [slot, cursor.1]
    congr 1
    omega
  have spent := moves.setCount headBound
  have before := setCount_eq_zero.mpr seq.unmarked
  have marked := setCount_set headBound (seq.unmarked _ headBound)
  rw [← atHead, before] at marked
  simp only [markAt] at spent
  rw [marked] at spent
  have one : r = 1 := by
    cases moves with
    | stop clear => simp [markAt, atHead] at clear
    | retire _ _ => omega
  subst one
  have placed : At n (s.cqPassed + 1) c := moves.at positive cursor
  have moved := headMoves_eq positive cursor placed short
  have headMoved : s.sub.aqp.cq.head ≠ c.head := by
    rw [placed.1, cursor.1, slot_next positive]
    split <;> omega
  have nowPassed : (s.retire () { s.sub.aqp with
      cq := { s.sub.aqp.cq with
        toRetireCursor := c
        db := if s.sub.aqp.cq.head ≠ c.head then some c.head else s.sub.aqp.cq.db } }).cqPassed =
      s.cqPassed + 1 := by
    simp only [AdminSystem.retire, cqSize, moved]
  constructor
  · exact seq.order
  · rw [nowPassed, if_pos (by simp [Idle, AdminSystem.retire, withRings, gone])]
    exact passed
  · have clean : setCount c.mark n = 0 := by omega
    exact setCount_eq_zero.mp clean
  · exact seq.current
  · intro v' now
    simp [AdminSystem.retire] at now
  · rw [nowPassed]
    simp only [AdminSystem.retire, withRings]
    rw [if_pos headMoved, if_neg (by omega), placed.1]

theorem post (inv : AdminInv n low retired s) (seq : SequentialInv n s) {k serial : Nat}
    {cmd : Cmd} (cpl : Cpl) (flying : s.inflight[k]? = some (cmd, serial)) :
    SequentialInv n (s.postOne k serial cpl) := by
  have fetched := (inv.device.flying cmd serial (List.mem_of_getElem? flying)).1
  have notAhead := inv.fetching.notAhead
  have unanswered : ¬ s.Posted serial := by
    rw [posted_iff]
    intro answered
    have inFlight : serial ∈ s.inflight.map Prod.snd :=
      List.mem_map.mpr ⟨_, List.mem_of_getElem? flying, rfl⟩
    exact (List.nodup_append.mp inv.device.once).2.2 _ answered _ inFlight rfl
  have next : serial = s.posted.length := by
    have beyond := (seq.posted_iff_lt serial).not.mp unanswered
    have most := seq.posted_le inv
    have last : ¬ serial + 1 < s.sub.enqueued.length :=
      fun earlier => unanswered (seq.earlier_posted inv earlier)
    by_contra different
    have := (seq.posted_iff_lt s.posted.length).mp (seq.earlier_posted inv (by omega))
    omega
  have passed := seq.passed
  constructor
  · intro p c k' entry
    simp only [postOne] at entry
    rw [List.getElem?_append] at entry
    split at entry
    · exact seq.order p c k' entry
    · next beyond =>
      obtain ⟨short, value⟩ := List.getElem?_eq_some_iff.mp entry
      simp only [List.length_singleton] at short
      simp only [List.getElem_singleton, Prod.mk.injEq] at value
      omega
  · exact passed
  · exact seq.unmarked
  · exact seq.current
  · exact seq.seen
  · exact seq.door

theorem step {s' : AdminSystem Unit} {e : AdminEvent Unit} (two : 2 ≤ n) (small : n ≤ 4096)
    (inv : AdminInv n low retired s) (seq : SequentialInv n s) (taken : s.step e = some s') :
    s.freshEnqueue e ∧ SequentialInv n s' := by
  have positive : 0 < n := by omega
  cases e with
  | enqueue t cmd =>
      obtain ⟨idle, unseen, rfl | ⟨cid, room, found, rfl⟩⟩ := enqueue_cases taken
      · exact ⟨seq.freshCid two inv ⟨idle, unseen⟩, seq⟩
      · exact ⟨seq.freshCid two inv ⟨idle, unseen⟩,
          seq.accept ⟨idle, unseen⟩ cmd _ { s.sub.aqp with sq := sqPush s.sub.aqp.sq cid cmd } rfl _⟩
  | poll t =>
      obtain ⟨h, mine, unseen, rfl | ⟨l, hit, rfl⟩⟩ := poll_cases taken
      · exact ⟨trivial, seq⟩
      · exact ⟨trivial, seq.see positive inv mine unseen hit⟩
  | sqCleanup t =>
      obtain ⟨h, v, aqp, mine, seen, ended, rfl⟩ := sqCleanup_cases taken
      obtain ⟨_, _, same, _, sameCq, _⟩ := inv.ring.release positive small mine
      rw [ended, Option.some.injEq] at same
      exact ⟨trivial, seq.release (same ▸ sameCq) seen⟩
  | cqCleanup t =>
      obtain ⟨v, aqp, gone, seen, ended, rfl⟩ := cqCleanup_cases taken
      exact ⟨trivial, seq.retire two small inv gone seen ended⟩
  | fetch =>
      obtain ⟨_, rfl⟩ := fetch_cases taken
      exact ⟨trivial, seq.order, seq.passed, seq.unmarked, seq.current, seq.seen, seq.door⟩
  | post k cpl =>
      obtain ⟨cmd, serial, flying, _, _, rfl⟩ := post_cases taken
      exact ⟨trivial, seq.post inv cpl flying⟩

end SequentialInv

theorem sequential_inv {n : Nat} (two : 2 ≤ n) (small : n ≤ 4096) {s : AdminSystem Unit}
    (reached : Reachable (machine Unit n) anyEvent s) :
    ∃ low retired, AdminInv n low retired s ∧ SequentialInv n s := by
  have positive : 0 < n := by omega
  refine reached.invariant
    (P := fun s => ∃ low retired, AdminInv n low retired s ∧ SequentialInv n s) ?_ ?_
  · rintro s ⟨cqAddr, sqAddr, clear, rfl⟩
    exact ⟨0, ∅, AdminInv.start positive clear sqAddr, SequentialInv.start n cqAddr sqAddr⟩
  · rintro s e s' ⟨low, retired, inv, seq⟩ _ taken
    obtain ⟨fresh, next⟩ := seq.step two small inv taken
    obtain ⟨low', retired', kept⟩ := inv.step positive small fresh taken
    exact ⟨low', retired', kept, next⟩

theorem SequentialInv.accepts {n low : Nat} {retired : Finset Nat} {s : AdminSystem Unit}
    (two : 2 ≤ n) (inv : AdminInv n low retired s) (seq : SequentialInv n s) (idle : s.Idle) :
    sqFull s.sub.aqp.sq = false ∧ nextCid s.sub.aqp.sq = some 0 := by
  have rings := seq.settled inv idle
  have size := inv.ring.size
  constructor
  · have atHead : s.sub.aqp.sq.tail = s.sub.aqp.sq.head := by rw [rings.sq_tail, rings.sq_head]
    rw [sqFull, atHead, Nat.add_sub_cancel_left, Nat.mod_self, Nat.zero_mod, Nat.zero_mod, size]
    rw [beq_eq_false_iff_ne]
    omega
  · rw [nextCid, MAX_CMD, firstFree, if_neg (by simp [rings.cids])]

theorem SequentialInv.idle_inflight {n low : Nat} {retired : Finset Nat} {s : AdminSystem Unit}
    (inv : AdminInv n low retired s) (seq : SequentialInv n s) (idle : s.Idle) :
    s.inflight = [] := by
  rw [List.eq_nil_iff_forall_not_mem]
  rintro ⟨cmd, serial⟩ member
  have all := seq.idle_posted inv idle
  have bound := (inv.device.flying cmd serial member).1
  have notAhead := inv.fetching.notAhead
  have answered := (posted_iff s serial).mp ((seq.posted_iff_lt serial).mpr (by omega))
  exact (List.nodup_append.mp inv.device.once).2.2 _ answered _
    (List.mem_map.mpr ⟨_, member, rfl⟩) rfl

def statuses (s : AdminSystem Unit) : List Nat := s.posted.map fun entry => entry.1.status

theorem answered_command {n : Nat} (two : 2 ≤ n) (small : n ≤ 4096) {s : AdminSystem Unit}
    (reached : Reachable (machine Unit n) anyEvent s) (idle : s.Idle) (cmd : FreshCmd)
    {status : Nat} (statusBound : status < 2 ^ 15) :
    ∃ s' h, Reachable (machine Unit n) anyEvent s' ∧ s'.sub.held () = some h ∧ s'.seen () = none ∧
      s'.sub.enqueued = s.sub.enqueued ++ [cmd.1.withCid 0] ∧
      s'.statuses = s.statuses ++ [status] := by
  obtain ⟨low, retired, inv, seq⟩ := sequential_inv two small reached
  obtain ⟨room, found⟩ := seq.accepts two inv idle
  -- enqueue
  obtain ⟨s₁, taken₁, same₁⟩ : ∃ s₁, (machine Unit n).step s (.enqueue () cmd) = some s₁ ∧ s₁ = { s with
      sub := s.sub.accept () cmd (s.sub.aqp.sq.tail % 2 ^ 16)
        { s.sub.aqp with sq := sqPush s.sub.aqp.sq 0 cmd } (cmd.1.withCid 0) } := by
    have accepted : adminEnqueueCommand s.sub.aqp cmd.1 = (some (s.sub.aqp.sq.tail % 2 ^ 16),
        { s.sub.aqp with sq := sqPush s.sub.aqp.sq 0 cmd }, cmd.1.withCid 0) := by
      rcases adminEnqueueCommand_cases s.sub.aqp cmd.1 with ⟨_, full | empty⟩ | ⟨cid, _, next, done⟩
      · rw [room] at full
        cases full
      · rw [found] at empty
        cases empty
      · rw [found, Option.some.injEq] at next
        subst next
        exact done
    refine ⟨_, ?_, rfl⟩
    simp only [machine, step, SqSystem.step, idle.1, idle.2, accepted]
    rfl
  have reached₁ := reached.next trivial taken₁
  obtain ⟨low₁, retired₁, inv₁, _⟩ := sequential_inv two small reached₁
  -- fetch
  have more : s₁.sub.devHead ≠ s₁.sub.devTail := by
    intro empty
    have all := inv₁.ring.caught_up inv₁.fetching empty
    have notAhead := inv.fetching.notAhead
    rw [same₁] at all
    simp only [SqSystem.accept, List.length_append, List.length_singleton] at all
    omega
  obtain ⟨s₂, taken₂, same₂⟩ : ∃ s₂, (machine Unit n).step s₁ .fetch = some s₂ ∧
      s₂ = { s₁ with
      sub := s₁.sub.fetchOne
      inflight := s₁.inflight ++
        [(s₁.sub.aqp.sq.addr s₁.sub.devHead, s₁.sub.tag s₁.sub.devHead)] } := by
    refine ⟨_, ?_, rfl⟩
    simp only [machine, step, SqSystem.step, if_neg more]
    rfl
  have reached₂ := reached₁.next trivial taken₂
  have alone : s₂.inflight =
      [(s₁.sub.aqp.sq.addr s₁.sub.devHead, s₁.sub.tag s₁.sub.devHead)] := by
    rw [same₂, same₁]
    simp [seq.idle_inflight inv idle]
  -- post
  obtain ⟨cid, phase⟩ := Cpl.answer_fields s₂.cqPhase
    (s₁.sub.aqp.sq.addr s₁.sub.devHead).cid_lt statusBound
  obtain ⟨s₃, taken₃, same₃⟩ : ∃ s₃, (machine Unit n).step s₂ (.post 0 (Cpl.answer
      (s₁.sub.aqp.sq.addr s₁.sub.devHead).cid s₂.cqPhase status)) = some s₃ ∧
      s₃ = s₂.postOne 0 (s₁.sub.tag s₁.sub.devHead)
        (Cpl.answer (s₁.sub.aqp.sq.addr s₁.sub.devHead).cid s₂.cqPhase status) := by
    refine ⟨_, ?_, rfl⟩
    simp only [machine, step, alone, List.getElem?_cons_zero, cid, phase, and_self, if_true]
  have reached₃ := reached₂.next trivial taken₃
  refine ⟨s₃, ⟨cmd, cmd.1.withCid 0, s.sub.aqp.sq.tail % 2 ^ 16, s.sub.enqueued.length⟩, reached₃,
    ?_, ?_, ?_, ?_⟩
  · rw [same₃, same₂, same₁]
    simp [postOne, withRings, SqSystem.fetchOne, SqSystem.accept]
  · rw [same₃, same₂, same₁]
    exact idle.2
  · rw [same₃, same₂, same₁]
    simp [postOne, withRings, SqSystem.fetchOne, SqSystem.accept]
  · have answer := Cpl.answer_status s₂.cqPhase
      (s₁.sub.aqp.sq.addr s₁.sub.devHead).cid_lt statusBound
    rw [same₃, statuses, postOne, List.map_append, List.map_singleton, answer, same₂, same₁]
    rfl

theorem finished_command {n : Nat} (two : 2 ≤ n) (small : n ≤ 4096) {s : AdminSystem Unit}
    (reached : Reachable (machine Unit n) anyEvent s) {h : Held} (mine : s.sub.held () = some h)
    (unseen : s.seen () = none) (answered : s.Posted h.serial) :
    ∃ s', Reachable (machine Unit n) anyEvent s' ∧ s'.Idle ∧
      s'.sub.enqueued = s.sub.enqueued ∧ s'.statuses = s.statuses := by
  have positive : 0 < n := by omega
  obtain ⟨low, retired, inv, seq⟩ := sequential_inv two small reached
  -- poll
  obtain ⟨s₁, polled, same₁⟩ : ∃ s₁, (machine Unit n).step s (.poll ()) = some s₁ ∧
      s₁ = { s with seen := Function.update s.seen () (some ⟨h.serial % n, h.serial⟩) } := by
    refine ⟨_, ?_, rfl⟩
    simp only [machine, step, mine, unseen, seq.poll_found positive inv mine answered]
  have reached₁ := reached.next trivial polled
  obtain ⟨low₁, retired₁, inv₁, _⟩ := sequential_inv two small reached₁
  have seen₁ : s₁.seen () = some ⟨h.serial % n, h.serial⟩ := by
    simp [same₁]
  have mine₁ : s₁.sub.held () = some h := by
    rw [same₁]
    exact mine
  -- SQ cleanup
  obtain ⟨aqp, _, ended, _⟩ := inv₁.ring.release positive small mine₁
  obtain ⟨s₂, released, same₂⟩ : ∃ s₂, (machine Unit n).step s₁ (.sqCleanup ()) = some s₂ ∧
      s₂ = { s₁ with sub := s₁.sub.release () aqp } := by
    refine ⟨_, ?_, rfl⟩
    simp only [machine, step, SqSystem.step, seen₁, mine₁, ended]
    rfl
  have reached₂ := reached₁.next trivial released
  obtain ⟨low₂, retired₂, inv₂, _⟩ := sequential_inv two small reached₂
  have gone₂ : s₂.sub.held () = none := by
    simp [same₂, SqSystem.release]
  have seen₂ : s₂.seen () = some ⟨h.serial % n, h.serial⟩ := by
    rw [same₂]
    exact seen₁
  -- CQ cleanup
  obtain ⟨aqp', ended', _⟩ := inv₂.retire positive small gone₂ seen₂
  obtain ⟨s₃, retires, same₃⟩ : ∃ s₃, (machine Unit n).step s₂ (.cqCleanup ()) = some s₃ ∧
      s₃ = s₂.retire () aqp' := by
    refine ⟨_, ?_, rfl⟩
    simp only [machine, step, gone₂, seen₂, ended']
    rfl
  refine ⟨s₃, reached₂.next trivial retires, ?_, ?_, ?_⟩
  · rw [same₃]
    exact ⟨gone₂, by simp [AdminSystem.retire]⟩
  · rw [same₃, same₂, same₁]
    rfl
  · rw [same₃, same₂, same₁]
    rfl

/-- From every idle state the client can run one more command to its end, whatever the
command and the status of its completion. -/
theorem next_command {n : Nat} (two : 2 ≤ n) (small : n ≤ 4096) {s : AdminSystem Unit}
    (reached : Reachable (machine Unit n) anyEvent s) (idle : s.Idle) (cmd : FreshCmd)
    {status : Nat} (statusBound : status < 2 ^ 15) :
    ∃ s', Reachable (machine Unit n) anyEvent s' ∧ s'.Idle ∧
      s'.sub.enqueued = s.sub.enqueued ++ [cmd.1.withCid 0] ∧
      s'.statuses = s.statuses ++ [status] := by
  obtain ⟨_, _, inv, seq⟩ := sequential_inv two small reached
  obtain ⟨s₁, h, reached₁, mine, unseen, submitted, answers⟩ :=
    answered_command two small reached idle cmd statusBound
  obtain ⟨_, _, _, seq₁⟩ := sequential_inv two small reached₁
  -- the current command is the last one, and every command is answered now
  have answered : s₁.Posted h.serial := by
    have current := seq₁.current h mine
    have all := seq.idle_posted inv idle
    have longer := congrArg List.length submitted
    have posted := congrArg List.length answers
    simp only [statuses, List.length_map, List.length_append, List.length_singleton] at longer posted
    rw [seq₁.posted_iff_lt]
    omega
  obtain ⟨s₂, reached₂, idle₂, same, kept⟩ :=
    finished_command two small reached₁ mine unseen answered
  exact ⟨s₂, reached₂, idle₂, same.trans submitted, kept.trans answers⟩

/-- What the lone client sees, in any state: `h.serial` is the number of earlier commands,
and between commands `enqueued.length` is the number of commands run. -/
structure OneClientSpec (n : Nat) (s : AdminSystem Unit) : Prop where
  earlier : ∀ h, s.sub.held () = some h → h.serial + 1 = s.sub.enqueued.length
  not_yet : ∀ h, s.sub.held () = some h → ¬ s.Posted h.serial → adminCqPoll s.sub.aqp h.cid = none
  found : ∀ h, s.sub.held () = some h → s.Posted h.serial →
    adminCqPoll s.sub.aqp h.cid = some (h.serial % n)
  settled : s.Idle → Settled n s.sub.enqueued.length s.sub.aqp
  accepts : s.Idle → ∀ cmd, (adminEnqueueCommand s.sub.aqp cmd).1 =
    some (s.sub.enqueued.length % n)

/-- One client over any admin queue size: its polls, the rings after every command, and that
it gets through any commands, whatever the statuses that answer them. -/
theorem one_client_commands (n : Nat) (two : 2 ≤ n) (small : n ≤ 4096) :
    (∀ s, Reachable (machine Unit n) anyEvent s → OneClientSpec n s) ∧
      ∀ commands : List (FreshCmd × Nat), (∀ c ∈ commands, c.2 < 2 ^ 15) →
        ∃ s, Reachable (machine Unit n) anyEvent s ∧ s.Idle ∧
          s.sub.enqueued = commands.map (fun c => c.1.1.withCid 0) ∧
          s.statuses = commands.map Prod.snd := by
  have positive : 0 < n := by omega
  constructor
  · intro s reached
    obtain ⟨low, retired, inv, seq⟩ := sequential_inv two small reached
    constructor
    · exact seq.current
    · intro h mine unanswered
      have unseen : s.seen () = none := by
        by_contra some_seen
        obtain ⟨v, seen⟩ := Option.ne_none_iff_exists'.mp some_seen
        have posted := inv.clients.seenPosted () v seen
        rw [← inv.clients.seenHeld () h v mine seen] at posted
        exact unanswered posted
      by_contra hit
      obtain ⟨l, hit⟩ := Option.ne_none_iff_exists'.mp hit
      obtain ⟨_, _, entry⟩ := inv.hit_answers positive mine unseen hit
      exact unanswered ⟨_, List.mem_of_getElem? entry⟩
    · intro h mine posted
      exact seq.poll_found positive inv mine posted
    · exact seq.settled inv
    · intro idle cmd
      obtain ⟨room, found⟩ := seq.accepts two inv idle
      have slot := Nat.mod_lt s.sub.enqueued.length positive
      rcases adminEnqueueCommand_cases s.sub.aqp cmd with ⟨_, full | empty⟩ | ⟨cid, _, next, done⟩
      · rw [room] at full
        cases full
      · rw [found] at empty
        cases empty
      · rw [done, inv.ring.tail]
        simp only [Option.some.injEq]
        exact Nat.mod_eq_of_lt (by omega)
  · intro commands
    induction commands using List.reverseRecOn with
    | nil =>
        intro _
        exact ⟨start (adminInitRings n (fun _ => Cpl.zero) fun _ => clearCmd),
          .start (machine_init n _), ⟨rfl, rfl⟩, rfl, rfl⟩
    | append_singleton earlier last ih =>
        intro bounds
        obtain ⟨s, reached, idle, submitted, answers⟩ := ih fun c member =>
          bounds c (List.mem_append_left _ member)
        obtain ⟨s', reached', idle', longer, answered⟩ := next_command two small reached idle last.1
          (bounds last (List.mem_append_right _ List.mem_cons_self))
        refine ⟨s', reached', idle', ?_, ?_⟩
        · rw [longer, submitted, List.map_append, List.map_singleton]
        · rw [answered, answers, List.map_append, List.map_singleton]

theorem one_client_commands_two_slots :
    (∀ s, Reachable (machine Unit 2) anyEvent s → OneClientSpec 2 s) ∧
      ∃ s, Reachable (machine Unit 2) anyEvent s ∧ s.Idle ∧ s.sub.enqueued.length = 3 ∧
        s.statuses = [0, 0x101, 0] := by
  obtain ⟨spec, runs⟩ := one_client_commands 2 (by norm_num) (by norm_num)
  obtain ⟨s, reached, idle, submitted, answers⟩ :=
    runs [(devSelfTestCmd, 0), (devSelfTestCmd, 0x101), (devSelfTestCmd, 0)] (by decide)
  exact ⟨spec, s, reached, idle, by rw [submitted]; rfl, answers⟩

end AdminSystem

end BafsNvme
