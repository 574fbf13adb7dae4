import BafsNvme.CallProgress

/-! However the calls, their retry loops and the device are scheduled, the calls in progress
return: what is left for them to do becomes less with every event that changes anything. -/

namespace BafsNvme

open Machine

namespace RingedSystem

variable {ι : Type}

/-- How far a call is with the command it submits: packed, enqueued, found by its poll, and
without its SQ slot. -/
def stage (s : RingedSystem ι) (t : ι) : Nat :=
  match s.cmd_ t, s.admin.sub.held t, s.admin.seen t with
  | none, _, _ => 0
  | some _, none, none => 1
  | some _, some _, none => 4
  | some _, some _, some _ => 5
  | some _, none, some _ => 6

/-- What a call has left to do by itself. Its enqueue pays for the device's two events. -/
def toDo (s : RingedSystem ι) (t : ι) : Nat := 7 * QpCall.remaining (s.qp.call t) - s.stage t

def workLeft (clients : Finset ι) (s : RingedSystem ι) : Nat :=
  ∑ t ∈ clients, s.toDo t + 2 * (s.admin.sub.enqueued.length - s.admin.sub.fetched.length) +
    s.admin.inflight.length

variable {limits : IoLimits} {n m : Nat} {s s' : RingedSystem ι} {t : ι} {clients : Finset ι}

theorem toDo_congr (calls : s'.qp.call t = s.qp.call t) (packed : s'.cmd_ t = s.cmd_ t)
    (held : s'.admin.sub.held t = s.admin.sub.held t) (seen : s'.admin.seen t = s.admin.seen t) :
    s'.toDo t = s.toDo t := by
  simp only [toDo, stage, calls, packed, held, seen]

theorem sum_toDo (member : t ∈ clients) {less : Nat} (mine : s'.toDo t + less ≤ s.toDo t)
    (others : ∀ t', t' ≠ t → s'.toDo t' = s.toDo t') :
    ∑ t ∈ clients, s'.toDo t + less ≤ ∑ t ∈ clients, s.toDo t := by
  classical
  have rest : ∑ t' ∈ clients.erase t, s'.toDo t' = ∑ t' ∈ clients.erase t, s.toDo t' :=
    Finset.sum_congr rfl fun t' apart => others t' (Finset.ne_of_mem_erase apart)
  rw [← Finset.add_sum_erase clients _ member, ← Finset.add_sum_erase clients _ member, rest]
  omega

theorem workLeft_lt (less : Nat) (member : t ∈ clients) (mine : s'.toDo t + less ≤ s.toDo t)
    (others : ∀ t', t' ≠ t → s'.toDo t' = s.toDo t')
    (device : 2 * (s'.admin.sub.enqueued.length - s'.admin.sub.fetched.length) +
        s'.admin.inflight.length <
      2 * (s.admin.sub.enqueued.length - s.admin.sub.fetched.length) +
        s.admin.inflight.length + less) : s'.workLeft clients < s.workLeft clients := by
  have clientsLess := sum_toDo member mine others
  simp only [workLeft]
  omega

theorem workLeft_device (same : ∀ t, s'.toDo t = s.toDo t)
    (device : 2 * (s'.admin.sub.enqueued.length - s'.admin.sub.fetched.length) +
        s'.admin.inflight.length <
      2 * (s.admin.sub.enqueued.length - s.admin.sub.fetched.length) +
        s.admin.inflight.length) : s'.workLeft clients < s.workLeft clients := by
  simp only [workLeft, same]
  omega

namespace ProgressInv

variable [DecidableEq ι]

/-- Every event by which no call begins either changes nothing, as a retry does, or leaves less
to do. -/
theorem lowers (inv : ProgressInv limits n m s)
    (outside : ∀ t, t ∉ clients → s.qp.call t = none) {e : RingedEvent ι}
    (permitted : s.finishing e) (taken : s.step e = some s') :
    s' = s ∨ s'.workLeft clients < s.workLeft clients := by
  obtain ⟨low, retired, adm⟩ := inv.rings.admin
  have notAhead := adm.fetching.notAhead
  have member {t : ι} {c : QpCall} (there : s.qp.call t = some c) : t ∈ clients := by
    by_contra out
    rw [outside t out] at there
    cases there
  have taken := step_takes taken
  cases e with
  | work e =>
      obtain ⟨t, a⟩ := e
      obtain ⟨plain, qp, moved, rfl⟩ := taken
      obtain ⟨here, _, rfl⟩ := QpSystem.step_cases moved
      obtain ⟨c, before⟩ := Option.ne_none_iff_exists'.mp permitted
      have there : s.qp.call t = some c := here.trans before
      obtain ⟨clear, _⟩ := inv.rings.idle (t := t) fun c there =>
        QpAction.before_packs plain (here.symm.trans there)
      have lower : QpCall.remaining ((s.qp.next ⟨t, a⟩).call t) <
          QpCall.remaining (s.qp.call t) := by
        rw [QpSystem.next_same s.qp ⟨t, a⟩, there]
        exact QpCall.after_lt s.qp.io before
      right
      refine workLeft_lt 1 (member there) ?_ ?_ (Nat.lt_succ_self _)
      · simp only [toDo, stage, clear]
        omega
      · exact fun t' other => toDo_congr (QpSystem.next_other (e := ⟨t, a⟩) other) rfl rfl rfl
  | pack t =>
      obtain ⟨clear, c, cmd, there, packs, rfl⟩ := taken
      obtain ⟨gone, unseen⟩ := inv.rings.rests clear
      have some_left := c.remaining_pos
      right
      refine workLeft_lt 1 (member there) ?_ ?_ (Nat.lt_succ_self _)
      · simp only [toDo, stage, clear, gone, unseen, there, Function.update_self]
        omega
      · exact fun t' other => toDo_congr rfl (Function.update_of_ne other ..) rfl rfl
  | enqueue t =>
      obtain ⟨cmd, admin, packed, moved, rfl⟩ := taken
      obtain ⟨c, there, _⟩ := inv.rings.packed t cmd packed
      have some_left := c.remaining_pos
      obtain ⟨gone, unseen, rfl | ⟨cid, _, _, rfl⟩⟩ := AdminSystem.enqueue_cases moved
      · exact .inl rfl
      · right
        refine workLeft_lt 3 (member there) ?_ ?_ ?_
        · simp only [toDo, stage, packed, gone, unseen, there, SqSystem.accept,
            Function.update_self]
          omega
        · exact fun t' other => toDo_congr rfl rfl (Function.update_of_ne other ..) rfl
        · simp only [SqSystem.accept, List.length_append, List.length_singleton]
          omega
  | poll t =>
      obtain ⟨admin, moved, rfl⟩ := taken
      obtain ⟨h, mine, unseen, rfl | ⟨l, _, rfl⟩⟩ := AdminSystem.poll_cases moved
      · exact .inl rfl
      · have packed := inv.rings.held t h mine
        obtain ⟨c, there, _⟩ := inv.rings.packed t _ packed
        have some_left := c.remaining_pos
        right
        refine workLeft_lt 1 (member there) ?_ ?_ (Nat.lt_succ_self _)
        · simp only [toDo, stage, packed, mine, unseen, there, Function.update_self]
          omega
        · exact fun t' other => toDo_congr rfl rfl rfl (Function.update_of_ne other ..)
  | sqCleanup t =>
      obtain ⟨admin, moved, rfl⟩ := taken
      obtain ⟨h, v, aqp, mine, seen, _, rfl⟩ := AdminSystem.sqCleanup_cases moved
      have packed := inv.rings.held t h mine
      obtain ⟨c, there, _⟩ := inv.rings.packed t _ packed
      have some_left := c.remaining_pos
      right
      refine workLeft_lt 1 (member there) ?_ ?_ (Nat.lt_succ_self _)
      · simp only [toDo, stage, packed, mine, seen, there, SqSystem.release, Function.update_self]
        omega
      · exact fun t' other => toDo_congr rfl rfl (Function.update_of_ne other ..) rfl
  | cqCleanup t =>
      obtain ⟨admin, moved, rfl⟩ := taken
      obtain ⟨v, aqp, gone, seen, _, rfl⟩ := AdminSystem.cqCleanup_cases moved
      obtain ⟨cmd, packed⟩ := Option.isSome_iff_exists.mp (inv.rings.seen t v seen)
      obtain ⟨c, there, packs, _⟩ := inv.rings.packed t cmd packed
      obtain ⟨filled, packs⟩ := Option.isSome_iff_exists.mp packs
      have onward := QpCall.resume_lt packs
      right
      refine workLeft_lt 1 (member there) ?_ ?_ (Nat.lt_succ_self _)
      · simp only [toDo, stage, finish, packed, gone, seen, there, Function.update_self,
          Option.map_some]
        omega
      · exact fun t' other => toDo_congr (Function.update_of_ne other ..)
          (Function.update_of_ne other ..) rfl (Function.update_of_ne other ..)
  | fetch =>
      obtain ⟨admin, moved, rfl⟩ := taken
      obtain ⟨more, rfl⟩ := AdminSystem.fetch_cases moved
      obtain ⟨cmd, next, _⟩ := adm.ring.next_entry adm.fetching more
      have behind := (List.getElem?_eq_some_iff.mp next).1
      refine .inr (workLeft_device (fun t => toDo_congr rfl rfl rfl rfl) ?_)
      simp only [SqSystem.fetchOne, List.length_append, List.length_singleton]
      omega
  | post t k cpl =>
      obtain ⟨h, cmd, admin, mine, flying, moved, rfl⟩ := taken
      obtain ⟨_, _, _, _, _, rfl⟩ := AdminSystem.post_cases moved
      have present := (List.getElem?_eq_some_iff.mp flying).1
      refine .inr (workLeft_device (fun t => toDo_congr rfl rfl rfl rfl) ?_)
      simp only [execute, AdminSystem.postOne, AdminSystem.withRings,
        List.length_eraseIdx_of_lt present]
      omega

theorem still (inv : ProgressInv limits n m s) (returned : s.Returned) {e : RingedEvent ι}
    (permitted : s.finishing e) : s.step e = none := by
  rw [Option.eq_none_iff_forall_ne_some]
  intro s' taken
  have taken := step_takes taken
  have resting := returned.drained.resting
  cases e with
  | work e =>
      obtain ⟨_, qp, moved, _⟩ := taken
      have here := (QpSystem.step_cases moved).1
      rw [returned.quiet e.thread] at here
      exact permitted here.symm
  | pack t =>
      obtain ⟨_, c, _, there, _⟩ := taken
      rw [returned.quiet t] at there
      cases there
  | enqueue t =>
      obtain ⟨cmd, _, packed, _⟩ := taken
      rw [returned.clear t] at packed
      cases packed
  | poll t =>
      obtain ⟨admin, moved, _⟩ := taken
      obtain ⟨h, mine, _⟩ := AdminSystem.poll_cases moved
      rw [(resting t).1] at mine
      cases mine
  | sqCleanup t =>
      obtain ⟨admin, moved, _⟩ := taken
      obtain ⟨_, _, _, _, seen, _⟩ := AdminSystem.sqCleanup_cases moved
      rw [(resting t).2] at seen
      cases seen
  | cqCleanup t =>
      obtain ⟨admin, moved, _⟩ := taken
      obtain ⟨_, _, _, seen, _⟩ := AdminSystem.cqCleanup_cases moved
      rw [(resting t).2] at seen
      cases seen
  | fetch =>
      obtain ⟨admin, moved, _⟩ := taken
      obtain ⟨more, _⟩ := AdminSystem.fetch_cases moved
      obtain ⟨low, retired, live⟩ := inv.live
      obtain ⟨cmd, next, _⟩ := live.adm.ring.next_entry live.adm.fetching more
      have behind := (List.getElem?_eq_some_iff.mp next).1
      have served := live.served.length_eq
      have answered := returned.drained.answered.1
      simp only [returned.drained.idle, List.map_nil, List.append_nil, List.length_map,
        List.length_range] at served
      omega
  | post t k cpl =>
      obtain ⟨_, _, _, _, flying, _⟩ := taken
      rw [returned.drained.idle] at flying
      cases flying

theorem goes_on (cap0 : Dword) (cpl : Cpl) (two : 2 ≤ n) (small : n ≤ 4096)
    (inv : ProgressInv limits n m s) (unreturned : ¬ s.Returned) :
    ∃ s', (pacedMachine ι cap0 cpl).Moves finishing s s' := by
  obtain ⟨last, path, _, quiet⟩ := inv.finishes cap0 cpl two small
  apply path.moves
  rintro rfl
  exact unreturned (inv.returned two small quiet)

end ProgressInv

theorem idle_stays [DecidableEq ι] {e : RingedEvent ι} (permitted : s.finishing e)
    (taken : s.step e = some s') (idle : s.qp.call t = none) : s'.qp.call t = none := by
  have taken := step_takes taken
  cases e with
  | work e =>
      obtain ⟨_, qp, moved, rfl⟩ := taken
      obtain ⟨here, _, rfl⟩ := QpSystem.step_cases moved
      have other : t ≠ e.thread := by
        rintro rfl
        exact permitted (here.symm.trans idle)
      exact (QpSystem.next_other other).trans idle
  | cqCleanup t' =>
      obtain ⟨admin, _, rfl⟩ := taken
      by_cases own : t = t'
      · subst own
        simp [finish, idle]
      · exact (Function.update_of_ne own ..).trans idle
  | pack t' =>
      obtain ⟨_, _, _, _, _, rfl⟩ := taken
      exact idle
  | enqueue t' =>
      obtain ⟨_, _, _, _, rfl⟩ := taken
      exact idle
  | poll t' | sqCleanup t' | fetch =>
      obtain ⟨_, _, rfl⟩ := taken
      exact idle
  | post t' k cpl =>
      obtain ⟨_, _, _, _, _, _, rfl⟩ := taken
      exact idle

/-- Without a new call every run ends: only so many events change anything, and it is exactly
where everything has returned that none of them is left. -/
theorem calls_terminate [DecidableEq ι] (cap0 : Dword) (cpl : Cpl)
    (cqs : (cpl.dword 0 >>> 16).toNat ≤ 65534)
    (sqs : (cpl.dword 0 >>> 16).toNat ≤ (cpl.dword 0 &&& 0x0000ffff#32).toNat)
    (two : 2 ≤ initQueueSize cap0) (s : RingedSystem ι)
    (reached : Reachable (pacedMachine ι cap0 cpl) (PacedRings (grantedLimits cap0 cpl)) s) :
    (∃ bound, ∀ k s', (pacedMachine ι cap0 cpl).LeadsIn finishing s k s' → k ≤ bound) ∧
      ∀ s', (pacedMachine ι cap0 cpl).Leads finishing s s' →
        ((∃ s'', (pacedMachine ι cap0 cpl).Moves finishing s' s'') ↔ ¬ s'.Returned) := by
  obtain ⟨positive, small⟩ := initQueueSize_bounds cap0
  have inv := progress_inv cqs sqs reached
  obtain ⟨clients, outside⟩ := inv.clients
  have spent {k : Nat} {s' : RingedSystem ι}
      (path : (pacedMachine ι cap0 cpl).LeadsIn finishing s k s') :=
    path.bounded (fun s => ProgressInv (grantedLimits cap0 cpl) (initQueueSize cap0)
        (numQueuesSupported cpl) s ∧ ∀ t, t ∉ clients → s.qp.call t = none)
      (workLeft clients) (by
        rintro s e s' ⟨inv, outside⟩ permitted taken
        exact ⟨⟨inv.step positive small (inv.paced permitted) taken, fun t apart =>
          idle_stays permitted taken (outside t apart)⟩, inv.lowers outside permitted taken⟩)
      ⟨inv, outside⟩
  constructor
  · exact ⟨s.workLeft clients, fun k s' path => (Nat.le_add_right _ _).trans (spent path).2⟩
  · intro s' path
    obtain ⟨k, counted⟩ := path.counted
    obtain ⟨⟨inv', _⟩, _⟩ := spent counted
    refine ⟨?_, inv'.goes_on cap0 cpl two small⟩
    rintro ⟨s'', _, e, permitted, taken⟩ returned
    have stuck : (pacedMachine ι cap0 cpl).step s' e = none := inv'.still returned permitted
    rw [stuck] at taken
    cases taken

theorem calls_terminate_answered :
    ∃ s : RingedSystem Unit, s.answered () = true ∧
      ∃ bound, ∀ k s', (pacedMachine Unit 1#32 Cpl.zero).LeadsIn finishing s k s' → k ≤ bound := by
  obtain ⟨s, answered, reached⟩ := answered_reached
  exact ⟨s, answered,
    (calls_terminate 1#32 Cpl.zero (by decide) (by decide) (by decide +kernel) s reached).1⟩

end RingedSystem

end BafsNvme
