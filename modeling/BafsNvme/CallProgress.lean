import BafsNvme.AdminDrain
import BafsNvme.RingedAgreement

/-! No create or delete call gets stuck on the real rings: from wherever the calls in progress
stand, with any of their commands on the way, all of them can return. -/

namespace BafsNvme

open Machine

namespace QpCall

def remaining : Option QpCall → Nat
  | none => 0
  | some (create _ _ point) => 6 - point.rank
  | some (delete _ _ point) => 7 - point.rank

theorem remaining_pos (c : QpCall) : 0 < remaining (some c) := by
  rcases c with ⟨i, newQp, point⟩ | ⟨i, delQp, point⟩ <;> cases point <;>
    simp [remaining, CreatePoint.rank, DeletePoint.rank]

theorem remaining_resume (c : QpCall) : remaining (some c.resume) ≤ remaining (some c) := by
  rcases c with ⟨i, newQp, point⟩ | ⟨i, delQp, point⟩ <;> cases point <;>
    simp [resume, remaining, CreatePoint.rank, DeletePoint.rank]

theorem after_lt {a : QpAction} {c : QpCall} (io : IoState) (before : a.before = some c) :
    remaining (a.after io) < remaining (some c) := by
  cases a with
  | reserve | enter => cases before
  | test i delQp =>
      cases before
      simp only [QpAction.after]
      split <;> simp [remaining, DeletePoint.rank]
  | _ =>
      cases before
      simp [QpAction.after, remaining, CreatePoint.rank, DeletePoint.rank]

theorem resume_lt {c : QpCall} {io : IoState} {cmd : FreshCmd} (packed : c.packs io = some cmd) :
    remaining (some c.resume) < remaining (some c) := by
  obtain ⟨a, _, before, _, after, _⟩ := packs_action 0 packed
  rw [← after]
  exact after_lt io before

theorem works {c : QpCall} {io : IoState} (plain : (c.packs io).isSome = false)
    (found : ∀ i delQp point, c = .delete i delQp point → point ≠ .entered →
      ∃ qp, delQp = some qp) :
    ∃ a : QpAction, a.before = some c ∧ a.command io = none ∧ a.validIndex io = true := by
  rcases c with ⟨i, newQp, point⟩ | ⟨i, delQp, point⟩
  · cases point with
    | reserved => exact ⟨.allocPair i newQp, rfl, rfl, rfl⟩
    | listed => exact ⟨.allocCq i newQp 0, rfl, rfl, rfl⟩
    | cqCreated => exact ⟨.allocSq i newQp 0, rfl, rfl, rfl⟩
    | sqCreated => exact ⟨.finishPair i newQp, rfl, rfl, rfl⟩
    | cqReady | sqReady => cases plain
  · have pair := found i delQp point rfl
    cases point with
    | entered => exact ⟨.test i delQp, rfl, rfl, rfl⟩
    | tested | sqDeleted => cases plain
    | cqDeleted =>
        obtain ⟨qp, rfl⟩ := pair (by decide)
        exact ⟨.freeCq i qp, rfl, rfl, rfl⟩
    | cqFreed =>
        obtain ⟨qp, rfl⟩ := pair (by decide)
        exact ⟨.freeSq i qp, rfl, rfl, rfl⟩
    | sqFreed =>
        obtain ⟨qp, rfl⟩ := pair (by decide)
        exact ⟨.freePair i qp, rfl, rfl, rfl⟩
    | pairFreed =>
        obtain ⟨qp, rfl⟩ := pair (by decide)
        exact ⟨.clearMark i qp, rfl, rfl, rfl⟩

end QpCall

namespace RingedSystem

variable {ι : Type} [DecidableEq ι]

/-- Orderly events, the fresh CID of each submission included, with a device that posts only into
a ring that is not full. -/
structure PacedRings (limits : IoLimits) (s : RingedSystem ι) (e : RingedEvent ι) : Prop
    extends OrderlyRings limits s e where
  room : ∀ t k cpl, e = .post t k cpl → s.admin.CqRoom

def finishing (s : RingedSystem ι) : RingedEvent ι → Prop
  | .work e => e.action.before ≠ none
  | .enqueue _ => s.admin.FreshCid
  | .post _ _ cpl => s.admin.CqRoom ∧ cpl.status = 0
  | _ => True

instance (s : RingedSystem ι) (e : RingedEvent ι) : Decidable (s.finishing e) :=
  match e with
  | .work _ => inferInstanceAs (Decidable (_ ≠ _))
  | .enqueue _ => inferInstanceAs (Decidable s.admin.FreshCid)
  | .post _ _ _ => inferInstanceAs (Decidable (_ ∧ _))
  | .pack _ | .poll _ | .sqCleanup _ | .cqCleanup _ | .fetch => .isTrue trivial

/-- The calls on rings whose device has had room for all it has posted. -/
def pacedMachine (ι : Type) [DecidableEq ι] (cap0 : Dword) (cpl : Cpl) :
    Machine (RingedSystem ι) (RingedEvent ι) where
  init s := (machine ι cap0 cpl).init s ∧
    Reachable (AdminSystem.machine ι (initQueueSize cap0)) AdminSystem.paced s.admin
  step := step

def busy (s : RingedSystem ι) (t : ι) : Bool :=
  (s.admin.sub.held t).isSome || (s.admin.seen t).isSome

/-- From `s` to `s'` some of the commands on the rings have been finished, and nothing else has
happened to the calls. -/
def Advances (s s' : RingedSystem ι) : Prop := ∀ t,
  (s'.busy t = s.busy t ∧ s'.qp.call t = s.qp.call t) ∨
    (s.busy t = true ∧ s'.busy t = false ∧ s'.qp.call t = (s.qp.call t).map QpCall.resume)

def Closer (t : ι) (s s' : RingedSystem ι) : Prop :=
  (∀ t', QpCall.remaining (s'.qp.call t') ≤ QpCall.remaining (s.qp.call t')) ∧
    QpCall.remaining (s'.qp.call t) < QpCall.remaining (s.qp.call t)

structure Returned (s : RingedSystem ι) : Prop where
  quiet : s.qp.Quiet
  clear : ∀ t, s.cmd_ t = none
  drained : s.admin.Drained
  agree : QpSystem.TablesAgree s.qp.io.aqp.numIoQueuePairsSupported s.qp.io

structure ProgressInv (limits : IoLimits) (n m : Nat) (s : RingedSystem ι) : Prop
    extends RingedAgreeInv limits n m s where
  live : ∃ low retired, AdminSystem.LiveInv n low retired s.admin
  active : {t | s.qp.call t ≠ none}.Finite

variable {limits : IoLimits} {cap0 : Dword} {cpl : Cpl} {n m : Nat} {s s' s'' : RingedSystem ι}
  {t : ι}

omit [DecidableEq ι] in
theorem Advances.refl (s : RingedSystem ι) : Advances s s := fun _ => .inl ⟨rfl, rfl⟩

omit [DecidableEq ι] in
theorem Advances.trans (first : Advances s s') (second : Advances s' s'') : Advances s s'' := by
  intro t
  rcases first t with ⟨before, call⟩ | ⟨before, after, call⟩
  · rcases second t with ⟨now, last⟩ | ⟨now, ended, last⟩
    · exact .inl ⟨now.trans before, last.trans call⟩
    · exact .inr ⟨before.symm.trans now, ended, last.trans (by rw [call])⟩
  · rcases second t with ⟨now, last⟩ | ⟨now, _⟩
    · exact .inr ⟨before, now.trans after, last.trans call⟩
    · rw [after] at now
      cases now

omit [DecidableEq ι] in
theorem Advances.of_busy (calls : s'.qp.call = s.qp.call) (same : ∀ t, s'.busy t = s.busy t) :
    Advances s s' := fun t => .inl ⟨same t, congrFun calls t⟩

omit [DecidableEq ι] in
theorem Advances.remaining_le (advances : Advances s s') (t : ι) :
    QpCall.remaining (s'.qp.call t) ≤ QpCall.remaining (s.qp.call t) := by
  rcases advances t with ⟨_, call⟩ | ⟨_, _, call⟩
  · rw [call]
  · rw [call]
    cases s.qp.call t with
    | none => exact le_rfl
    | some c => exact c.remaining_resume

omit [DecidableEq ι] in
theorem finished_calls {t : ι} (finite : {t | s.qp.call t ≠ none}.Finite)
    (others : ∀ t', t' ≠ t → s.qp.call t' = none → s'.qp.call t' = none) :
    {t | s'.qp.call t ≠ none}.Finite := by
  refine (finite.insert t).subset fun t' there => ?_
  by_cases own : t' = t
  · exact .inl own
  · exact .inr fun idle => there (others t' own idle)

theorem admin_takes {e : RingedEvent ι} (fresh : ∀ t, e = .enqueue t → s.admin.FreshCid)
    (room : ∀ t k cpl, e = .post t k cpl → s.admin.CqRoom) (taken : s.step e = some s') :
    s'.admin = s.admin ∨ ∃ a, s.admin.paced a ∧ s.admin.step a = some s'.admin := by
  have taken := step_takes taken
  cases e with
  | work e =>
      obtain ⟨_, _, _, rfl⟩ := taken
      exact .inl rfl
  | pack t =>
      obtain ⟨_, _, _, _, _, rfl⟩ := taken
      exact .inl rfl
  | enqueue t =>
      obtain ⟨cmd, admin, _, moved, rfl⟩ := taken
      exact .inr ⟨.enqueue t cmd, fresh t rfl, moved⟩
  | poll t =>
      obtain ⟨admin, moved, rfl⟩ := taken
      exact .inr ⟨.poll t, trivial, moved⟩
  | sqCleanup t =>
      obtain ⟨admin, moved, rfl⟩ := taken
      exact .inr ⟨.sqCleanup t, trivial, moved⟩
  | cqCleanup t =>
      obtain ⟨admin, moved, rfl⟩ := taken
      exact .inr ⟨.cqCleanup t, trivial, moved⟩
  | fetch =>
      obtain ⟨admin, moved, rfl⟩ := taken
      exact .inr ⟨.fetch, trivial, moved⟩
  | post t k cpl =>
      obtain ⟨_, _, admin, _, _, moved, rfl⟩ := taken
      exact .inr ⟨.post k cpl, room t k cpl rfl, moved⟩

theorem live_step (positive : 0 < n) (small : n ≤ 4096)
    (live : ∃ low retired, AdminSystem.LiveInv n low retired s.admin) {e : RingedEvent ι}
    (fresh : ∀ t, e = .enqueue t → s.admin.FreshCid)
    (room : ∀ t k cpl, e = .post t k cpl → s.admin.CqRoom) (taken : s.step e = some s') :
    ∃ low retired, AdminSystem.LiveInv n low retired s'.admin := by
  obtain ⟨low, retired, live⟩ := live
  rcases admin_takes fresh room taken with same | ⟨a, paced, moved⟩
  · rw [same]
    exact ⟨low, retired, live⟩
  · exact live.step positive small paced moved

theorem active_step {e : RingedEvent ι} (finite : {t | s.qp.call t ≠ none}.Finite)
    (taken : s.step e = some s') : {t | s'.qp.call t ≠ none}.Finite := by
  have taken := step_takes taken
  cases e with
  | work e =>
      obtain ⟨_, qp, moved, rfl⟩ := taken
      obtain ⟨_, _, rfl⟩ := QpSystem.step_cases moved
      exact finished_calls (t := e.thread) finite fun t' other idle =>
        (QpSystem.next_other other).trans idle
  | pack t =>
      obtain ⟨_, _, _, _, _, rfl⟩ := taken
      exact finite
  | enqueue t =>
      obtain ⟨_, _, _, _, rfl⟩ := taken
      exact finite
  | poll t | sqCleanup t | fetch =>
      obtain ⟨_, _, rfl⟩ := taken
      exact finite
  | cqCleanup t =>
      obtain ⟨_, _, rfl⟩ := taken
      exact finished_calls (t := t) finite fun t' other idle =>
        (Function.update_of_ne other ..).trans idle
  | post t k cpl =>
      obtain ⟨_, _, _, _, _, _, rfl⟩ := taken
      exact finite

namespace ProgressInv

omit [DecidableEq ι] in
theorem clients (inv : ProgressInv limits n m s) :
    ∃ clients : Finset ι, ∀ t, t ∉ clients → s.qp.call t = none := by
  refine ⟨inv.active.toFinset, fun t apart => ?_⟩
  by_contra there
  exact apart (inv.active.mem_toFinset.mpr there)

theorem step (positive : 0 < n) (small : n ≤ 4096) (inv : ProgressInv limits n m s)
    {e : RingedEvent ι} (permitted : PacedRings limits s e) (taken : s.step e = some s') :
    ProgressInv limits n m s' := by
  exact ⟨inv.toRingedAgreeInv.step positive small permitted.toOrderlyRings taken,
    live_step positive small inv.live permitted.fresh permitted.room taken,
    active_step inv.active taken⟩

omit [DecidableEq ι] in
/-- The controller would accept each command, so that a success is its answer. -/
theorem paced (inv : ProgressInv limits n m s) {e : RingedEvent ι} (permitted : s.finishing e) :
    PacedRings limits s e := by
  refine ⟨⟨?_, ?_, ?_⟩, ?_⟩
  · rintro t rfl
    exact permitted
  · rintro t k cpl cmd serial rfl flying
    exact iff_of_true permitted.2 (inv.flying_accepted (List.mem_of_getElem? flying))
  · rintro t i rfl
    exact absurd rfl permitted
  · rintro t k cpl rfl
    exact permitted.1

theorem serve (inv : ProgressInv limits n m s) {a : AdminEvent ι} {admin : AdminSystem ι}
    (serves : s.admin.serving a) (taken : s.admin.step a = some admin) :
    ∃ e s', s.finishing e ∧ s.step e = some s' ∧ s'.admin = admin ∧ Advances s s' := by
  cases a with
  | enqueue t cmd => exact serves.elim
  | poll t =>
      refine ⟨.poll t, { s with admin := admin }, trivial, ?_, rfl, Advances.of_busy rfl ?_⟩
      · simp only [RingedSystem.step, taken, Option.map_some]
      · intro t'
        obtain ⟨h, mine, _, rfl | ⟨l, _, rfl⟩⟩ := AdminSystem.poll_cases taken
        · rfl
        · by_cases own : t' = t
          · subst own
            simp [busy, mine]
          · simp [busy, Function.update_of_ne own]
  | sqCleanup t =>
      refine ⟨.sqCleanup t, { s with admin := admin }, trivial, ?_, rfl, Advances.of_busy rfl ?_⟩
      · simp only [RingedSystem.step, taken, Option.map_some]
      · intro t'
        obtain ⟨h, v, aqp, _, seen, _, rfl⟩ := AdminSystem.sqCleanup_cases taken
        by_cases own : t' = t
        · subst own
          simp [busy, seen]
        · simp [busy, SqSystem.release, Function.update_of_ne own]
  | cqCleanup t =>
      refine ⟨.cqCleanup t, s.finish t admin, trivial, ?_, rfl, ?_⟩
      · simp only [RingedSystem.step, taken, Option.map_some]
      · intro t'
        obtain ⟨v, aqp, gone, seen, _, rfl⟩ := AdminSystem.cqCleanup_cases taken
        by_cases own : t' = t
        · subst own
          right
          refine ⟨by simp [busy, seen], ?_, Function.update_self ..⟩
          simp [busy, finish, AdminSystem.retire, AdminSystem.withRings, gone]
        · left
          refine ⟨?_, Function.update_of_ne own ..⟩
          simp [busy, finish, AdminSystem.retire, AdminSystem.withRings, Function.update_of_ne own]
  | fetch =>
      refine ⟨.fetch, { s with admin := admin }, trivial, ?_, rfl, Advances.of_busy rfl ?_⟩
      · simp only [RingedSystem.step, taken, Option.map_some]
      · obtain ⟨_, rfl⟩ := AdminSystem.fetch_cases taken
        exact fun _ => rfl
  | post k cpl =>
      obtain ⟨cmd, serial, flying, _, _, rfl⟩ := AdminSystem.post_cases taken
      obtain ⟨t, h, c, mine, rfl, _⟩ := inv.flying_packs (List.mem_of_getElem? flying)
      refine ⟨.post t k cpl, s.execute t cmd cpl.status (s.admin.postOne k h.serial cpl), serves,
        ?_, rfl, Advances.of_busy rfl fun _ => rfl⟩
      simp only [RingedSystem.step, mine, flying, if_true, taken, Option.map_some]

omit [DecidableEq ι] in
theorem returned (two : 2 ≤ n) (small : n ≤ 4096) (inv : ProgressInv limits n m s)
    (quiet : s.qp.Quiet) : s.Returned := by
  have clear : ∀ t, s.cmd_ t = none := by
    intro t
    refine (inv.rings.idle fun c there => ?_).1
    rw [quiet t] at there
    cases there
  obtain ⟨low, retired, live⟩ := inv.live
  have drained := live.drained two small fun t => inv.rings.rests (clear t)
  exact ⟨quiet, clear, drained, inv.tables_agree quiet⟩

variable (cap0 cpl)

theorem serves_path (positive : 0 < n) (small : n ≤ 4096) (inv : ProgressInv limits n m s)
    {last : AdminSystem ι}
    (path : (AdminSystem.machine ι n).Leads AdminSystem.serving s.admin last) :
    ∃ s', (pacedMachine ι cap0 cpl).Leads finishing s s' ∧ ProgressInv limits n m s' ∧
      s'.admin = last ∧ Advances s s' := by
  induction path with
  | refl => exact ⟨s, .refl, inv, rfl, .refl s⟩
  | tail _ step ih =>
      obtain ⟨s₁, first, inv₁, rfl, advances⟩ := ih
      obtain ⟨a, serves, taken⟩ := step
      obtain ⟨e, s', permitted, performed, same, further⟩ := inv₁.serve serves taken
      exact ⟨s', first.trans (Leads.one permitted performed),
        inv₁.step positive small (inv₁.paced permitted) performed, same, advances.trans further⟩

theorem drains (two : 2 ≤ n) (small : n ≤ 4096) (inv : ProgressInv limits n m s) :
    ∃ s', (pacedMachine ι cap0 cpl).Leads finishing s s' ∧ ProgressInv limits n m s' ∧
      s'.admin.Drained ∧ Advances s s' := by
  obtain ⟨low, retired, live⟩ := inv.live
  obtain ⟨last, ⟨path, _⟩, drained⟩ := live.drains two small
  obtain ⟨s', leads, inv', rfl, advances⟩ := inv.serves_path cap0 cpl (by omega) small path
  exact ⟨s', leads, inv', drained, advances⟩

theorem submits (positive : 0 < n) (small : n ≤ 4096) (inv : ProgressInv limits n m s)
    (drained : s.admin.Drained) {c : QpCall} (there : s.qp.call t = some c)
    (packs : (c.packs s.qp.io).isSome = true) :
    ∃ s', (pacedMachine ι cap0 cpl).Leads finishing s s' ∧ ProgressInv limits n m s' ∧
      s'.qp = s.qp ∧ s'.busy t = true := by
  obtain ⟨s₁, cmd, first, inv₁, packed, calls, rings⟩ : ∃ s₁ cmd,
      (pacedMachine ι cap0 cpl).Leads finishing s s₁ ∧ ProgressInv limits n m s₁ ∧
        s₁.cmd_ t = some cmd ∧ s₁.qp = s.qp ∧ s₁.admin = s.admin := by
    cases clear : s.cmd_ t with
    | some cmd => exact ⟨s, cmd, .refl, inv, clear, rfl, rfl⟩
    | none =>
        obtain ⟨cmd, filled⟩ := Option.isSome_iff_exists.mp packs
        have taken : s.step (.pack t) =
            some { s with cmd_ := Function.update s.cmd_ t (some cmd) } := by
          simp only [RingedSystem.step, clear, there, Option.bind_some, filled]
        exact ⟨_, cmd, Leads.one (e := .pack t) trivial taken,
          inv.step positive small (inv.paced (e := .pack t) trivial) taken, Function.update_self ..,
          rfl, rfl⟩
  obtain ⟨admin, enqueued, mine⟩ := drained.enqueues t cmd
  have taken : s₁.step (.enqueue t) = some { s₁ with admin := admin } := by
    simp only [RingedSystem.step, packed, Option.bind_some, rings, enqueued, Option.map_some]
  have fresh : s₁.finishing (.enqueue t) := by
    rw [finishing, rings]
    exact drained.fresh
  refine ⟨_, first.trans (Leads.one fresh taken),
    inv₁.step positive small (inv₁.paced fresh) taken, calls, ?_⟩
  rw [busy, mine, Bool.true_or]

theorem completes (two : 2 ≤ n) (small : n ≤ 4096) (inv : ProgressInv limits n m s) {c : QpCall}
    (there : s.qp.call t = some c) (packs : (c.packs s.qp.io).isSome = true) :
    ∃ s', (pacedMachine ι cap0 cpl).Leads finishing s s' ∧ ProgressInv limits n m s' ∧
      Closer t s s' := by
  have positive : 0 < n := by omega
  have finished {s : RingedSystem ι} (inv : ProgressInv limits n m s)
      (there : s.qp.call t = some c) (packs : (c.packs s.qp.io).isSome = true)
      (at_work : s.busy t = true) :
      ∃ s', (pacedMachine ι cap0 cpl).Leads finishing s s' ∧ ProgressInv limits n m s' ∧
        Closer t s s' := by
    obtain ⟨s', path, inv', drained, advances⟩ := inv.drains cap0 cpl two small
    refine ⟨s', path, inv', advances.remaining_le, ?_⟩
    rcases advances t with ⟨still, _⟩ | ⟨_, _, resumed⟩
    · rw [at_work, busy, (drained.resting t).1, (drained.resting t).2] at still
      cases still
    · obtain ⟨cmd, packed⟩ := Option.isSome_iff_exists.mp packs
      rw [resumed, there]
      exact QpCall.resume_lt packed
  cases at_work : s.busy t with
  | true => exact finished inv there packs at_work
  | false =>
      obtain ⟨s₁, first, inv₁, drained, advances⟩ := inv.drains cap0 cpl two small
      have there₁ : s₁.qp.call t = some c := by
        rcases advances t with ⟨_, same⟩ | ⟨before, _⟩
        · exact same.trans there
        · rw [at_work] at before
          cases before
      have packs₁ := (c.packs_isSome s₁.qp.io s.qp.io).trans packs
      obtain ⟨s₂, second, inv₂, calls, busy₂⟩ :=
        inv₁.submits cap0 cpl positive small drained there₁ packs₁
      obtain ⟨s', third, inv', others, closer⟩ :=
        finished inv₂ (by rw [calls, there₁]) (by rw [calls]; exact packs₁) busy₂
      refine ⟨s', (first.trans second).trans third, inv', fun t' => ?_, ?_⟩
      · have onward := others t'
        rw [calls] at onward
        exact onward.trans (advances.remaining_le t')
      · rw [calls, there₁] at closer
        rw [there]
        exact closer

theorem works (positive : 0 < n) (small : n ≤ 4096) (inv : ProgressInv limits n m s) {c : QpCall}
    (there : s.qp.call t = some c) (plain : (c.packs s.qp.io).isSome = false) :
    ∃ s', (pacedMachine ι cap0 cpl).Leads finishing s s' ∧ ProgressInv limits n m s' ∧
      Closer t s s' := by
  have only (c' : QpCall) (same : s.qp.call t = some c') : (c'.packs s.qp.io).isSome = false := by
    rw [there, Option.some.injEq] at same
    exact same ▸ plain
  have standing : s.toCalls.call t = some c :=
    (toCalls_waiting (inv.rings.idle only).2).trans there
  obtain ⟨a, before, no_command, valid⟩ := QpCall.works plain fun i delQp point same past =>
    ⟨_, (inv.agree.pairs.deletes t i delQp point (standing.trans (congrArg some same)) past).2.1⟩
  have moved : s.qp.step ⟨t, a⟩ = some (s.qp.next ⟨t, a⟩) :=
    QpSystem.step_taken (there.trans before.symm) valid
  have taken : s.step (.work ⟨t, a⟩) = some { s with qp := s.qp.next ⟨t, a⟩ } := by
    simp only [RingedSystem.step, no_command, Option.isSome_none, Bool.false_eq_true, if_false,
      moved, Option.map_some]
  have inside : s.finishing (.work ⟨t, a⟩) := by
    rw [finishing, before]
    exact Option.some_ne_none c
  have lower : QpCall.remaining ((s.qp.next ⟨t, a⟩).call t) < QpCall.remaining (s.qp.call t) := by
    rw [QpSystem.next_same s.qp ⟨t, a⟩, there]
    exact QpCall.after_lt s.qp.io before
  refine ⟨_, Leads.one inside taken, inv.step positive small (inv.paced inside) taken, ?_, lower⟩
  intro t'
  by_cases own : t' = t
  · subst own
    exact lower.le
  · exact le_of_eq (congrArg QpCall.remaining (QpSystem.next_other (e := ⟨t, a⟩) own))

end ProgressInv

def CallsLeft (limits : IoLimits) (n m : Nat) (calls : Finset ι) (work : Nat)
    (s : RingedSystem ι) : Prop :=
  ProgressInv limits n m s ∧ (∀ t, t ∉ calls → s.qp.call t = none) ∧
    work = ∑ t ∈ calls, QpCall.remaining (s.qp.call t)

namespace CallsLeft

variable {calls : Finset ι} {work : Nat}

omit [DecidableEq ι] in
theorem of_active (inv : ProgressInv limits n m s) :
    ∃ calls work, CallsLeft limits n m calls work s := by
  obtain ⟨calls, outside⟩ := inv.clients
  exact ⟨calls, _, inv, outside, rfl⟩

theorem progress (two : 2 ≤ n) (small : n ≤ 4096) (left : CallsLeft limits n m calls work s) :
    s.qp.Quiet ∨ ∃ less s', less < work ∧ CallsLeft limits n m calls less s' ∧
      (pacedMachine ι cap0 cpl).Leads finishing s s' := by
  obtain ⟨inv, apart, rfl⟩ := left
  by_cases quiet : s.qp.Quiet
  · exact .inl quiet
  · right
    obtain ⟨t, unreturned⟩ := not_forall.mp quiet
    obtain ⟨c, there⟩ := Option.ne_none_iff_exists'.mp unreturned
    obtain ⟨last, path, now, others, closer⟩ : ∃ last,
        (pacedMachine ι cap0 cpl).Leads finishing s last ∧ ProgressInv limits n m last ∧
          Closer t s last := by
      cases packs : (c.packs s.qp.io).isSome with
      | true => exact inv.completes cap0 cpl two small there packs
      | false => exact inv.works cap0 cpl (by omega) small there packs
    refine ⟨_, last, ?_, ⟨now, fun t' out => ?_, rfl⟩, path⟩
    · refine Finset.sum_lt_sum (fun t' _ => others t') ⟨t, ?_, closer⟩
      by_contra out
      exact unreturned (apart t out)
    · -- a call that has returned has nothing left
      have nothing := others t'
      rw [apart t' out, QpCall.remaining, Nat.le_zero] at nothing
      cases final : last.qp.call t' with
      | none => rfl
      | some c' =>
          rw [final] at nothing
          exact absurd nothing c'.remaining_pos.ne'

end CallsLeft

theorem ProgressInv.finishes (cap0 : Dword) (cpl : Cpl) (two : 2 ≤ n) (small : n ≤ 4096)
    (inv : ProgressInv limits n m s) : ∃ s', (pacedMachine ι cap0 cpl).Leads finishing s s' ∧
      ProgressInv limits n m s' ∧ s'.qp.Quiet := by
  obtain ⟨calls, work, left⟩ := CallsLeft.of_active inv
  obtain ⟨last, _, quiet, ⟨inv', _⟩, path⟩ := leads_done (CallsLeft limits n m calls)
    (fun s => s.qp.Quiet) (fun _ _ left => left.progress two small) left
  exact ⟨last, path, inv', quiet⟩

theorem progress_inv (cqs : (cpl.dword 0 >>> 16).toNat ≤ 65534)
    (sqs : (cpl.dword 0 >>> 16).toNat ≤ (cpl.dword 0 &&& 0x0000ffff#32).toNat)
    (reached : Reachable (pacedMachine ι cap0 cpl) (PacedRings (grantedLimits cap0 cpl)) s) :
    ProgressInv (grantedLimits cap0 cpl) (initQueueSize cap0) (numQueuesSupported cpl) s := by
  obtain ⟨positive, small⟩ := initQueueSize_bounds cap0
  refine reached.invariant ?_ fun _ _ _ inv => inv.step positive small
  rintro s ⟨initial, rings⟩
  refine ⟨ringed_agree_inv cqs sqs (.start initial), AdminSystem.live_inv positive small rings, ?_⟩
  obtain ⟨dstrd, cqDb, sqDb, sqDmaAddrs, cqDmaAddrs, heap, dma, start⟩ := initial.1
  simp [start, QpSystem.start]

/-- From every state of an orderly run with a paced device all calls in progress can return, with
no further call. The rings are then empty, and both sides hold the same pairs. -/
theorem calls_finish (cap0 : Dword) (cpl : Cpl) (cqs : (cpl.dword 0 >>> 16).toNat ≤ 65534)
    (sqs : (cpl.dword 0 >>> 16).toNat ≤ (cpl.dword 0 &&& 0x0000ffff#32).toNat)
    (two : 2 ≤ initQueueSize cap0) (s : RingedSystem ι)
    (reached : Reachable (pacedMachine ι cap0 cpl) (PacedRings (grantedLimits cap0 cpl)) s) :
    ∃ s', (pacedMachine ι cap0 cpl).Leads finishing s s' ∧ s'.Returned := by
  obtain ⟨positive, small⟩ := initQueueSize_bounds cap0
  obtain ⟨s', path, inv, quiet⟩ := (progress_inv cqs sqs reached).finishes cap0 cpl two small
  exact ⟨s', path, inv.returned two small quiet⟩

theorem answered_reached : ∃ s : RingedSystem Unit, s.answered () = true ∧
    Reachable (pacedMachine Unit 1#32 Cpl.zero) (PacedRings (grantedLimits 1#32 Cpl.zero)) s := by
  have begins : Reachable (pacedMachine Unit 1#32 Cpl.zero)
      (PacedRings (grantedLimits 1#32 Cpl.zero)) twoSlots :=
    .start ⟨twoSlots_init, .start (AdminSystem.machine_init _ _)⟩
  have enters : PacedRings (grantedLimits 1#32 Cpl.zero) (twoSlots : RingedSystem Unit)
      (.work ⟨(), .reserve⟩) := by
    constructor
    · constructor
      · intro t other
        cases other
      · intro t k cpl cmd serial other
        cases other
      · intro t i other
        cases other
    · intro t k cpl other
      cases other
  have ended : (((pacedMachine Unit 1#32 Cpl.zero).step twoSlots (.work ⟨(), .reserve⟩)).bind
      fun s => (pacedMachine Unit 1#32 Cpl.zero).runAllowed finishing s
        (((createEvents ()).take 7).drop 1)).map (fun s => s.answered ()) = some true := by
    decide +kernel
  obtain ⟨s, ran, answered⟩ := Option.map_eq_some_iff.mp ended
  obtain ⟨s₁, reserved, finished⟩ := Option.bind_eq_some_iff.mp ran
  exact ⟨s, answered, (begins.next enters reserved).leads
    (fun s e _ reached permitted _ =>
      (progress_inv (by decide) (by decide) reached).paced permitted)
    (Leads.computed _ finished)⟩

theorem calls_finish_answered :
    ∃ s s' : RingedSystem Unit, s.answered () = true ∧
      (pacedMachine Unit 1#32 Cpl.zero).Leads finishing s s' ∧ s'.Returned := by
  obtain ⟨s, answered, reached⟩ := answered_reached
  obtain ⟨s', path, returned⟩ :=
    calls_finish 1#32 Cpl.zero (by decide) (by decide) (by decide +kernel) s reached
  exact ⟨s, s', answered, path, returned⟩

end RingedSystem

end BafsNvme
