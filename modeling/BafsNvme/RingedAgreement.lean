import BafsNvme.QueuePairsOnRings

/-! What holds of the create and delete calls over the real rings: the guarantees of the
atomic commands carry over to every interleaving of submissions, polls, cleanups and the
device. -/

namespace BafsNvme

open Machine

namespace RingedSystem

variable {ι : Type} [DecidableEq ι]

def wholeCommand (t : ι) (phase : Bool) : List (RingedEvent ι) :=
  [.pack t, .enqueue t, .fetch, .post t 0 (Cpl.answer 0 phase 0), .poll t, .sqCleanup t,
    .cqCleanup t]

def createEvents (t : ι) : List (RingedEvent ι) :=
  [.work ⟨t, .reserve⟩, .work ⟨t, .allocPair 0 0⟩, .work ⟨t, .allocCq 0 0 0⟩] ++
    wholeCommand t true ++ [.work ⟨t, .allocSq 0 0 0⟩] ++ wholeCommand t true ++
    [.work ⟨t, .finishPair 0 0⟩]

def deleteEvents (t : ι) : List (RingedEvent ι) :=
  [.work ⟨t, .enter 0⟩, .work ⟨t, .test 0 (some 0)⟩] ++ wholeCommand t false ++
    wholeCommand t false ++ [.work ⟨t, .freeCq 0 0⟩, .work ⟨t, .freeSq 0 0⟩,
    .work ⟨t, .freePair 0 0⟩, .work ⟨t, .clearMark 0 0⟩]

def twoSlots : RingedSystem ι :=
  ⟨QpSystem.fresh 1#32 Cpl.zero,
    .start (adminInitRings (initQueueSize 1#32) (fun _ => Cpl.zero) fun _ => clearCmd),
    fun _ => none⟩

theorem twoSlots_init : (machine ι 1#32 Cpl.zero).init twoSlots :=
  ⟨QpSystem.fresh_init 1#32 Cpl.zero, .start (AdminSystem.machine_init _ _), fun _ => ⟨rfl, rfl⟩,
    fun _ => rfl⟩

instance (permitted : QpSystem ι → QpEvent ι → Prop) [∀ q d, Decidable (permitted q d)]
    (s : RingedSystem ι) (e : RingedEvent ι) : Decidable (ringed permitted s e) :=
  @instDecidableAnd _ _
    (match e with
      | .enqueue _ => decidable_of_iff s.admin.FreshCid ⟨fun fresh _ _ => fresh, fun h => h _ rfl⟩
      | .work _ | .pack _ | .poll _ | .sqCleanup _ | .cqCleanup _ | .fetch | .post .. =>
          .isTrue fun _ other => nomatch other)
    (match s.image e with
      | none => .isTrue fun _ other => nomatch other
      | some d => decidable_of_iff (permitted s.toCalls d)
          ⟨fun permits _ same => Option.some.inj same ▸ permits, fun h => h _ rfl⟩)

/-- The rings refine the atomic commands: with the calls whose command is answered counted as
past it, every state is one that the atomic calls reach, and the same state where no call is
inside a command. -/
theorem calls_refined (cap0 : Dword) (cpl : Cpl) (permitted : QpSystem ι → QpEvent ι → Prop)
    (pairs : ∀ q, Reachable (QpSystem.machine ι cap0 cpl) permitted q → q.PairInv)
    (s : RingedSystem ι) (reached : Reachable (machine ι cap0 cpl) (ringed permitted) s) :
    Reachable (QpSystem.machine ι cap0 cpl) permitted s.toCalls ∧
      s.toCalls.io = s.qp.io ∧ ((∀ t, s.cmd_ t = none) → s.toCalls = s.qp) := by
  obtain ⟨inv, abstract⟩ := ringed_inv pairs reached
  exact ⟨abstract, rfl, fun clear => toCalls_start fun t => inv.rests (clear t)⟩

theorem standing_pairs {cap0 : Dword} {cpl : Cpl} (q : QpSystem ι)
    (reached : Reachable (QpSystem.machine ι cap0 cpl) QpSystem.findsStanding q) : q.PairInv :=
  reached.invariant (fun _ => QpSystem.PairInv.start)
    (fun _ _ _ inv permitted taken => inv.step permitted taken)

theorem calls_refined_answered :
    ∃ s : RingedSystem Unit, s.answered () = true ∧ s.qp.call () = some (.create 0 0 .cqReady) ∧
      s.toCalls.call () = some (.create 0 0 .cqCreated) ∧
      Reachable (QpSystem.machine Unit 1#32 Cpl.zero) QpSystem.findsStanding s.toCalls := by
  have begins : Reachable (machine Unit 1#32 Cpl.zero) (ringed QpSystem.findsStanding) twoSlots :=
    .start twoSlots_init
  have ended : ((machine Unit 1#32 Cpl.zero).runAllowed (ringed QpSystem.findsStanding) twoSlots
      ((createEvents ()).take 7)).map (fun s => (s.answered (), s.qp.call (), s.toCalls.call ())) =
      some (true, some (.create 0 0 .cqReady), some (.create 0 0 .cqCreated)) := by
    decide +kernel
  obtain ⟨s, ran, facts⟩ := Option.map_eq_some_iff.mp ended
  obtain ⟨answered, there, past⟩ := Prod.mk.inj facts |>.imp_right Prod.mk.inj
  have reached := begins.extendAllowed _ ran
  exact ⟨s, answered, there, past,
    (calls_refined 1#32 Cpl.zero QpSystem.findsStanding standing_pairs s reached).1⟩

/-- On the rings, too, each part of each pair is torn down at most once and only after its
create has returned it, if every delete that finds its mark set finds a standing pair. -/
theorem torn_once_on_rings (cap0 : Dword) (cpl : Cpl) (s : RingedSystem ι)
    (reached : Reachable (machine ι cap0 cpl) (ringed QpSystem.findsStanding) s) :
    s.qp.TornOnce := by
  have inv := standing_pairs s.toCalls (ringed_inv standing_pairs reached).2
  exact ⟨inv.once, fun p member => (inv.torn p member).1⟩

theorem torn_once_on_rings_single :
    ∃ s : RingedSystem Unit, s.qp.hist.torn.length = 5 ∧ s.qp.TornOnce := by
  have begins : Reachable (machine Unit 1#32 Cpl.zero) (ringed QpSystem.findsStanding) twoSlots :=
    .start twoSlots_init
  have ended : ((machine Unit 1#32 Cpl.zero).runAllowed (ringed QpSystem.findsStanding) twoSlots
      (createEvents () ++ deleteEvents ())).map (fun s => s.qp.hist.torn.length) = some 5 := by
    decide +kernel
  obtain ⟨s, ran, five⟩ := Option.map_eq_some_iff.mp ended
  exact ⟨s, five, torn_once_on_rings 1#32 Cpl.zero s (begins.extendAllowed _ ran)⟩

/-- Each submission has a fresh CID, the controller answers each command by its rules when it
executes it, and a delete is called for a pair that its create has returned and that no delete has
been called for. -/
structure OrderlyRings (limits : IoLimits) (s : RingedSystem ι) (e : RingedEvent ι) : Prop where
  fresh : ∀ t, e = .enqueue t → s.admin.FreshCid
  answers : ∀ t k cpl cmd serial, e = .post t k cpl →
    s.admin.inflight[k]? = some (cmd, serial) →
      (cpl.status = 0 ↔ s.qp.io.ctl.Accepts limits cmd)
  returned : ∀ t i, e = .work ⟨t, .enter i⟩ → s.qp.hist.place (s.qp.hist.owner i) = some i ∧
    s.qp.hist.built (s.qp.hist.owner i) = true ∧
      ∀ t' delQp point, s.qp.call t' ≠ some (.delete i delQp point)

structure RingedAgreeInv (limits : IoLimits) (n m : Nat) (s : RingedSystem ι) : Prop where
  rings : RingedInv n s
  agree : s.toCalls.AgreeInv limits m

namespace RingedAgreeInv

variable {limits : IoLimits} {n m : Nat} {s s' : RingedSystem ι}

omit [DecidableEq ι] in
theorem flying_packs (inv : RingedAgreeInv limits n m s) {cmd : Cmd} {serial : Nat}
    (member : (cmd, serial) ∈ s.admin.inflight) :
    ∃ t h c, s.admin.sub.held t = some h ∧ h.serial = serial ∧ s.toCalls.call t = some c ∧
      c.packs s.qp.io = some h.submitted ∧ cmd = h.submitted.1.withCid h.cid := by
  obtain ⟨low, retired, adm⟩ := inv.rings.admin
  obtain ⟨k, flying⟩ := List.getElem?_of_mem member
  obtain ⟨fetched, stored⟩ := adm.device.flying cmd serial member
  have unanswered := AdminSystem.AdminInv.unanswered adm.device flying
  obtain ⟨t, h, mine, rfl, unseen⟩ := adm.clients.waiting serial
    (fetched.trans_le adm.fetching.notAhead) unanswered
  obtain ⟨_, _, _, passed, built, _⟩ := adm.ring.held t h mine
  rw [passed, Option.some.injEq] at stored
  have waits : s.answered t = false := by
    by_contra some_answer
    rcases (s.answered_iff t).mp (Bool.eq_true_of_not_eq_false some_answer) with
      ⟨v, seen⟩ | ⟨h', mine', posted⟩
    · rw [unseen] at seen
      cases seen
    · rw [mine, Option.some.injEq] at mine'
      exact unanswered (mine' ▸ posted)
  obtain ⟨c, there, _, known⟩ := inv.rings.packed t h.submitted (inv.rings.held t h mine)
  exact ⟨t, h, c, mine, rfl, (toCalls_waiting waits).trans there, known waits, stored ▸ built⟩

omit [DecidableEq ι] in
theorem flying_accepted (inv : RingedAgreeInv limits n m s) {cmd : Cmd} {serial : Nat}
    (member : (cmd, serial) ∈ s.admin.inflight) : s.qp.io.ctl.Accepts limits cmd := by
  obtain ⟨t, h, c, _, _, there, packs, rfl⟩ := inv.flying_packs member
  obtain ⟨a, _, before, submits, _⟩ := QpCall.packs_action 0 packs
  rw [IoController.accepts_withCid]
  exact inv.agree.accepts (there.trans before.symm) submits

theorem step (positive : 0 < n) (small : n ≤ 4096) (inv : RingedAgreeInv limits n m s)
    {e : RingedEvent ι} (permitted : OrderlyRings limits s e) (taken : s.step e = some s') :
    RingedAgreeInv limits n m s' := by
  obtain ⟨kept, performed⟩ := inv.rings.step positive small inv.agree.pairs permitted.fresh taken
  refine ⟨kept, ?_⟩
  cases event : s.image e with
  | none =>
      rw [event] at performed
      exact performed ▸ inv.agree
  | some d =>
      rw [event] at performed
      apply inv.agree.step _ performed
      cases e with
      | work e' =>
          obtain rfl := Option.some.inj event
          obtain ⟨plain, _⟩ := step_takes taken
          constructor
          · intro cmd status submits
            have submits : e'.action.command s.qp.io = some (cmd, status) := submits
            rw [plain] at submits
            cases submits
          · intro i entered
            obtain ⟨t, a⟩ := e'
            obtain rfl : a = .enter i := entered
            obtain ⟨placed, built, nobody⟩ := permitted.returned t i rfl
            refine ⟨placed, built, ?_⟩
            intro t' delQp point there
            have index := (s.toCalls_slotOf t').2
            rw [there] at index
            cases now : s.qp.call t' with
            | none =>
                rw [now] at index
                cases index
            | some c =>
                cases c with
                | create j newQp point' =>
                    rw [now] at index
                    cases index
                | delete j delQp' point' =>
                    rw [now] at index
                    obtain rfl := Option.some.inj index
                    exact nobody t' delQp' point' now
      | post t k cpl =>
          obtain ⟨h, cmd, admin, mine, flying, moved, rfl⟩ := step_takes taken
          obtain ⟨_, c, a, there, acts, submits, command, _⟩ :=
            inv.rings.post positive small mine flying moved
          simp only [image, there, Option.bind_some, acts, Option.map_some,
            Option.some.injEq] at event
          subst event
          have rule := permitted.answers t k cpl cmd h.serial rfl flying
          rw [command, IoController.accepts_withCid] at rule
          constructor
          · intro cmd' status' submits'
            have submits' : a.command s.qp.io = some (cmd', status') := submits'
            rw [submits, Option.some.injEq, Prod.mk.injEq] at submits'
            obtain ⟨rfl, rfl⟩ := submits'
            exact rule
          · intro i entered
            have entered : a = .enter i := entered
            rw [entered] at submits
            cases submits
      | _ => cases event

omit [DecidableEq ι] in
theorem tables_agree (inv : RingedAgreeInv limits n m s) (quiet : s.qp.Quiet) :
    QpSystem.TablesAgree s.qp.io.aqp.numIoQueuePairsSupported s.qp.io := by
  have supported : s.qp.io.aqp.numIoQueuePairsSupported = m := inv.agree.granted.supported
  rw [supported]
  refine ⟨?_, inv.agree.agrees.free, inv.agree.agrees.outside⟩
  intro i bound marked
  apply inv.agree.agrees.standing i bound marked
  intro t there
  rw [(s.toCalls_slotOf t).1, quiet t] at there
  cases there

end RingedAgreeInv

theorem ringed_agree_inv {cap0 : Dword} {cpl : Cpl} (cqs : (cpl.dword 0 >>> 16).toNat ≤ 65534)
    (sqs : (cpl.dword 0 >>> 16).toNat ≤ (cpl.dword 0 &&& 0x0000ffff#32).toNat)
    {s : RingedSystem ι}
    (reached : Reachable (machine ι cap0 cpl) (OrderlyRings (grantedLimits cap0 cpl)) s) :
    RingedAgreeInv (grantedLimits cap0 cpl) (initQueueSize cap0) (numQueuesSupported cpl) s := by
  obtain ⟨positive, small⟩ := initQueueSize_bounds cap0
  refine reached.invariant ?_ fun _ _ _ inv => inv.step positive small
  intro s initial
  obtain ⟨rings, calls⟩ := RingedInv.start initial
  exact ⟨rings, QpSystem.AgreeInv.start cqs sqs calls⟩

/-- The driver and a controller that checks its commands agree on the queues, in every
interleaving on the real rings: any command in flight is acceptable whenever the controller
gets to it, none is rejected, no two pairs share a slot, and between calls both sides hold the
same pairs. -/
theorem controller_agrees_on_rings (cap0 : Dword) (cpl : Cpl)
    (cqs : (cpl.dword 0 >>> 16).toNat ≤ 65534)
    (sqs : (cpl.dword 0 >>> 16).toNat ≤ (cpl.dword 0 &&& 0x0000ffff#32).toNat)
    (s : RingedSystem ι)
    (reached : Reachable (machine ι cap0 cpl) (OrderlyRings (grantedLimits cap0 cpl)) s) :
    (∀ cmd serial, (cmd, serial) ∈ s.admin.inflight →
        s.qp.io.ctl.Accepts (grantedLimits cap0 cpl) cmd) ∧
      (∀ status ∈ s.qp.hist.statuses, status = 0) ∧
      (∀ h h' i, s.qp.hist.place h = some i → s.qp.hist.place h' = some i → h = h') ∧
      (s.qp.Quiet → QpSystem.TablesAgree s.qp.io.aqp.numIoQueuePairsSupported s.qp.io) := by
  have inv := ringed_agree_inv cqs sqs reached
  refine ⟨fun cmd serial => inv.flying_accepted, inv.agree.accepted, ?_, inv.tables_agree⟩
  intro h h' i first second
  exact (inv.agree.pairs.places h i first).2.symm.trans (inv.agree.pairs.places h' i second).2

def succeeds (s : RingedSystem ι) : RingedEvent ι → Prop
  | .work e => deleteIndex (e.action.after s.qp.io) = none
  | .enqueue _ => s.admin.FreshCid
  | .post _ _ cpl => cpl.status = 0
  | _ => True

instance (s : RingedSystem ι) (e : RingedEvent ι) : Decidable (s.succeeds e) :=
  match e with
  | .work _ => inferInstanceAs (Decidable (_ = _))
  | .enqueue _ => inferInstanceAs (Decidable s.admin.FreshCid)
  | .post _ _ _ => inferInstanceAs (Decidable (_ = _))
  | .pack _ | .poll _ | .sqCleanup _ | .cqCleanup _ | .fetch => .isTrue trivial

theorem orderly_extend {cap0 : Dword} {cpl : Cpl} (cqs : (cpl.dword 0 >>> 16).toNat ≤ 65534)
    (sqs : (cpl.dword 0 >>> 16).toNat ≤ (cpl.dword 0 &&& 0x0000ffff#32).toNat)
    (events : List (RingedEvent ι)) {s last : RingedSystem ι}
    (reached : Reachable (machine ι cap0 cpl) (OrderlyRings (grantedLimits cap0 cpl)) s)
    (ended : (machine ι cap0 cpl).runAllowed succeeds s events = some last) :
    Reachable (machine ι cap0 cpl) (OrderlyRings (grantedLimits cap0 cpl)) last := by
  refine reached.leads ?_ (Leads.computed events ended)
  intro s e _ reached permitted _
  constructor
  · rintro t rfl
    exact permitted
  · rintro t k cpl' cmd serial rfl flying
    have inv := ringed_agree_inv cqs sqs reached
    exact iff_of_true permitted (inv.flying_accepted (List.mem_of_getElem? flying))
  · rintro t i rfl
    cases permitted

theorem controller_agrees_on_rings_first_pair :
    ∃ s : RingedSystem Unit, s.qp.io.aqp.queueUseMark 0 = true ∧ s.qp.Quiet ∧
      QpSystem.TablesAgree s.qp.io.aqp.numIoQueuePairsSupported s.qp.io := by
  have cqs : (Cpl.zero.dword 0 >>> 16).toNat ≤ 65534 := by decide
  have sqs : (Cpl.zero.dword 0 >>> 16).toNat ≤ (Cpl.zero.dword 0 &&& 0x0000ffff#32).toNat := by
    decide
  have begins : Reachable (machine Unit 1#32 Cpl.zero) (OrderlyRings (grantedLimits 1#32 Cpl.zero))
      twoSlots := .start twoSlots_init
  have ended : ((machine Unit 1#32 Cpl.zero).runAllowed succeeds twoSlots (createEvents ())).map
      (fun s => (s.qp.io.aqp.queueUseMark 0, s.qp.call ())) = some (true, none) := by
    decide +kernel
  obtain ⟨s, ran, facts⟩ := Option.map_eq_some_iff.mp ended
  obtain ⟨marked, idle⟩ := Prod.mk.inj facts
  have quiet : s.qp.Quiet := fun _ => idle
  have reached := orderly_extend cqs sqs _ begins ran
  exact ⟨s, marked, quiet, (controller_agrees_on_rings 1#32 Cpl.zero cqs sqs s reached).2.2.2 quiet⟩

end RingedSystem

end BafsNvme
