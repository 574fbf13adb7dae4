import BafsNvme.QueuePairStatus
import BafsNvme.CallProgress

/-! Create and delete calls made one after another, by whatever threads. What their actions, and
their commands on the rings, add up to is what `admin_create_io_queue_pair` and
`admin_delete_io_queue_pair` do as whole functions. -/

namespace BafsNvme

open Machine

namespace IoState

variable {s : IoState} {i : Nat}

theorem create_effects {newQp : Nat} (taken : s.reserve.1 = some (i, newQp))
    (cqAddr sqAddr : BitVec 64) (cqStatus sqStatus : Nat) :
    (adminCreateIoQueuePair s cqAddr sqAddr cqStatus sqStatus).2 =
      (QpAction.wholeCreate i newQp cqAddr sqAddr cqStatus sqStatus).foldl QpAction.effect s := by
  obtain ⟨io, reserved⟩ : ∃ io, s.reserve = (some (i, newQp), io) :=
    ⟨s.reserve.2, Prod.ext taken rfl⟩
  simp only [adminCreateIoQueuePair, reserved, QpAction.wholeCreate, List.foldl_cons,
    List.foldl_nil, QpAction.effect]

theorem delete_effects {delQp : Nat} (marked : s.aqp.queueUseMark i = true)
    (listed : s.aqp.ioQpList i = some delQp) (sqStatus cqStatus : Nat) :
    adminDeleteIoQueuePair s i sqStatus cqStatus =
      some ((QpAction.wholeDelete i delQp sqStatus cqStatus).foldl QpAction.effect s) := by
  simp only [adminDeleteIoQueuePair, marked, Bool.true_eq_false, if_false, listed, Option.map_some,
    QpAction.wholeDelete, List.foldl_cons, List.foldl_nil, QpAction.effect]

end IoState

namespace QpCall

/-- The tables are `io` where a call stands that began with `io₀`, if only it has changed them. -/
def Midway (io₀ : IoState) : QpCall → IoState → Prop
  | create i newQp point, io => io₀.reserve.1 = some (i, newQp) ∧
      ∃ cqAddr sqAddr cqStatus sqStatus,
        io = ((QpAction.wholeCreate i newQp cqAddr sqAddr cqStatus sqStatus).take
          (point.rank + 1)).foldl QpAction.effect io₀
  | delete i delQp point, io => i < io₀.aqp.numIoQueuePairsSupported ∧
      delQp = io₀.aqp.ioQpList i ∧ (point ≠ .entered → io₀.aqp.queueUseMark i = true) ∧
      ∃ sqStatus cqStatus,
        io = ((QpAction.wholeDelete i (delQp.getD 0) sqStatus cqStatus).take
          (point.rank + 1)).foldl QpAction.effect io₀

theorem Midway.start {io₀ : IoState} {a : QpAction} (begins : a.before = none)
    (valid : a.validIndex io₀ = true) :
    match a.after io₀ with
    | some c => Midway io₀ c (a.effect io₀)
    | none => ∃ call, PairCall.step io₀ call = some (a.effect io₀) := by
  cases a with
  | reserve =>
      simp only [QpAction.after]
      cases taken : io₀.reserve.1 with
      | some slot => exact ⟨taken, 0, 0, 0, 0, rfl⟩
      | none =>
          obtain ⟨io, refused⟩ : ∃ io, io₀.reserve = (none, io) :=
            ⟨io₀.reserve.2, Prod.ext taken rfl⟩
          refine ⟨.create 0 0 0 0, ?_⟩
          simp only [PairCall.step, adminCreateIoQueuePair, refused, QpAction.effect]
  | enter i =>
      exact ⟨of_decide_eq_true valid, rfl, fun past => absurd rfl past, 0, 0, rfl⟩
  | _ => cases begins

theorem Midway.step {io₀ io : IoState} {c : QpCall} {a : QpAction} (midway : Midway io₀ c io)
    (before : a.before = some c) :
    match a.after io with
    | some c' => Midway io₀ c' (a.effect io)
    | none => ∃ call, PairCall.step io₀ call = some (a.effect io) := by
  cases a with
  | reserve | enter => cases before
  | allocPair i newQp =>
      cases before
      obtain ⟨taken, cqAddr, sqAddr, cqStatus, sqStatus, rfl⟩ := midway
      exact ⟨taken, cqAddr, sqAddr, cqStatus, sqStatus, rfl⟩
  | allocCq i newQp addr =>
      cases before
      obtain ⟨taken, cqAddr, sqAddr, cqStatus, sqStatus, rfl⟩ := midway
      exact ⟨taken, addr, sqAddr, cqStatus, sqStatus, rfl⟩
  | crtIoCq i newQp status =>
      cases before
      obtain ⟨taken, cqAddr, sqAddr, cqStatus, sqStatus, rfl⟩ := midway
      exact ⟨taken, cqAddr, sqAddr, status, sqStatus, rfl⟩
  | allocSq i newQp addr =>
      cases before
      obtain ⟨taken, cqAddr, sqAddr, cqStatus, sqStatus, rfl⟩ := midway
      exact ⟨taken, cqAddr, addr, cqStatus, sqStatus, rfl⟩
  | crtIoSq i newQp status =>
      cases before
      obtain ⟨taken, cqAddr, sqAddr, cqStatus, sqStatus, rfl⟩ := midway
      exact ⟨taken, cqAddr, sqAddr, cqStatus, status, rfl⟩
  | finishPair i newQp =>
      cases before
      obtain ⟨taken, cqAddr, sqAddr, cqStatus, sqStatus, rfl⟩ := midway
      exact ⟨.create cqAddr sqAddr cqStatus sqStatus,
        congrArg some (IoState.create_effects taken cqAddr sqAddr cqStatus sqStatus)⟩
  | test i delQp =>
      cases before
      obtain ⟨bound, pointer, _, sqStatus, cqStatus, rfl⟩ := midway
      cases marked : io.aqp.queueUseMark i with
      | true =>
          simp only [QpAction.after, marked, if_true]
          exact ⟨bound, pointer, fun _ => marked, sqStatus, cqStatus, rfl⟩
      | false =>
          simp only [QpAction.after, marked, Bool.false_eq_true, if_false]
          refine ⟨.delete i 0 0, ?_⟩
          rw [PairCall.step, if_pos bound]
          exact IoState.delete_unmarked marked 0 0
  | delIoSq i delQp status =>
      cases before
      obtain ⟨bound, pointer, marked, sqStatus, cqStatus, rfl⟩ := midway
      exact ⟨bound, pointer, fun _ => marked (by decide), status, cqStatus, rfl⟩
  | delIoCq i delQp status =>
      cases before
      obtain ⟨bound, pointer, marked, sqStatus, cqStatus, rfl⟩ := midway
      exact ⟨bound, pointer, fun _ => marked (by decide), sqStatus, status, rfl⟩
  | freeCq i delQp | freeSq i delQp | freePair i delQp =>
      cases before
      obtain ⟨bound, pointer, marked, sqStatus, cqStatus, rfl⟩ := midway
      exact ⟨bound, pointer, fun _ => marked (by decide), sqStatus, cqStatus, rfl⟩
  | clearMark i delQp =>
      cases before
      obtain ⟨bound, pointer, marked, sqStatus, cqStatus, rfl⟩ := midway
      refine ⟨.delete i sqStatus cqStatus, ?_⟩
      rw [PairCall.step, if_pos bound]
      exact IoState.delete_effects (marked (by decide)) pointer.symm sqStatus cqStatus

end QpCall

namespace QpSystem

variable {ι : Type} [DecidableEq ι]

def oneAtATime (s : QpSystem ι) (e : QpEvent ι) : Prop := e.action.before = none → s.Quiet

def MarksAccounted (s : QpSystem ι) : Prop := ∀ i, s.io.aqp.queueUseMark i = true →
  s.hist.built (s.hist.owner i) = true ∨ ∃ t, slotOf (s.call t) = some i

/-- Whole calls lead to the tables up to the call in progress, if there is one. -/
def WholeCalls (cap0 : Dword) (cpl : Cpl) (s : QpSystem ι) : Prop := ∃ io₀,
  Reachable (PairCall.machine cap0 cpl) anyEvent io₀ ∧
    ((s.Quiet ∧ s.io = io₀) ∨ ∃ t c, s.call t = some c ∧ (∀ t', t' ≠ t → s.call t' = none) ∧
      c.Midway io₀ s.io)

structure Sequential (cap0 : Dword) (cpl : Cpl) (s : QpSystem ι) : Prop where
  pairs : PairInv s
  marks : s.MarksAccounted
  whole : s.WholeCalls cap0 cpl

variable {cap0 : Dword} {cpl : Cpl} {s s' : QpSystem ι} {t : ι}

theorem MarksAccounted.still (accounted : s.MarksAccounted) {a : QpAction}
    (here : s.call t = a.before)
    (marks : (a.effect s.io).aqp.queueUseMark = s.io.aqp.queueUseMark)
    (owner : (s.hist.record s.io a).owner = s.hist.owner)
    (built : (s.hist.record s.io a).built = s.hist.built)
    (keeps : ∀ i, slotOf a.before = some i → slotOf (a.after s.io) = some i) :
    (s.next ⟨t, a⟩).MarksAccounted := by
  intro i marked
  simp only [next, marks, owner, built] at marked ⊢
  rcases accounted i marked with whole | ⟨t', there⟩
  · exact .inl whole
  · refine .inr ⟨t', ?_⟩
    by_cases mine : t' = t
    · subst mine
      rw [Function.update_self]
      exact keeps i (here ▸ there)
    · rwa [Function.update_of_ne mine]

theorem MarksAccounted.step (accounted : s.MarksAccounted) (pairs : PairInv s) {a : QpAction}
    (here : s.call t = a.before) : (s.next ⟨t, a⟩).MarksAccounted := by
  have elsewhere {i j : Nat} (slot : slotOf a.before = some i) (other : j ≠ i) {t' : ι}
      (there : slotOf (s.call t') = some j) : slotOf ((s.next ⟨t, a⟩).call t') = some j := by
    have apart : t' ≠ t := by
      rintro rfl
      rw [here, slot, Option.some.injEq] at there
      exact other there.symm
    rwa [next_other (e := ⟨t, a⟩) apart]
  cases a with
  | reserve =>
      rcases s.io.reserve_cases with ⟨used, refused⟩ | ⟨i, used, _, _, taken⟩
      · have hist : s.hist.record s.io .reserve = s.hist := by simp [QpHistory.record, refused]
        apply accounted.still here _ (by rw [hist]) (by rw [hist])
        · intro i other
          cases other
        · simp only [QpAction.effect, refused]
      · have after : QpAction.reserve.after s.io = some (.create i s.io.blocks .reserved) := by
          simp [QpAction.after, taken]
        intro j marked
        simp only [next, QpAction.effect, QpHistory.record, taken] at marked ⊢
        by_cases mine : j = i
        · right
          refine ⟨t, ?_⟩
          rw [Function.update_self, after, mine]
          rfl
        · rw [Function.update_of_ne mine] at marked ⊢
          rcases accounted j marked with whole | ⟨t', there⟩
          · exact .inl whole
          · refine .inr ⟨t', ?_⟩
            rw [Function.update_of_ne]
            · exact there
            · rintro rfl
              rw [here] at there
              cases there
  | finishPair i newQp =>
      obtain ⟨_, owned, _⟩ := pairs.creating t i newQp _ here
      intro j marked
      by_cases mine : j = i
      · left
        subst mine
        show Function.update s.hist.built newQp true (s.hist.owner j) = true
        rw [owned, Function.update_self]
      · rcases accounted j marked with whole | ⟨t', there⟩
        · left
          show Function.update s.hist.built newQp true (s.hist.owner j) = true
          by_cases same : s.hist.owner j = newQp
          · rw [same, Function.update_self]
          · rwa [Function.update_of_ne same]
        · exact .inr ⟨t', elsewhere rfl mine there⟩
  | clearMark i delQp =>
      intro j marked
      have kept : j ≠ i ∧ s.io.aqp.queueUseMark j = true := by
        simp only [next, QpAction.effect, IoState.clearMark] at marked
        by_cases mine : j = i
        · rw [mine, Function.update_self] at marked
          cases marked
        · exact ⟨mine, by rwa [Function.update_of_ne mine] at marked⟩
      rcases accounted j kept.2 with whole | ⟨t', there⟩
      · exact .inl whole
      · exact .inr ⟨t', elsewhere (slotOf_delete (by decide)) kept.1 there⟩
  | freePair i delQp =>
      refine accounted.still here rfl ?_ ?_ (fun j slot => slot)
      · simp only [QpHistory.record]
        split <;> rfl
      · simp only [QpHistory.record]
        split <;> rfl
  | test i delQp =>
      apply accounted.still here rfl
      · simp only [QpHistory.record]
        split <;> rfl
      · simp only [QpHistory.record]
        split <;> rfl
      · intro j slot
        cases slot
  | enter i =>
      apply accounted.still here rfl rfl rfl
      intro j slot
      cases slot
  | allocPair i newQp | allocCq i newQp addr | crtIoCq i newQp status | allocSq i newQp addr
  | crtIoSq i newQp status | delIoSq i delQp status | delIoCq i delQp status | freeCq i delQp
  | freeSq i delQp => exact accounted.still here rfl rfl rfl (fun j slot => slot)

theorem WholeCalls.start (initial : (machine ι cap0 cpl).init s) : s.WholeCalls cap0 cpl := by
  obtain ⟨dstrd, cqDb, sqDb, sqDmaAddrs, cqDmaAddrs, heap, dma, rfl⟩ := initial
  exact ⟨_, .start ⟨dstrd, cqDb, sqDb, sqDmaAddrs, cqDmaAddrs, heap, dma, rfl⟩,
    .inl ⟨fun _ => rfl, rfl⟩⟩

theorem WholeCalls.acts (whole : s.WholeCalls cap0 cpl) {a : QpAction} (here : s.call t = a.before)
    (permitted : s.oneAtATime ⟨t, a⟩) : (∀ t', t' ≠ t → s.call t' = none) ∧
      ∃ io₀, Reachable (PairCall.machine cap0 cpl) anyEvent io₀ ∧
        match a.before with
        | none => s.io = io₀
        | some c => c.Midway io₀ s.io := by
  obtain ⟨io₀, reached, ⟨quiet, same⟩ | ⟨t₀, c, there, others, midway⟩⟩ := whole
  · refine ⟨fun t' _ => quiet t', io₀, reached, ?_⟩
    rw [← here, quiet t]
    exact same
  · obtain rfl : t = t₀ := by
      by_contra other
      have nothing := permitted (here.symm.trans (others t other)) t₀
      rw [there] at nothing
      cases nothing
    refine ⟨others, io₀, reached, ?_⟩
    rw [← here, there]
    exact midway

theorem WholeCalls.step (whole : s.WholeCalls cap0 cpl) {e : QpEvent ι}
    (permitted : s.oneAtATime e) (taken : s.step e = some s') : s'.WholeCalls cap0 cpl := by
  obtain ⟨t, a⟩ := e
  obtain ⟨here, valid, rfl⟩ := step_cases taken
  obtain ⟨others, io₀, reached, stands⟩ := whole.acts here permitted
  have alone : ∀ t', t' ≠ t → (s.next ⟨t, a⟩).call t' = none := fun t' other =>
    (next_other (e := ⟨t, a⟩) other).trans (others t' other)
  have onward : match a.after s.io with
      | some c => c.Midway io₀ (a.effect s.io)
      | none => ∃ call, PairCall.step io₀ call = some (a.effect s.io) := by
    cases before : a.before with
    | none =>
        rw [before] at stands
        exact stands ▸ QpCall.Midway.start before valid
    | some c =>
        rw [before] at stands
        exact stands.step before
  cases after : a.after s.io with
  | some c =>
      rw [after] at onward
      exact ⟨io₀, reached, .inr ⟨t, c, (next_same s ⟨t, a⟩).trans after, alone, onward⟩⟩
  | none =>
      rw [after] at onward
      obtain ⟨call, returned⟩ := onward
      refine ⟨_, reached.next (e := call) trivial returned, .inl ⟨fun t' => ?_, rfl⟩⟩
      by_cases mine : t' = t
      · subst mine
        exact (next_same s ⟨t', a⟩).trans after
      · exact alone t' mine

theorem Sequential.finds (seq : s.Sequential cap0 cpl) {e : QpEvent ι}
    (permitted : s.oneAtATime e) (here : s.call e.thread = e.action.before) :
    s.findsStanding e := by
  obtain ⟨t, a⟩ := e
  obtain ⟨others, io₀, _, stands⟩ := seq.whole.acts here permitted
  cases a with
  | test i delQp =>
      intro marked
      obtain ⟨_, pointer, _, sqStatus, cqStatus, same⟩ := stands
      have same : s.io = io₀ := same
      have built : s.hist.built (s.hist.owner i) = true := by
        rcases seq.marks i marked with whole | ⟨t', there⟩
        · exact whole
        · by_cases mine : t' = t
          · rw [mine, here] at there
            cases there
          · rw [others t' mine] at there
            cases there
      refine ⟨built, by rw [pointer, same], fun t' => ?_⟩
      by_cases mine : t' = t
      · rw [mine, here]
        exact (Option.some_ne_none i).symm
      · rw [others t' mine]
        exact (Option.some_ne_none i).symm
  | _ => trivial

theorem sequential (reached : Reachable (machine ι cap0 cpl) oneAtATime s) :
    s.Sequential cap0 cpl := by
  refine reached.invariant ?_ ?_
  · intro s initial
    refine ⟨PairInv.start initial, ?_, WholeCalls.start initial⟩
    obtain ⟨dstrd, cqDb, sqDb, sqDmaAddrs, cqDmaAddrs, heap, dma, rfl⟩ := initial
    intro i marked
    cases marked
  · intro s e s' seq permitted taken
    have here := (step_cases taken).1
    refine ⟨seq.pairs.step (seq.finds permitted here) taken, ?_, seq.whole.step permitted taken⟩
    obtain ⟨_, _, rfl⟩ := step_cases taken
    exact seq.marks.step seq.pairs here

omit [DecidableEq ι] in
theorem WholeCalls.returned (whole : s.WholeCalls cap0 cpl) (quiet : s.Quiet) :
    Reachable (PairCall.machine cap0 cpl) anyEvent s.io := by
  obtain ⟨io₀, reached, ⟨_, same⟩ | ⟨t, c, there, _⟩⟩ := whole
  · exact same ▸ reached
  · rw [quiet t] at there
    cases there

theorem alone_meets {as : List QpAction} (others : ∀ t', t' ≠ t → s.call t' = none)
    (ended : (machine ι cap0 cpl).run s (as.map (QpEvent.mk t)) = some s') :
    RunMeets (machine ι cap0 cpl) oneAtATime s (as.map (QpEvent.mk t)) ∧
      ∀ t', t' ≠ t → s'.call t' = none := by
  induction as generalizing s with
  | nil => exact ⟨trivial, Option.some.inj ended ▸ others⟩
  | cons a rest ih =>
      rw [List.map_cons, run] at ended
      obtain ⟨s₁, taken, remaining⟩ := Option.bind_eq_some_iff.mp ended
      obtain ⟨here, _, rfl⟩ := step_cases taken
      have still : ∀ t', t' ≠ t → (s.next ⟨t, a⟩).call t' = none := fun t' other =>
        (next_other (e := ⟨t, a⟩) other).trans (others t' other)
      obtain ⟨meets, ends⟩ := ih still remaining
      refine ⟨⟨?_, ?_⟩, ends⟩
      · intro begins t'
        by_cases mine : t' = t
        · rw [mine]
          exact here.trans begins
        · exact others t' mine
      · intro s₂ other
        rw [Option.some.inj (other.symm.trans taken)]
        exact meets

/-- Calls made one at a time, action by action, leave exactly the tables that the whole
functions called one after another do. -/
theorem calls_one_at_a_time (cap0 : Dword) (cpl : Cpl) [Nonempty ι] (io : IoState) :
    (∃ s : QpSystem ι, Reachable (machine ι cap0 cpl) oneAtATime s ∧ s.Quiet ∧ s.io = io) ↔
      Reachable (PairCall.machine cap0 cpl) anyEvent io := by
  constructor
  · rintro ⟨s, reached, quiet, rfl⟩
    exact (sequential reached).whole.returned quiet
  · intro reached
    obtain ⟨t⟩ := ‹Nonempty ι›
    refine reached.invariant (P := fun io => ∃ s : QpSystem ι,
      Reachable (machine ι cap0 cpl) oneAtATime s ∧ s.Quiet ∧ s.io = io) ?_ ?_
    · rintro io ⟨dstrd, cqDb, sqDb, sqDmaAddrs, cqDmaAddrs, heap, dma, rfl⟩
      exact ⟨start _, .start ⟨dstrd, cqDb, sqDb, sqDmaAddrs, cqDmaAddrs, heap, dma, rfl⟩,
        fun _ => rfl, rfl⟩
    · rintro io e io' ⟨s, reached, quiet, rfl⟩ _ taken
      obtain ⟨as, s', ran, same, idle⟩ : ∃ (as : List QpAction) (s' : QpSystem ι),
          (machine ι cap0 cpl).run s (as.map (QpEvent.mk t)) = some s' ∧ s'.io = io' ∧
            s'.call t = none := by
        cases e with
        | create cqAddr sqAddr cqStatus sqStatus =>
            obtain rfl := Option.some.inj taken
            exact create_run s (quiet t) cqAddr sqAddr cqStatus sqStatus
        | delete i sqStatus cqStatus =>
            obtain ⟨bound, returned⟩ := Option.ite_none_right_eq_some.mp taken
            exact delete_run s (quiet t) bound returned
      obtain ⟨meets, others⟩ := alone_meets (fun t' _ => quiet t') ran
      refine ⟨s', reached.extend _ meets ran, fun t' => ?_, same⟩
      by_cases mine : t' = t
      · rw [mine]
        exact idle
      · exact others t' mine

theorem calls_one_at_a_time_create :
    ∃ s : QpSystem Unit, Reachable (machine Unit 1#32 Cpl.zero) oneAtATime s ∧ s.Quiet ∧
      s.io.aqp.queueUseMark 0 = true := by
  let created := (adminCreateIoQueuePair (fresh (ι := Unit) 1#32 Cpl.zero).io 0 0 0 0).2
  have called : Reachable (PairCall.machine 1#32 Cpl.zero) anyEvent created :=
    Reachable.next (e := .create 0 0 0 0) (.start ⟨_, _, _, _, _, _, _, rfl⟩) trivial rfl
  obtain ⟨s, reached, quiet, same⟩ := (calls_one_at_a_time 1#32 Cpl.zero (ι := Unit) created).mpr
    called
  refine ⟨s, reached, quiet, ?_⟩
  rw [same]
  decide +kernel

end QpSystem

namespace RingedSystem

variable {ι : Type}

def oneAtATime (s : RingedSystem ι) : RingedEvent ι → Prop
  | .work e => e.action.before = none → s.qp.Quiet
  | _ => True

instance [Fintype ι] (s : RingedSystem ι) (e : RingedEvent ι) : Decidable (s.oneAtATime e) :=
  match e with
  | .work e => inferInstanceAs (Decidable (e.action.before = none → ∀ t, s.qp.call t = none))
  | .pack _ | .enqueue _ | .poll _ | .sqCleanup _ | .cqCleanup _ | .fetch | .post _ _ _ =>
      .isTrue trivial

variable {n : Nat} {cap0 : Dword} {cpl : Cpl} {s s' : RingedSystem ι} {t : ι}

theorem toCalls_none (s : RingedSystem ι) (t : ι) :
    s.toCalls.call t = none ↔ s.qp.call t = none := by
  simp only [toCalls]
  split
  · exact Option.map_eq_none_iff
  · exact Iff.rfl

structure SerialInv (n : Nat) (s : RingedSystem ι) : Prop where
  rings : RingedInv n s
  live : ∃ low retired, AdminSystem.LiveInv n low retired s.admin

theorem SerialInv.lone (inv : SerialInv n s) (whole : s.toCalls.WholeCalls cap0 cpl)
    {cmd : FreshCmd} (packed : s.cmd_ t = some cmd) (t' : ι) (other : t' ≠ t) :
    s.admin.sub.held t' = none ∧ s.admin.seen t' = none := by
  obtain ⟨c, there, _⟩ := inv.rings.packed t cmd packed
  have inside : s.toCalls.call t ≠ none := by
    rw [Ne, toCalls_none, there]
    exact Option.some_ne_none c
  obtain ⟨_, _, ⟨quiet, _⟩ | ⟨t₀, _, _, others, _⟩⟩ := whole
  · exact absurd (quiet t) inside
  · have own : t = t₀ := by
      by_contra apart
      exact inside (others t apart)
    have idle := (s.toCalls_none t').mp (others t' (own ▸ other))
    refine inv.rings.rests (inv.rings.idle fun c' there' => ?_).1
    rw [idle] at there'
    cases there'

theorem oneAtATime_image {e : RingedEvent ι} {d : QpEvent ι} (permitted : s.oneAtATime e)
    (event : s.image e = some d) : s.toCalls.oneAtATime d := by
  intro begins t
  rw [toCalls_none]
  cases e with
  | work e =>
      obtain rfl := Option.some.inj event
      exact permitted begins t
  | post t' k cpl' =>
      obtain ⟨a, acts, rfl⟩ := Option.map_eq_some_iff.mp event
      obtain ⟨c, _, command⟩ := Option.bind_eq_some_iff.mp acts
      -- the action of a command is inside a call
      cases c with
      | create i newQp point =>
          cases point <;> cases command <;> cases begins
      | delete i delQp point =>
          cases point <;> cases command <;> cases begins
  | _ => cases event

variable [DecidableEq ι]

theorem SerialInv.fresh (inv : SerialInv n s) (whole : s.toCalls.WholeCalls cap0 cpl)
    (taken : s.step (.enqueue t) = some s') : s.admin.FreshCid := by
  obtain ⟨cmd, admin, packed, moved, _⟩ := step_takes taken
  obtain ⟨gone, unseen, _⟩ := AdminSystem.enqueue_cases moved
  obtain ⟨low, retired, live⟩ := inv.live
  apply live.resting_fresh
  intro t'
  by_cases own : t' = t
  · exact own ▸ ⟨gone, unseen⟩
  · exact inv.lone whole packed t' own

theorem SerialInv.room (inv : SerialInv n s) (whole : s.toCalls.WholeCalls cap0 cpl) {k : Nat}
    {cpl' : Cpl} (taken : s.step (.post t k cpl') = some s') : s.admin.CqRoom := by
  obtain ⟨h, cmd, admin, mine, flying, _, _⟩ := step_takes taken
  obtain ⟨low, retired, live⟩ := inv.live
  exact live.lone_room mine (AdminSystem.AdminInv.unanswered live.adm.device flying)
    (inv.lone whole (inv.rings.held t h mine))

theorem SerialInv.step (positive : 0 < n) (small : n ≤ 4096) (inv : SerialInv n s)
    (seq : s.toCalls.Sequential cap0 cpl) {e : RingedEvent ι} (taken : s.step e = some s') :
    SerialInv n s' ∧
      match s.image e with
      | none => s'.toCalls = s.toCalls
      | some d => s.toCalls.step d = some s'.toCalls := by
  have fresh : ∀ t, e = .enqueue t → s.admin.FreshCid := by
    rintro t rfl
    exact inv.fresh seq.whole taken
  have room : ∀ t k cpl, e = .post t k cpl → s.admin.CqRoom := by
    rintro t k cpl rfl
    exact inv.room seq.whole taken
  obtain ⟨rings, performed⟩ := inv.rings.step positive small seq.pairs fresh taken
  exact ⟨⟨rings, live_step positive small inv.live fresh room taken⟩, performed⟩

theorem serial_inv (reached : Reachable (pacedMachine ι cap0 cpl) oneAtATime s) :
    SerialInv (initQueueSize cap0) s ∧
      Reachable (QpSystem.machine ι cap0 cpl) QpSystem.oneAtATime s.toCalls := by
  obtain ⟨positive, small⟩ := initQueueSize_bounds cap0
  refine reached.refines (A := QpSystem.machine ι cap0 cpl) (SerialInv (initQueueSize cap0)) toCalls
    image ?_ ?_
  · rintro s ⟨initial, rings⟩
    obtain ⟨kept, calls⟩ := RingedInv.start initial
    exact ⟨⟨kept, AdminSystem.live_inv positive small rings⟩, calls⟩
  · intro s e s' inv abstract permitted taken
    obtain ⟨kept, performed⟩ := inv.step positive small (QpSystem.sequential abstract) taken
    refine ⟨kept, ?_⟩
    cases event : s.image e with
    | none =>
        rw [event] at performed
        exact performed
    | some d =>
        rw [event] at performed
        exact ⟨oneAtATime_image permitted event, performed⟩

/-- The same over the rings, whatever the order of submissions, retries, fetches and
completions, and whatever status each command gets: the tables are what whole calls leave, up
to the executed commands of the call in progress. A call that is alone needs no fresh CID and no
room in the completion ring to be assumed: it finds both. -/
theorem calls_one_at_a_time_on_rings (cap0 : Dword) (cpl : Cpl) (s : RingedSystem ι)
    (reached : Reachable (pacedMachine ι cap0 cpl) oneAtATime s) :
    s.toCalls.WholeCalls cap0 cpl ∧
      (s.qp.Quiet → Reachable (PairCall.machine cap0 cpl) anyEvent s.qp.io) := by
  have whole := (QpSystem.sequential (serial_inv reached).2).whole
  exact ⟨whole, fun quiet => whole.returned fun t => (s.toCalls_none t).mpr (quiet t)⟩

theorem calls_one_at_a_time_on_rings_single :
    ∃ s : RingedSystem Unit, s.qp.hist.cleared = 1 ∧
      Reachable (PairCall.machine 1#32 Cpl.zero) anyEvent s.qp.io := by
  have begins : Reachable (pacedMachine Unit 1#32 Cpl.zero) oneAtATime twoSlots :=
    .start ⟨twoSlots_init, .start (AdminSystem.machine_init _ _)⟩
  have ended : ((pacedMachine Unit 1#32 Cpl.zero).runAllowed oneAtATime twoSlots
      (createEvents () ++ deleteEvents ())).map (fun s => (s.qp.hist.cleared, s.qp.call ())) =
      some (1, none) := by
    decide +kernel
  obtain ⟨s, ran, facts⟩ := Option.map_eq_some_iff.mp ended
  obtain ⟨cleared, idle⟩ := Prod.mk.inj facts
  exact ⟨s, cleared, (calls_one_at_a_time_on_rings 1#32 Cpl.zero s
    (begins.extendAllowed _ ran)).2 fun _ => idle⟩

end RingedSystem

end BafsNvme
