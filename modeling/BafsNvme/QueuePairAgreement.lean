import BafsNvme.QueuePairTeardown

/-! The slot table of the driver against the queue tables of a controller that checks its
commands, for clients that delete each pair once and after its create has returned. -/

namespace BafsNvme

open Machine

namespace QpCall

def cqStands : QpCall → Bool
  | create _ _ .cqCreated | create _ _ .sqReady | create _ _ .sqCreated => true
  | delete _ _ .entered | delete _ _ .tested | delete _ _ .sqDeleted => true
  | _ => false

def sqStands : QpCall → Bool
  | create _ _ .sqCreated => true
  | delete _ _ .entered | delete _ _ .tested => true
  | _ => false

end QpCall

def deleteIndex : Option QpCall → Option Nat
  | some (.delete i _ _) => some i
  | _ => none

/-- The limits behind CAP and the completion of Set Features. -/
def grantedLimits (cap0 : Dword) (cpl : Cpl) : IoLimits where
  mqes := mqes cap0
  ncqa := (cpl.dword 0 >>> 16).toNat
  nsqa := (cpl.dword 0 &&& 0x0000ffff#32).toNat

def grants (ncqa nsqa : Nat) : Cpl := ⟨Function.update (fun _ => 0#32) 0 (packDword ncqa nsqa)⟩

def SlotHolds (s : IoState) (i : Nat) (cq sq : Bool) : Prop :=
  s.ctl.cqs (i + 1) = (if cq then some ⟨s.aqp.cqDmaAddrs i, s.aqp.ioQueueSize⟩ else none) ∧
    s.ctl.sqs (i + 1) =
      (if sq then some ⟨s.aqp.sqDmaAddrs i, s.aqp.ioQueueSize, i + 1⟩ else none)

structure SameSlot (s s' : IoState) (i : Nat) : Prop where
  cqs : s'.ctl.cqs (i + 1) = s.ctl.cqs (i + 1)
  sqs : s'.ctl.sqs (i + 1) = s.ctl.sqs (i + 1)
  cqAddr : s'.aqp.cqDmaAddrs i = s.aqp.cqDmaAddrs i
  sqAddr : s'.aqp.sqDmaAddrs i = s.aqp.sqDmaAddrs i
  size : s'.aqp.ioQueueSize = s.aqp.ioQueueSize

theorem SlotHolds.same {s s' : IoState} {i : Nat} {cq sq : Bool} (holds : SlotHolds s i cq sq)
    (same : SameSlot s s' i) : SlotHolds s' i cq sq := by
  unfold SlotHolds
  rw [same.cqs, same.sqs, same.cqAddr, same.sqAddr, same.size]
  exact holds

def QpAction.command (s : IoState) : QpAction → Option (Cmd × Nat)
  | crtIoCq i _ status => some (crtIoCqCmd (s.aqp.cqDmaAddrs i) s.aqp.ioQueueSize i, status)
  | crtIoSq i _ status => some (crtIoSqCmd (s.aqp.sqDmaAddrs i) s.aqp.ioQueueSize i, status)
  | delIoSq i _ status => some (delIoSqCmd i, status)
  | delIoCq i _ status => some (delIoCqCmd i, status)
  | _ => none

def QpAction.enters : QpAction → Option Nat
  | enter i => some i
  | _ => none

namespace QpSystem

variable {ι : Type} [DecidableEq ι]

/-- The controller answers by its rules, and a delete is called for a pair that its create
has returned and that no delete has been called for. -/
structure Orderly (limits : IoLimits) (s : QpSystem ι) (e : QpEvent ι) : Prop where
  answers : ∀ cmd status, e.action.command s.io = some (cmd, status) →
    (status = 0 ↔ s.io.ctl.Accepts limits cmd)
  returned : ∀ i, e.action = .enter i → s.hist.place (s.hist.owner i) = some i ∧
    s.hist.built (s.hist.owner i) = true ∧
      ∀ t delQp point, s.call t ≠ some (.delete i delQp point)

def TablesAgree (n : Nat) (s : IoState) : Prop :=
  (∀ i, i < n → s.aqp.queueUseMark i = true →
      s.ctl.cqs (i + 1) = some ⟨s.aqp.cqDmaAddrs i, s.aqp.ioQueueSize⟩ ∧
        s.ctl.sqs (i + 1) = some ⟨s.aqp.sqDmaAddrs i, s.aqp.ioQueueSize, i + 1⟩) ∧
    (∀ i, i < n → s.aqp.queueUseMark i = false →
      s.ctl.cqs (i + 1) = none ∧ s.ctl.sqs (i + 1) = none) ∧
    ∀ q, (∀ i, i < n → q ≠ i + 1) → s.ctl.cqs q = none ∧ s.ctl.sqs q = none

structure Agrees (n : Nat) (s : QpSystem ι) : Prop where
  free : ∀ i, i < n → s.io.aqp.queueUseMark i = false → SlotHolds s.io i false false
  worked : ∀ t c i, s.call t = some c → slotOf (some c) = some i →
    SlotHolds s.io i c.cqStands c.sqStands
  standing : ∀ i, i < n → s.io.aqp.queueUseMark i = true →
    (∀ t, slotOf (s.call t) ≠ some i) → SlotHolds s.io i true true
  outside : ∀ q, (∀ i, i < n → q ≠ i + 1) → s.io.ctl.cqs q = none ∧ s.io.ctl.sqs q = none

variable {n : Nat} {s : QpSystem ι} {t : ι}

/-- An action on slot `i`: the other slots keep their entries, and `i` gets what its new
place in the work calls for. -/
theorem Agrees.move (agrees : Agrees n s) {a : QpAction} {i : Nat} (here : s.call t = a.before)
    (bound : i < n) (alone : ∀ t', t' ≠ t → slotOf (s.call t') ≠ some i)
    (from_slot : ∀ j, slotOf a.before = some j → j = i)
    (to_slot : ∀ j, slotOf (a.after s.io) = some j → j = i)
    (others : ∀ j, j ≠ i → SameSlot s.io (a.effect s.io) j)
    (marks : ∀ j, j ≠ i → (a.effect s.io).aqp.queueUseMark j = s.io.aqp.queueUseMark j)
    (tables : ∀ q, q ≠ i + 1 → (a.effect s.io).ctl.cqs q = s.io.ctl.cqs q ∧
      (a.effect s.io).ctl.sqs q = s.io.ctl.sqs q)
    (free : (a.effect s.io).aqp.queueUseMark i = false → SlotHolds (a.effect s.io) i false false)
    (worked : ∀ c, a.after s.io = some c → slotOf (some c) = some i →
      SlotHolds (a.effect s.io) i c.cqStands c.sqStands)
    (standing : (a.effect s.io).aqp.queueUseMark i = true → slotOf (a.after s.io) ≠ some i →
      SlotHolds (a.effect s.io) i true true) : Agrees n (s.next ⟨t, a⟩) := by
  have mine : (s.next ⟨t, a⟩).call t = a.after s.io := next_same s ⟨t, a⟩
  constructor
  · intro j below clear
    by_cases same : j = i
    · subst same
      exact free clear
    · have clear' : s.io.aqp.queueUseMark j = false := (marks j same).symm.trans clear
      exact (agrees.free j below clear').same (others j same)
  · intro t' c j now slot
    rcases call_next now with ⟨_, now⟩ | ⟨other, now⟩
    · obtain rfl := to_slot j (by rw [now]; exact slot)
      exact worked c now slot
    · by_cases same : j = i
      · subst same
        exact absurd (now ▸ slot) (alone t' other)
      · exact (agrees.worked t' c j now slot).same (others j same)
  · intro j below marked nobody
    by_cases same : j = i
    · subst same
      exact standing marked (by rw [← mine]; exact nobody t)
    · apply SlotHolds.same (agrees.standing j below ((marks j same).symm.trans marked) _)
        (others j same)
      intro t' there
      by_cases me : t' = t
      · rw [me, here] at there
        exact same (from_slot j there)
      · exact nobody t' (by rw [next_other (e := ⟨t, a⟩) me]; exact there)
  · intro q far
    obtain ⟨cqs, sqs⟩ := tables q (far i bound)
    obtain ⟨noCq, noSq⟩ := agrees.outside q far
    exact ⟨cqs.trans noCq, sqs.trans noSq⟩

theorem Agrees.still (agrees : Agrees n s) {a : QpAction} (here : s.call t = a.before)
    (before : slotOf a.before = none) (after : slotOf (a.after s.io) = none)
    (same : ∀ j, SameSlot s.io (a.effect s.io) j)
    (marks : (a.effect s.io).aqp.queueUseMark = s.io.aqp.queueUseMark)
    (tables : (a.effect s.io).ctl = s.io.ctl) : Agrees n (s.next ⟨t, a⟩) := by
  have mine : (s.next ⟨t, a⟩).call t = a.after s.io := next_same s ⟨t, a⟩
  constructor
  · intro j below clear
    simp only [next, marks] at clear
    exact (agrees.free j below clear).same (same j)
  · intro t' c j now slot
    rcases call_next now with ⟨_, now⟩ | ⟨_, now⟩
    · rw [now, slot] at after
      cases after
    · exact (agrees.worked t' c j now slot).same (same j)
  · intro j below marked nobody
    simp only [next, marks] at marked
    apply SlotHolds.same (agrees.standing j below marked _) (same j)
    intro t' there
    by_cases me : t' = t
    · rw [me, here, before] at there
      cases there
    · exact nobody t' (by rw [next_other (e := ⟨t, a⟩) me]; exact there)
  · simp only [next, tables]
    exact agrees.outside

structure Granted (limits : IoLimits) (n : Nat) (s : QpSystem ι) : Prop where
  supported : s.io.aqp.numIoQueuePairsSupported = n
  small : n < 2 ^ 16
  cqRoom : n ≤ limits.ncqa + 1
  sqRoom : n ≤ limits.nsqa + 1
  positive : 0 < s.io.aqp.ioQueueSize
  size : s.io.aqp.ioQueueSize ≤ 4096
  within : s.io.aqp.ioQueueSize - 1 ≤ limits.mqes

structure AgreeInv (limits : IoLimits) (n : Nat) (s : QpSystem ι) : Prop where
  granted : Granted limits n s
  pairs : PairInv s
  agrees : Agrees n s
  bounded : ∀ i, s.io.aqp.queueUseMark i = true → i < n
  called : ∀ t i delQp, s.call t = some (.delete i delQp .entered) →
    s.io.aqp.queueUseMark i = true ∧ s.hist.built (s.hist.owner i) = true ∧
      s.io.aqp.ioQpList i = delQp
  once : ∀ t t' i, deleteIndex (s.call t) = some i → deleteIndex (s.call t') = some i → t = t'
  accepted : ∀ status ∈ s.hist.statuses, status = 0

theorem Agrees.onSlot (agrees : Agrees n s) (pairs : PairInv s)
    (bounded : ∀ i, s.io.aqp.queueUseMark i = true → i < n) {a : QpAction} {i : Nat}
    {c c' : QpCall} (here : s.call t = a.before) (before : a.before = some c)
    (after : a.after s.io = some c') (slot : slotOf (some c) = some i)
    (slot' : slotOf (some c') = some i) (others : ∀ j, j ≠ i → SameSlot s.io (a.effect s.io) j)
    (marks : (a.effect s.io).aqp.queueUseMark = s.io.aqp.queueUseMark)
    (tables : ∀ q, q ≠ i + 1 → (a.effect s.io).ctl.cqs q = s.io.ctl.cqs q ∧
      (a.effect s.io).ctl.sqs q = s.io.ctl.sqs q)
    (holds : SlotHolds (a.effect s.io) i c'.cqStands c'.sqStands) : Agrees n (s.next ⟨t, a⟩) := by
  have mine : slotOf (s.call t) = some i := by rw [here, before, slot]
  have marked := pairs.slot_marked mine
  apply agrees.move here (bounded i marked) _ _ _ others _ tables
  · intro clear
    rw [marks, marked] at clear
    cases clear
  · intro c'' now _
    rw [after, Option.some.injEq] at now
    exact now ▸ holds
  · intro _ elsewhere
    rw [after, slot'] at elsewhere
    exact absurd rfl elsewhere
  · intro t' other there
    exact other (pairs.alone t' t i there mine)
  · intro j there
    rw [before, slot, Option.some.injEq] at there
    exact there.symm
  · intro j there
    rw [after, slot', Option.some.injEq] at there
    exact there.symm
  · intro j _
    rw [marks]

variable {limits : IoLimits}

omit [DecidableEq ι] in
theorem AgreeInv.slot (inv : AgreeInv limits n s) {i : Nat}
    (there : slotOf (s.call t) = some i) : i < n ∧ i + 1 < 2 ^ 16 := by
  have below := inv.bounded i (inv.pairs.slot_marked there)
  have small := inv.granted.small
  omega

omit [DecidableEq ι] in
theorem AgreeInv.bound_to (inv : AgreeInv limits n s) {q : Nat} {sq : IoSq}
    (held : s.io.ctl.sqs q = some sq) : sq.cqid = q := by
  by_cases inside : ∃ i, i < n ∧ q = i + 1
  · obtain ⟨i, below, rfl⟩ := inside
    have entry : ∀ cqs sqs, SlotHolds s.io i cqs sqs → sq.cqid = i + 1 := by
      intro cqs sqs holds
      rw [holds.2] at held
      split at held
      · exact (Option.some.inj held) ▸ rfl
      · cases held
    cases marked : s.io.aqp.queueUseMark i with
    | false => exact entry _ _ (inv.agrees.free i below marked)
    | true =>
        by_cases nobody : ∀ t, slotOf (s.call t) ≠ some i
        · exact entry _ _ (inv.agrees.standing i below marked nobody)
        · push Not at nobody
          obtain ⟨t, there⟩ := nobody
          cases now : s.call t with
          | none =>
              rw [now] at there
              cases there
          | some c => exact entry _ _ (inv.agrees.worked t c i now (now ▸ there))
  · push Not at inside
    rw [(inv.agrees.outside q inside).2] at held
    cases held

omit [DecidableEq ι] in
theorem AgreeInv.accepts (inv : AgreeInv limits n s) {a : QpAction} (here : s.call t = a.before)
    {cmd : Cmd} {status : Nat} (submits : a.command s.io = some (cmd, status)) :
    s.io.ctl.Accepts limits cmd := by
  have within := inv.granted.within
  have size := inv.granted.size
  have cqRoom := inv.granted.cqRoom
  have sqRoom := inv.granted.sqRoom
  cases a with
  | crtIoCq i newQp status' =>
      obtain ⟨rfl, rfl⟩ := Prod.mk.inj (Option.some.inj submits)
      obtain ⟨below, slot⟩ := inv.slot (by rw [here]; rfl)
      rw [IoController.accepts_crtIoCq size slot]
      exact ⟨by omega, (inv.agrees.worked t _ i here rfl).1, within⟩
  | crtIoSq i newQp status' =>
      obtain ⟨rfl, rfl⟩ := Prod.mk.inj (Option.some.inj submits)
      obtain ⟨below, slot⟩ := inv.slot (by rw [here]; rfl)
      obtain ⟨cq, sq⟩ := inv.agrees.worked t _ i here rfl
      rw [IoController.accepts_crtIoSq size slot]
      exact ⟨by omega, sq, within, by rw [cq]; rfl⟩
  | delIoSq i delQp status' =>
      obtain ⟨rfl, rfl⟩ := Prod.mk.inj (Option.some.inj submits)
      obtain ⟨_, slot⟩ := inv.slot (by rw [here]; rfl)
      rw [IoController.accepts_delIoSq slot, (inv.agrees.worked t _ i here rfl).2]
      rfl
  | delIoCq i delQp status' =>
      obtain ⟨rfl, rfl⟩ := Prod.mk.inj (Option.some.inj submits)
      obtain ⟨_, slot⟩ := inv.slot (by rw [here]; rfl)
      obtain ⟨cq, sq⟩ := inv.agrees.worked t _ i here rfl
      rw [IoController.accepts_delIoCq slot]
      refine ⟨by rw [cq]; rfl, ?_⟩
      intro q other held attached
      have bound := inv.bound_to held
      rw [← bound, attached, sq] at held
      cases held
  | _ => cases submits

omit [DecidableEq ι] in
theorem AgreeInv.succeeds (inv : AgreeInv limits n s) {a : QpAction} (here : s.call t = a.before)
    (permitted : s.Orderly limits ⟨t, a⟩) {cmd : Cmd} {status : Nat}
    (submits : a.command s.io = some (cmd, status)) : status = 0 :=
  (permitted.answers cmd status submits).mpr (inv.accepts here submits)

omit [DecidableEq ι] in
/-- A delete that has been called but has not looked at the mark finds a standing pair. -/
theorem AgreeInv.nobody_works (inv : AgreeInv limits n s) {i : Nat} {delQp : Option Nat}
    (here : s.call t = some (.delete i delQp .entered)) : ∀ t', slotOf (s.call t') ≠ some i := by
  intro t' there
  obtain ⟨_, standing, _⟩ := inv.called t i delQp here
  cases now : s.call t' with
  | none =>
      rw [now] at there
      cases there
  | some c =>
      cases c with
      | create j newQp point =>
          rw [now, slotOf, Option.some.injEq] at there
          subst there
          obtain ⟨_, owned, unbuilt, _⟩ := inv.pairs.creating t' j newQp point now
          rw [owned, unbuilt] at standing
          cases standing
      | delete j delQp' point =>
          by_cases found : point = .entered
          · rw [now, found] at there
            cases there
          · rw [now, slotOf_delete found, Option.some.injEq] at there
            subst there
            obtain rfl := inv.once t t' j (by rw [here]; rfl) (by rw [now]; rfl)
            rw [here, Option.some.injEq, QpCall.delete.injEq] at now
            exact found now.2.2.symm

omit [DecidableEq ι] in
theorem AgreeInv.finds (inv : AgreeInv limits n s) {a : QpAction} (here : s.call t = a.before) :
    s.findsStanding ⟨t, a⟩ := by
  cases a with
  | test i delQp =>
      intro _
      obtain ⟨_, standing, pointer⟩ := inv.called t i delQp here
      refine ⟨standing, pointer, ?_⟩
      intro t' there
      apply inv.nobody_works here t'
      cases now : s.call t' with
      | none =>
          rw [now] at there
          cases there
      | some c =>
          cases c with
          | create j newQp point =>
              rw [now] at there
              cases there
          | delete j delQp' point =>
              rw [now] at there
              exact there
  | _ => trivial

theorem AgreeInv.agrees_reserve (inv : AgreeInv limits n s) (here : s.call t = none) :
    Agrees n (s.next ⟨t, .reserve⟩) := by
  rcases s.io.reserve_cases with ⟨used, refused⟩ | ⟨i, used, bound, free, reserved⟩
  · apply inv.agrees.still here rfl <;> simp only [QpAction.effect, QpAction.after, refused]
    · rfl
    · exact fun _ => ⟨rfl, rfl, rfl, rfl, rfl⟩
  · have after : QpAction.reserve.after s.io = some (.create i s.io.blocks .reserved) := by
      simp [QpAction.after, reserved]
    have effect : QpAction.reserve.effect s.io = { s.io with
        blocks := s.io.blocks + 1
        aqp := { s.io.aqp with
          numIoQueuePairsUsed := used
          queueUseMark := Function.update s.io.aqp.queueUseMark i true } } := by
      simp [QpAction.effect, reserved]
    rw [inv.granted.supported] at bound
    have holds := inv.agrees.free i bound free
    have nobody : ∀ t', slotOf (s.call t') ≠ some i := by
      intro t' there
      rw [inv.pairs.slot_marked there] at free
      cases free
    apply inv.agrees.move here bound (fun t' _ => nobody t')
    · intro j there
      cases there
    · intro j there
      rw [after, slotOf, Option.some.injEq] at there
      exact there.symm
    all_goals rw [effect]
    · exact fun _ _ => ⟨rfl, rfl, rfl, rfl, rfl⟩
    · exact fun j other => Function.update_of_ne other ..
    · exact fun _ _ => ⟨rfl, rfl⟩
    · intro clear
      have clear' : Function.update s.io.aqp.queueUseMark i true i = false := clear
      rw [Function.update_self] at clear'
      cases clear'
    · intro c now _
      rw [after, Option.some.injEq] at now
      subst now
      exact holds.same ⟨rfl, rfl, rfl, rfl, rfl⟩
    · intro _ elsewhere
      rw [after] at elsewhere
      exact absurd rfl elsewhere

theorem AgreeInv.agrees_plain (inv : AgreeInv limits n s) {a : QpAction} {i : Nat}
    {c c' : QpCall} (here : s.call t = a.before) (before : a.before = some c)
    (after : a.after s.io = some c') (slot : slotOf (some c) = some i)
    (slot' : slotOf (some c') = some i) (same : ∀ j, SameSlot s.io (a.effect s.io) j)
    (marks : (a.effect s.io).aqp.queueUseMark = s.io.aqp.queueUseMark)
    (tables : (a.effect s.io).ctl = s.io.ctl)
    (stands : c'.cqStands = c.cqStands ∧ c'.sqStands = c.sqStands) :
    Agrees n (s.next ⟨t, a⟩) := by
  apply inv.agrees.onSlot inv.pairs inv.bounded here before after slot slot' (fun j _ => same j) marks
  · intro q _
    rw [tables]
    exact ⟨rfl, rfl⟩
  · have holds := inv.agrees.worked t c i (here.trans before) slot
    rw [stands.1, stands.2]
    exact holds.same (same i)

theorem AgreeInv.agrees_command (inv : AgreeInv limits n s) {a : QpAction} {i : Nat}
    {c c' : QpCall} (here : s.call t = a.before) (before : a.before = some c)
    (after : a.after s.io = some c') (slot : slotOf (some c) = some i)
    (slot' : slotOf (some c') = some i) {ctl : IoController}
    (effect : a.effect s.io = { s.io with ctl := ctl })
    (tables : ∀ q, q ≠ i + 1 → ctl.cqs q = s.io.ctl.cqs q ∧ ctl.sqs q = s.io.ctl.sqs q)
    (holds : SlotHolds { s.io with ctl := ctl } i c'.cqStands c'.sqStands) :
    Agrees n (s.next ⟨t, a⟩) := by
  apply inv.agrees.onSlot inv.pairs inv.bounded here before after slot slot'
  all_goals rw [effect]
  · intro j other
    obtain ⟨cqs, sqs⟩ := tables (j + 1) (by omega)
    exact ⟨cqs, sqs, rfl, rfl, rfl⟩
  · exact tables
  · exact holds

theorem controller_congr (s : IoState) {ctl ctl' : IoController} (same : ctl = ctl') :
    { s with ctl := ctl } = { s with ctl := ctl' } := by
  rw [same]

theorem AgreeInv.agrees_finishPair (inv : AgreeInv limits n s) {i newQp : Nat}
    (here : s.call t = some (.create i newQp .sqCreated)) :
    Agrees n (s.next ⟨t, .finishPair i newQp⟩) := by
  have mine : slotOf (s.call t) = some i := by rw [here]; rfl
  apply inv.agrees.move here (inv.slot mine).1
  · exact fun t' other there => other (inv.pairs.alone t' t i there mine)
  · exact fun j there => (Option.some.inj there).symm
  · intro j there
    cases there
  · exact fun _ _ => ⟨rfl, rfl, rfl, rfl, rfl⟩
  · exact fun _ _ => rfl
  · exact fun _ _ => ⟨rfl, rfl⟩
  · intro clear
    have marked := inv.pairs.slot_marked mine
    exact absurd (clear.symm.trans marked) (by decide)
  · intro c now
    cases now
  · exact fun _ _ => (inv.agrees.worked t _ i here rfl).same ⟨rfl, rfl, rfl, rfl, rfl⟩

theorem AgreeInv.agrees_test (inv : AgreeInv limits n s) {i : Nat} {delQp : Option Nat}
    (here : s.call t = some (.delete i delQp .entered)) :
    Agrees n (s.next ⟨t, .test i delQp⟩) := by
  obtain ⟨marked, _, _⟩ := inv.called t i delQp here
  have nobody := inv.nobody_works here
  have after : (QpAction.test i delQp).after s.io = some (.delete i delQp .tested) := by
    simp [QpAction.after, marked]
  have holds := inv.agrees.standing i (inv.bounded i marked) marked nobody
  apply inv.agrees.move here (inv.bounded i marked) (fun t' _ => nobody t')
  · intro j there
    cases there
  · intro j there
    rw [after, slotOf_delete (by decide), Option.some.injEq] at there
    exact there.symm
  · exact fun _ _ => ⟨rfl, rfl, rfl, rfl, rfl⟩
  · exact fun _ _ => rfl
  · exact fun _ _ => ⟨rfl, rfl⟩
  · exact fun clear => absurd (clear.symm.trans marked) (by decide)
  · intro c now _
    rw [after, Option.some.injEq] at now
    exact now ▸ holds
  · exact fun _ _ => holds

theorem AgreeInv.agrees_clearMark (inv : AgreeInv limits n s) {i delQp : Nat}
    (here : s.call t = some (.delete i (some delQp) .pairFreed)) :
    Agrees n (s.next ⟨t, .clearMark i delQp⟩) := by
  have mine : slotOf (s.call t) = some i := by rw [here]; rfl
  apply inv.agrees.move here (inv.slot mine).1
  · exact fun t' other there => other (inv.pairs.alone t' t i there mine)
  · exact fun j there => (Option.some.inj there).symm
  · intro j there
    cases there
  · exact fun _ _ => ⟨rfl, rfl, rfl, rfl, rfl⟩
  · exact fun j other => Function.update_of_ne other ..
  · exact fun _ _ => ⟨rfl, rfl⟩
  · exact fun _ => (inv.agrees.worked t _ i here rfl).same ⟨rfl, rfl, rfl, rfl, rfl⟩
  · intro c now
    cases now
  · intro marked
    have off : Function.update s.io.aqp.queueUseMark i false i = true := marked
    rw [Function.update_self] at off
    cases off

theorem AgreeInv.agrees_step (inv : AgreeInv limits n s) {a : QpAction}
    (here : s.call t = a.before) (permitted : s.Orderly limits ⟨t, a⟩) :
    Agrees n (s.next ⟨t, a⟩) := by
  have positive := inv.granted.positive
  have size := inv.granted.size
  cases a with
  | reserve => exact inv.agrees_reserve here
  | allocPair i newQp =>
      exact inv.agrees_plain here rfl rfl rfl rfl (fun _ => ⟨rfl, rfl, rfl, rfl, rfl⟩) rfl rfl
        ⟨rfl, rfl⟩
  | allocCq i newQp addr =>
      apply inv.agrees.onSlot inv.pairs inv.bounded here rfl rfl rfl rfl
      · exact fun j other => ⟨rfl, rfl, Function.update_of_ne other .., rfl, rfl⟩
      · rfl
      · exact fun _ _ => ⟨rfl, rfl⟩
      · exact inv.agrees.worked t (.create i newQp .listed) i here rfl
  | allocSq i newQp addr =>
      apply inv.agrees.onSlot inv.pairs inv.bounded here rfl rfl rfl rfl
      · exact fun j other => ⟨rfl, rfl, rfl, Function.update_of_ne other .., rfl⟩
      · rfl
      · exact fun _ _ => ⟨rfl, rfl⟩
      · exact inv.agrees.worked t (.create i newQp .cqCreated) i here rfl
  | crtIoCq i newQp status =>
      obtain rfl := inv.succeeds here permitted rfl
      obtain ⟨_, slot⟩ := inv.slot (by rw [here]; rfl)
      obtain ⟨_, sq⟩ := inv.agrees.worked t _ i here rfl
      apply inv.agrees_command here rfl rfl rfl rfl
        (controller_congr s.io (IoController.execute_crtIoCq positive size slot))
      · exact fun q other => ⟨Function.update_of_ne other .., rfl⟩
      · exact ⟨Function.update_self .., sq⟩
  | crtIoSq i newQp status =>
      obtain rfl := inv.succeeds here permitted rfl
      obtain ⟨_, slot⟩ := inv.slot (by rw [here]; rfl)
      obtain ⟨cq, _⟩ := inv.agrees.worked t _ i here rfl
      apply inv.agrees_command here rfl rfl rfl rfl
        (controller_congr s.io (IoController.execute_crtIoSq positive size slot))
      · exact fun q other => ⟨rfl, Function.update_of_ne other ..⟩
      · exact ⟨cq, Function.update_self ..⟩
  | delIoSq i delQp status =>
      obtain rfl := inv.succeeds here permitted rfl
      obtain ⟨_, slot⟩ := inv.slot (by rw [here]; rfl)
      obtain ⟨cq, _⟩ := inv.agrees.worked t _ i here rfl
      apply inv.agrees_command here rfl rfl rfl rfl
        (controller_congr s.io (IoController.execute_delIoSq slot))
      · exact fun q other => ⟨rfl, Function.update_of_ne other ..⟩
      · exact ⟨cq, Function.update_self ..⟩
  | delIoCq i delQp status =>
      obtain rfl := inv.succeeds here permitted rfl
      obtain ⟨_, slot⟩ := inv.slot (by rw [here]; rfl)
      obtain ⟨_, sq⟩ := inv.agrees.worked t _ i here rfl
      apply inv.agrees_command here rfl rfl rfl rfl
        (controller_congr s.io (IoController.execute_delIoCq slot))
      · exact fun q other => ⟨Function.update_of_ne other .., rfl⟩
      · exact ⟨Function.update_self .., sq⟩
  | finishPair i newQp => exact inv.agrees_finishPair here
  | enter i =>
      exact inv.agrees.still here rfl rfl (fun _ => ⟨rfl, rfl, rfl, rfl, rfl⟩) rfl rfl
  | test i delQp => exact inv.agrees_test here
  | freeCq i delQp =>
      exact inv.agrees_plain here rfl rfl rfl rfl (fun _ => ⟨rfl, rfl, rfl, rfl, rfl⟩) rfl rfl
        ⟨rfl, rfl⟩
  | freeSq i delQp =>
      exact inv.agrees_plain here rfl rfl rfl rfl (fun _ => ⟨rfl, rfl, rfl, rfl, rfl⟩) rfl rfl
        ⟨rfl, rfl⟩
  | freePair i delQp =>
      exact inv.agrees_plain here rfl rfl rfl rfl (fun _ => ⟨rfl, rfl, rfl, rfl, rfl⟩) rfl rfl
        ⟨rfl, rfl⟩
  | clearMark i delQp => exact inv.agrees_clearMark here

omit [DecidableEq ι] in
/-- What the calls on other indices rely on about a standing pair stays true. -/
theorem AgreeInv.stands_on (inv : AgreeInv limits n s) {a : QpAction} {i : Nat}
    (here : s.call t = a.before) (marked : s.io.aqp.queueUseMark i = true)
    (standing : s.hist.built (s.hist.owner i) = true)
    (other : deleteIndex (s.call t) ≠ some i) :
    (a.effect s.io).aqp.queueUseMark i = true ∧
      (s.hist.record s.io a).built ((s.hist.record s.io a).owner i) = true ∧
      (a.effect s.io).aqp.ioQpList i = s.io.aqp.ioQpList i := by
  cases a with
  | reserve =>
      rcases s.io.reserve_cases with ⟨used, taken⟩ | ⟨j, used, _, free, taken⟩
      · simp [QpAction.effect, QpHistory.record, taken, marked, standing]
      · have elsewhere : i ≠ j := by
          rintro rfl
          rw [marked] at free
          cases free
        simp [QpAction.effect, QpHistory.record, taken, marked, standing, elsewhere]
  | allocPair j newQp =>
      have elsewhere : i ≠ j := by
        rintro rfl
        obtain ⟨_, owned, unbuilt, _⟩ := inv.pairs.creating t i newQp _ here
        rw [owned, unbuilt] at standing
        cases standing
      exact ⟨marked, standing, Function.update_of_ne elsewhere ..⟩
  | finishPair j newQp =>
      refine ⟨marked, ?_, rfl⟩
      show Function.update s.hist.built newQp true (s.hist.owner i) = true
      by_cases same : s.hist.owner i = newQp
      · rw [same, Function.update_self]
      · rwa [Function.update_of_ne same]
  | test j delQp =>
      refine ⟨marked, ?_, rfl⟩
      cases set : s.io.aqp.queueUseMark j <;> simp [QpHistory.record, set, standing]
  | freePair j delQp =>
      refine ⟨marked, ?_, rfl⟩
      cases list : s.io.aqp.ioQpList j <;> simp [QpHistory.record, list, QpHistory.tear, standing]
  | clearMark j delQp =>
      have elsewhere : i ≠ j := by
        rintro rfl
        exact other (by rw [here]; rfl)
      exact ⟨(Function.update_of_ne elsewhere ..).trans marked, standing, rfl⟩
  | _ => exact ⟨marked, standing, rfl⟩

theorem record_statuses (h : QpHistory) (io : IoState) (a : QpAction) :
    (h.record io a).statuses = h.statuses ++ ((a.command io).map Prod.snd).toList := by
  cases a with
  | reserve =>
      rcases taken : io.reserve.1 with _ | ⟨i, newQp⟩ <;>
        simp [QpHistory.record, QpAction.command, taken]
  | test i delQp =>
      cases set : io.aqp.queueUseMark i <;> simp [QpHistory.record, QpAction.command, set]
  | freePair i delQp =>
      cases list : io.aqp.ioQpList i <;>
        simp [QpHistory.record, QpAction.command, list, QpHistory.tear]
  | _ => simp [QpHistory.record, QpAction.command, QpHistory.tear, QpHistory.status]

omit [DecidableEq ι] in
theorem effect_constants (io : IoState) (a : QpAction) :
    (a.effect io).aqp.numIoQueuePairsSupported = io.aqp.numIoQueuePairsSupported ∧
      (a.effect io).aqp.ioQueueSize = io.aqp.ioQueueSize := by
  cases a with
  | reserve =>
      rcases io.reserve_cases with ⟨used, taken⟩ | ⟨i, used, _, _, taken⟩ <;>
        simp [QpAction.effect, taken, AdminQueuePair.ioQueueSize]
  | _ => exact ⟨rfl, rfl⟩

omit [DecidableEq ι] in
theorem AgreeInv.marks_bounded (inv : AgreeInv limits n s) (a : QpAction) :
    ∀ i, (a.effect s.io).aqp.queueUseMark i = true → i < n := by
  cases a with
  | reserve =>
      rcases s.io.reserve_cases with ⟨used, taken⟩ | ⟨j, used, bound, _, taken⟩
      · simpa [QpAction.effect, taken] using inv.bounded
      · intro i marked
        rw [inv.granted.supported] at bound
        by_cases same : i = j
        · exact same ▸ bound
        · simp only [QpAction.effect, taken, Function.update_of_ne same] at marked
          exact inv.bounded i marked
  | clearMark j delQp =>
      intro i marked
      by_cases same : i = j
      · have off : Function.update s.io.aqp.queueUseMark j false i = true := marked
        rw [same, Function.update_self] at off
        cases off
      · exact inv.bounded i ((Function.update_of_ne same ..).symm.trans marked)
  | _ => exact inv.bounded

theorem deleteIndex_after {io : IoState} {a : QpAction} {i : Nat}
    (after : deleteIndex (a.after io) = some i) :
    deleteIndex a.before = some i ∨ a = .enter i := by
  cases a with
  | enter j => exact .inr (congrArg QpAction.enter (Option.some.inj after))
  | reserve =>
      rcases taken : io.reserve.1 with _ | ⟨j, newQp⟩ <;>
        simp [QpAction.after, taken, deleteIndex] at after
  | test j delQp =>
      cases set : io.aqp.queueUseMark j with
      | true =>
          simp only [QpAction.after, set, if_true] at after
          exact .inl after
      | false => simp [QpAction.after, set, deleteIndex] at after
  | delIoSq | delIoCq | freeCq | freeSq | freePair => exact .inl after
  | _ => cases after

theorem AgreeInv.step {e : QpEvent ι} {s' : QpSystem ι} (inv : AgreeInv limits n s)
    (permitted : s.Orderly limits e) (taken : s.step e = some s') : AgreeInv limits n s' := by
  obtain ⟨t, a⟩ := e
  have pairs := inv.pairs.step (inv.finds (step_cases taken).1) taken
  obtain ⟨here, _, rfl⟩ := step_cases taken
  obtain ⟨supported, size⟩ := effect_constants s.io a
  constructor
  · obtain ⟨supported', small, cqRoom, sqRoom, positive, size', within⟩ := inv.granted
    exact ⟨supported.trans supported', small, cqRoom, sqRoom, size ▸ positive, size ▸ size',
      size ▸ within⟩
  · exact pairs
  · exact inv.agrees_step here permitted
  · exact inv.marks_bounded a
  · intro t' i delQp now
    rcases call_next now with ⟨_, now⟩ | ⟨other, now⟩
    · have entered : a = .enter i := by
        cases a with
        | enter j =>
            simp only [QpAction.after, Option.some.injEq, QpCall.delete.injEq] at now
            exact congrArg QpAction.enter now.1
        | reserve =>
            rcases taken : s.io.reserve.1 with _ | ⟨j, newQp⟩ <;> simp [QpAction.after, taken] at now
        | test j delQp' =>
            cases set : s.io.aqp.queueUseMark j <;> simp [QpAction.after, set] at now
        | _ => simp [QpAction.after] at now
      subst entered
      obtain ⟨placed, standing, _⟩ := permitted.returned i rfl
      simp only [QpAction.after, Option.some.injEq, QpCall.delete.injEq] at now
      exact ⟨(inv.pairs.places _ i placed).1, standing, now.2.1⟩
    · obtain ⟨marked, standing, pointer⟩ := inv.called t' i delQp now
      obtain ⟨marked', standing', list⟩ := inv.stands_on here marked standing (by
        intro mine
        exact other (inv.once t' t i (by rw [now]; rfl) mine))
      exact ⟨marked', standing', list.trans pointer⟩
  · apply alone_next deleteIndex inv.once
    intro i after t' other there
    rcases deleteIndex_after after with before | entered
    · exact other (inv.once t' t i there (by rw [here]; exact before))
    · obtain ⟨_, _, nobody⟩ := permitted.returned i entered
      cases now : s.call t' with
      | none =>
          rw [now] at there
          cases there
      | some c =>
          cases c with
          | create j newQp point =>
              rw [now] at there
              cases there
          | delete j delQp point =>
              rw [now, deleteIndex, Option.some.injEq] at there
              exact nobody t' delQp point (there ▸ now)
  · intro status member
    simp only [next, record_statuses, List.mem_append] at member
    rcases member with earlier | now
    · exact inv.accepted status earlier
    · rcases submits : a.command s.io with _ | ⟨cmd, status'⟩
      · simp [submits] at now
      · simp only [submits, Option.map_some, Option.toList_some, List.mem_singleton] at now
        rw [now]
        exact inv.succeeds here permitted submits

theorem AgreeInv.start {cap0 : Dword} {cpl : Cpl} (cqs : (cpl.dword 0 >>> 16).toNat ≤ 65534)
    (sqs : (cpl.dword 0 >>> 16).toNat ≤ (cpl.dword 0 &&& 0x0000ffff#32).toNat)
    {s : QpSystem ι} (initial : (machine ι cap0 cpl).init s) :
    AgreeInv (grantedLimits cap0 cpl) (numQueuesSupported cpl) s := by
  have pairs := PairInv.start initial
  obtain ⟨dstrd, cqDb, sqDb, sqDmaAddrs, cqDmaAddrs, heap, dma, rfl⟩ := initial
  have largest : ((adminInitTables cap0 dstrd cqDb sqDb cpl sqDmaAddrs cqDmaAddrs).ioQueueSize) =
      min (mqes cap0 + 1) 4096 := by
    simp only [AdminQueuePair.ioQueueSize, adminInitTables, maxQueueSize_eq]
    split <;> omega
  constructor
  · constructor
    · rfl
    · simp only [numQueuesSupported]
      omega
    · simp only [numQueuesSupported, grantedLimits]
      omega
    · simp only [numQueuesSupported, grantedLimits]
      omega
    · simp only [QpSystem.start, largest]
      omega
    · simp only [QpSystem.start, largest]
      omega
    · simp only [QpSystem.start, largest, grantedLimits]
      omega
  · exact pairs
  · constructor
    · exact fun i _ _ => ⟨rfl, rfl⟩
    · intro t c i now
      cases now
    · intro i _ marked
      cases marked
    · exact fun q _ => ⟨rfl, rfl⟩
  · intro i marked
    cases marked
  · intro t i delQp now
    cases now
  · intro t t' i now
    cases now
  · intro status member
    cases member

theorem agree_inv {cap0 : Dword} {cpl : Cpl} (cqs : (cpl.dword 0 >>> 16).toNat ≤ 65534)
    (sqs : (cpl.dword 0 >>> 16).toNat ≤ (cpl.dword 0 &&& 0x0000ffff#32).toNat)
    (reached : Reachable (machine ι cap0 cpl) (Orderly (grantedLimits cap0 cpl)) s) :
    AgreeInv (grantedLimits cap0 cpl) (numQueuesSupported cpl) s :=
  reached.invariant (fun _ => AgreeInv.start cqs sqs)
    (fun _ _ _ inv permitted taken => inv.step permitted taken)

def succeeds (s : QpSystem ι) (e : QpEvent ι) : Prop :=
  (∀ c ∈ e.action.command s.io, c.2 = 0) ∧
    ∀ i ∈ e.action.enters, s.hist.place (s.hist.owner i) = some i ∧
      s.hist.built (s.hist.owner i) = true ∧ ∀ t, deleteIndex (s.call t) ≠ some i

instance [Fintype ι] (s : QpSystem ι) (e : QpEvent ι) : Decidable (s.succeeds e) :=
  inferInstanceAs (Decidable (_ ∧ _))

theorem orderly_extend [Fintype ι] {cap0 : Dword} {cpl : Cpl}
    (cqs : (cpl.dword 0 >>> 16).toNat ≤ 65534)
    (sqs : (cpl.dword 0 >>> 16).toNat ≤ (cpl.dword 0 &&& 0x0000ffff#32).toNat)
    (events : List (QpEvent ι)) {last : QpSystem ι}
    (reached : Reachable (machine ι cap0 cpl) (Orderly (grantedLimits cap0 cpl)) s)
    (ended : (machine ι cap0 cpl).runAllowed succeeds s events = some last) :
    Reachable (machine ι cap0 cpl) (Orderly (grantedLimits cap0 cpl)) last := by
  refine reached.leads ?_ (Leads.computed events ended)
  rintro s e s' reached ⟨success, returned⟩ taken
  constructor
  · intro cmd status submits
    have accepted := (agree_inv cqs sqs reached).accepts (step_cases taken).1 submits
    exact iff_of_true (success _ submits) accepted
  · intro i entered
    obtain ⟨placed, built, nobody⟩ := returned i (by rw [entered]; rfl)
    refine ⟨placed, built, fun t delQp point there => nobody t ?_⟩
    rw [there]
    rfl

/-- With at most 65534 completion queues granted (zero-based) and as many submission queues,
and a delete called once for each pair that was returned, the controller accepts every
command, no two pairs share a slot, and between calls both sides hold the same pairs. -/
theorem controller_agrees (cap0 : Dword) (cpl : Cpl)
    (cqs : (cpl.dword 0 >>> 16).toNat ≤ 65534)
    (sqs : (cpl.dword 0 >>> 16).toNat ≤ (cpl.dword 0 &&& 0x0000ffff#32).toNat)
    (s : QpSystem ι)
    (reached : Reachable (machine ι cap0 cpl) (Orderly (grantedLimits cap0 cpl)) s) :
    (∀ status ∈ s.hist.statuses, status = 0) ∧
      (∀ h h' i, s.hist.place h = some i → s.hist.place h' = some i → h = h') ∧
      (s.Quiet → TablesAgree s.io.aqp.numIoQueuePairsSupported s.io) := by
  have inv := agree_inv cqs sqs reached
  refine ⟨inv.accepted, ?_, ?_⟩
  · intro h h' i first second
    exact (inv.pairs.places h i first).2.symm.trans (inv.pairs.places h' i second).2
  · intro quiet
    rw [inv.granted.supported]
    refine ⟨?_, ?_, inv.agrees.outside⟩
    · intro i bound marked
      apply inv.agrees.standing i bound marked
      intro t there
      rw [quiet t] at there
      cases there
    · exact inv.agrees.free

def twoThreads : List (QpEvent Bool) :=
  [⟨true, .reserve⟩, ⟨false, .reserve⟩, ⟨false, .allocPair 1 1⟩, ⟨true, .allocPair 0 0⟩,
    ⟨true, .allocCq 0 0 0x1000⟩, ⟨false, .allocCq 1 1 0x2000⟩, ⟨false, .crtIoCq 1 1 0⟩,
    ⟨true, .crtIoCq 0 0 0⟩, ⟨true, .allocSq 0 0 0x3000⟩, ⟨true, .crtIoSq 0 0 0⟩,
    ⟨true, .finishPair 0 0⟩, ⟨true, .enter 0⟩, ⟨false, .allocSq 1 1 0x4000⟩,
    ⟨true, .test 0 (some 0)⟩, ⟨true, .delIoSq 0 (some 0) 0⟩, ⟨false, .crtIoSq 1 1 0⟩,
    ⟨true, .delIoCq 0 (some 0) 0⟩, ⟨true, .freeCq 0 0⟩, ⟨false, .finishPair 1 1⟩,
    ⟨true, .freeSq 0 0⟩, ⟨true, .freePair 0 0⟩, ⟨true, .clearMark 0 0⟩]

theorem controller_agrees_two_threads :
    ∃ s : QpSystem Bool,
      (machine Bool 1#32 (grants 1 1)).run (fresh 1#32 (grants 1 1)) twoThreads = some s ∧
      Reachable (machine Bool 1#32 (grants 1 1)) (Orderly (grantedLimits 1#32 (grants 1 1))) s ∧
      s.hist.statuses.length = 6 ∧ (∀ status ∈ s.hist.statuses, status = 0) ∧
      s.io.aqp.queueUseMark 0 = false ∧ s.io.aqp.queueUseMark 1 = true ∧ s.Quiet ∧
      TablesAgree s.io.aqp.numIoQueuePairsSupported s.io := by
  have cqs : ((grants 1 1).dword 0 >>> 16).toNat ≤ 65534 := by decide
  have sqs : ((grants 1 1).dword 0 >>> 16).toNat ≤
      ((grants 1 1).dword 0 &&& 0x0000ffff#32).toNat := by
    decide
  have ended : ((machine Bool 1#32 (grants 1 1)).runAllowed succeeds (fresh 1#32 (grants 1 1))
      twoThreads).map (fun s => (s.hist.statuses.length, s.io.aqp.queueUseMark 0,
        s.io.aqp.queueUseMark 1, s.call true, s.call false)) =
      some (6, false, true, none, none) := by
    decide +kernel
  obtain ⟨s, ran, facts⟩ := Option.map_eq_some_iff.mp ended
  simp only [Prod.mk.injEq] at facts
  obtain ⟨commands, deleted, created, first, second⟩ := facts
  have quiet : s.Quiet := fun t => by
    cases t with
    | true => exact first
    | false => exact second
  have reached := orderly_extend cqs sqs twoThreads (.start (fresh_init ..)) ran
  obtain ⟨statuses, _, agree⟩ := controller_agrees 1#32 (grants 1 1) cqs sqs s reached
  exact ⟨s, (runAllowed_meets ran).2, reached, commands, statuses, deleted, created, quiet,
    agree quiet⟩

end QpSystem

end BafsNvme
