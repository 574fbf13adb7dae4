import BafsNvme.CompletionInvariant
import BafsNvme.QueuePairAgreement

/-! The create and delete calls over the real admin rings. A call packs its command, enqueues
it, polls, and makes its two cleanups, while other calls and the device come in between; the
controller executes a command when it posts its completion. -/

namespace BafsNvme

open Machine

theorem crtIoCqCmd_cid (addr : BitVec 64) (qs i : Nat) : (crtIoCqCmd addr qs i).cid = 0 := by
  simp [crtIoCqCmd, Cmd.set, Cmd.cid, AdminCmdOpcode.code]

theorem crtIoSqCmd_cid (addr : BitVec 64) (qs i : Nat) : (crtIoSqCmd addr qs i).cid = 0 := by
  simp [crtIoSqCmd, Cmd.set, Cmd.cid, AdminCmdOpcode.code]

theorem delIoSqCmd_cid (i : Nat) : (delIoSqCmd i).cid = 0 := by
  simp [delIoSqCmd, Cmd.set, Cmd.cid, AdminCmdOpcode.code]

theorem delIoCqCmd_cid (i : Nat) : (delIoCqCmd i).cid = 0 := by
  simp [delIoCqCmd, Cmd.set, Cmd.cid, AdminCmdOpcode.code]

namespace QpCall

/-- `cmd_` as the call fills it in at this point, if it submits a command here. -/
def packs (s : IoState) : QpCall → Option FreshCmd
  | create i _ .cqReady =>
      some ⟨crtIoCqCmd (s.aqp.cqDmaAddrs i) s.aqp.ioQueueSize i, crtIoCqCmd_cid ..⟩
  | create i _ .sqReady =>
      some ⟨crtIoSqCmd (s.aqp.sqDmaAddrs i) s.aqp.ioQueueSize i, crtIoSqCmd_cid ..⟩
  | delete i _ .tested => some ⟨delIoSqCmd i, delIoSqCmd_cid i⟩
  | delete i _ .sqDeleted => some ⟨delIoCqCmd i, delIoCqCmd_cid i⟩
  | _ => none

def action (status : Nat) : QpCall → Option QpAction
  | create i newQp .cqReady => some (.crtIoCq i newQp status)
  | create i newQp .sqReady => some (.crtIoSq i newQp status)
  | delete i delQp .tested => some (.delIoSq i delQp status)
  | delete i delQp .sqDeleted => some (.delIoCq i delQp status)
  | _ => none

def resume : QpCall → QpCall
  | create i newQp .cqReady => create i newQp .cqCreated
  | create i newQp .sqReady => create i newQp .sqCreated
  | delete i delQp .tested => delete i delQp .sqDeleted
  | delete i delQp .sqDeleted => delete i delQp .cqDeleted
  | c => c

theorem packs_action {c : QpCall} {io : IoState} {cmd : FreshCmd} (status : Nat)
    (packed : c.packs io = some cmd) : ∃ a, c.action status = some a ∧ a.before = some c ∧
      a.command io = some (cmd.1, status) ∧ a.after io = some c.resume ∧
      a.effect io = io.submit cmd.1 status ∧ a.validIndex io = true := by
  rcases c with ⟨i, newQp, point⟩ | ⟨i, delQp, point⟩
  · cases point with
    | cqReady =>
        obtain rfl := Option.some.inj packed
        exact ⟨.crtIoCq i newQp status, rfl, rfl, rfl, rfl, rfl, rfl⟩
    | sqReady =>
        obtain rfl := Option.some.inj packed
        exact ⟨.crtIoSq i newQp status, rfl, rfl, rfl, rfl, rfl, rfl⟩
    | _ => cases packed
  · cases point with
    | tested =>
        obtain rfl := Option.some.inj packed
        exact ⟨.delIoSq i delQp status, rfl, rfl, rfl, rfl, rfl, rfl⟩
    | sqDeleted =>
        obtain rfl := Option.some.inj packed
        exact ⟨.delIoCq i delQp status, rfl, rfl, rfl, rfl, rfl, rfl⟩
    | _ => cases packed

theorem packs_isSome (c : QpCall) (io io' : IoState) :
    (c.packs io).isSome = (c.packs io').isSome := by
  rcases c with ⟨i, newQp, point⟩ | ⟨i, delQp, point⟩ <;> cases point <;> simp [packs]

theorem packs_congr {c : QpCall} {io io' : IoState}
    (addrs : ∀ i, slotOf (some c) = some i → io'.aqp.cqDmaAddrs i = io.aqp.cqDmaAddrs i ∧
      io'.aqp.sqDmaAddrs i = io.aqp.sqDmaAddrs i)
    (size : io'.aqp.ioQueueSize = io.aqp.ioQueueSize) : c.packs io' = c.packs io := by
  rcases c with ⟨i, newQp, point⟩ | ⟨i, delQp, point⟩
  · obtain ⟨cq, sq⟩ := addrs i rfl
    cases point <;> simp only [packs, cq, sq, size]
  · cases point <;> rfl

theorem slotOf_resume (c : QpCall) : slotOf (some c.resume) = slotOf (some c) := by
  rcases c with ⟨i, newQp, point⟩ | ⟨i, delQp, point⟩ <;> cases point <;> rfl

theorem deleteIndex_resume (c : QpCall) : deleteIndex (some c.resume) = deleteIndex (some c) := by
  rcases c with ⟨i, newQp, point⟩ | ⟨i, delQp, point⟩ <;> cases point <;> rfl

end QpCall

theorem QpAction.before_packs {a : QpAction} {io : IoState} {c : QpCall}
    (work : a.command io = none) (before : a.before = some c) : (c.packs io).isSome = false := by
  cases a <;> cases before <;> first | rfl | cases work

theorem QpAction.effect_addrs (io : IoState) (a : QpAction) {i : Nat}
    (elsewhere : slotOf a.before ≠ some i) :
    (a.effect io).aqp.cqDmaAddrs i = io.aqp.cqDmaAddrs i ∧
      (a.effect io).aqp.sqDmaAddrs i = io.aqp.sqDmaAddrs i := by
  cases a with
  | reserve =>
      rcases io.reserve_cases with ⟨used, taken⟩ | ⟨j, used, _, _, taken⟩ <;>
        simp [QpAction.effect, taken]
  | allocCq j newQp addr =>
      have other : i ≠ j := fun same => elsewhere (same ▸ rfl)
      exact ⟨Function.update_of_ne other .., rfl⟩
  | allocSq j newQp addr =>
      have other : i ≠ j := fun same => elsewhere (same ▸ rfl)
      exact ⟨rfl, Function.update_of_ne other ..⟩
  | _ => exact ⟨rfl, rfl⟩

theorem QpSystem.eq_of {ι : Type} {q q' : QpSystem ι} (io : q.io = q'.io)
    (calls : ∀ t, q.call t = q'.call t) (hist : q.hist = q'.hist) : q = q' := by
  cases q
  cases q'
  simp only [QpSystem.mk.injEq]
  exact ⟨io, funext calls, hist⟩

namespace IoController

theorem withCid_fields (cmd : Cmd) (cid : Nat) :
    (cmd.withCid cid).opcode = cmd.opcode ∧ (cmd.withCid cid).qid = cmd.qid ∧
      (cmd.withCid cid).qsize = cmd.qsize ∧ (cmd.withCid cid).cqid = cmd.cqid ∧
      (cmd.withCid cid).prp1 = cmd.prp1 := by
  refine ⟨?_, rfl, rfl, rfl, rfl⟩
  have shifted : BitVec.ofNat 32 (cid <<< 16) &&& 0xff#32 = 0#32 := by
    apply BitVec.eq_of_toNat_eq
    have mask : (255 : Nat) = 2 ^ 8 - 1 := by norm_num
    rw [BitVec.toNat_and, BitVec.toNat_ofNat, BitVec.toNat_ofNat,
      Nat.mod_eq_of_lt (by norm_num : 255 < 2 ^ 32), mask, Nat.and_two_pow_sub_one_eq_mod,
      Nat.shiftLeft_eq, BitVec.toNat_ofNat]
    omega
  simp only [Cmd.opcode, Cmd.withCid, Cmd.set, Function.update_self]
  rw [BitVec.and_comm, BitVec.and_or_distrib_left, BitVec.and_comm, BitVec.and_comm 0xff#32,
    shifted, BitVec.or_zero]

theorem answer_withCid (ctl : IoController) (cmd : Cmd) (cid status : Nat) :
    ctl.answer (cmd.withCid cid) status = ctl.answer cmd status := by
  obtain ⟨code, qid, qsize, cqid, prp⟩ := withCid_fields cmd cid
  simp only [answer, execute, code, qid, qsize, cqid, prp]

theorem accepts_withCid (limits : IoLimits) (ctl : IoController) (cmd : Cmd) (cid : Nat) :
    ctl.Accepts limits (cmd.withCid cid) ↔ ctl.Accepts limits cmd := by
  obtain ⟨code, qid, qsize, cqid, _⟩ := withCid_fields cmd cid
  simp only [Accepts, code, qid, qsize, cqid]

end IoController

/-- The calls over the rings: `cmd_` is the local variable of each call, from the packing of
a command to its second cleanup. -/
structure RingedSystem (ι : Type) where
  qp : QpSystem ι
  admin : AdminSystem ι
  cmd_ : ι → Option FreshCmd

/-- `post t k cpl` names the client whose command is answered. -/
inductive RingedEvent (ι : Type) where
  | work (e : QpEvent ι)
  | pack (t : ι)
  | enqueue (t : ι)
  | poll (t : ι)
  | sqCleanup (t : ι)
  | cqCleanup (t : ι)
  | fetch
  | post (t : ι) (k : Nat) (cpl : Cpl)

namespace RingedSystem

variable {ι : Type} [DecidableEq ι]

/-- The second cleanup has returned, and the call goes on. -/
def finish (s : RingedSystem ι) (t : ι) (admin : AdminSystem ι) : RingedSystem ι where
  qp := { s.qp with call := Function.update s.qp.call t ((s.qp.call t).map QpCall.resume) }
  admin := admin
  cmd_ := Function.update s.cmd_ t none

/-- The controller has executed a command of client `t` and posted its completion. -/
def execute (s : RingedSystem ι) (t : ι) (cmd : Cmd) (status : Nat) (admin : AdminSystem ι) :
    RingedSystem ι :=
  { s with
    qp := { s.qp with
      io := s.qp.io.submit cmd status
      hist :=
        match (s.qp.call t).bind (QpCall.action status) with
        | none => s.qp.hist
        | some a => s.qp.hist.record s.qp.io a }
    admin := admin }

def step (s : RingedSystem ι) : RingedEvent ι → Option (RingedSystem ι)
  | .work e =>
      if (e.action.command s.qp.io).isSome then none
      else (s.qp.step e).map fun qp => { s with qp := qp }
  | .pack t =>
      match s.cmd_ t, (s.qp.call t).bind (QpCall.packs s.qp.io) with
      | none, some cmd => some { s with cmd_ := Function.update s.cmd_ t (some cmd) }
      | _, _ => none
  | .enqueue t =>
      (s.cmd_ t).bind fun cmd =>
        (s.admin.step (.enqueue t cmd)).map fun admin => { s with admin := admin }
  | .poll t => (s.admin.step (.poll t)).map fun admin => { s with admin := admin }
  | .sqCleanup t => (s.admin.step (.sqCleanup t)).map fun admin => { s with admin := admin }
  | .cqCleanup t => (s.admin.step (.cqCleanup t)).map (s.finish t)
  | .fetch => (s.admin.step .fetch).map fun admin => { s with admin := admin }
  | .post t k cpl =>
      match s.admin.sub.held t, s.admin.inflight[k]? with
      | some h, some (cmd, serial) =>
          if h.serial = serial then
            (s.admin.step (.post k cpl)).map (s.execute t cmd cpl.status)
          else none
      | _, _ => none

def Takes (s : RingedSystem ι) : RingedEvent ι → RingedSystem ι → Prop
  | .work e, s' => e.action.command s.qp.io = none ∧
      ∃ qp, s.qp.step e = some qp ∧ s' = { s with qp := qp }
  | .pack t, s' => s.cmd_ t = none ∧ ∃ c cmd, s.qp.call t = some c ∧
      c.packs s.qp.io = some cmd ∧ s' = { s with cmd_ := Function.update s.cmd_ t (some cmd) }
  | .enqueue t, s' => ∃ cmd admin, s.cmd_ t = some cmd ∧
      s.admin.step (.enqueue t cmd) = some admin ∧ s' = { s with admin := admin }
  | .poll t, s' => ∃ admin, s.admin.step (.poll t) = some admin ∧ s' = { s with admin := admin }
  | .sqCleanup t, s' => ∃ admin, s.admin.step (.sqCleanup t) = some admin ∧
      s' = { s with admin := admin }
  | .cqCleanup t, s' => ∃ admin, s.admin.step (.cqCleanup t) = some admin ∧ s' = s.finish t admin
  | .fetch, s' => ∃ admin, s.admin.step .fetch = some admin ∧ s' = { s with admin := admin }
  | .post t k cpl, s' => ∃ h cmd admin, s.admin.sub.held t = some h ∧
      s.admin.inflight[k]? = some (cmd, h.serial) ∧ s.admin.step (.post k cpl) = some admin ∧
      s' = s.execute t cmd cpl.status admin

theorem step_takes {s s' : RingedSystem ι} {e : RingedEvent ι} (taken : s.step e = some s') :
    s.Takes e s' := by
  cases e with
  | work e =>
      simp only [step] at taken
      split at taken
      · cases taken
      · next plain =>
        obtain ⟨qp, moved, rfl⟩ := Option.map_eq_some_iff.mp taken
        exact ⟨by simpa using plain, qp, moved, rfl⟩
  | pack t =>
      simp only [step] at taken
      split at taken
      · next cmd clear packs =>
        obtain ⟨c, there, packed⟩ := Option.bind_eq_some_iff.mp packs
        exact ⟨clear, c, cmd, there, packed, (Option.some.inj taken).symm⟩
      · cases taken
  | enqueue t =>
      obtain ⟨cmd, packed, enqueued⟩ := Option.bind_eq_some_iff.mp taken
      obtain ⟨admin, moved, rfl⟩ := Option.map_eq_some_iff.mp enqueued
      exact ⟨cmd, admin, packed, moved, rfl⟩
  | poll t | sqCleanup t | cqCleanup t | fetch =>
      obtain ⟨admin, moved, rfl⟩ := Option.map_eq_some_iff.mp taken
      exact ⟨admin, moved, rfl⟩
  | post t k cpl =>
      simp only [step] at taken
      split at taken
      · next h cmd serial mine flying =>
        split at taken
        · next owner =>
          obtain ⟨admin, moved, rfl⟩ := Option.map_eq_some_iff.mp taken
          exact ⟨h, cmd, admin, mine, by rw [owner]; exact flying, moved, rfl⟩
        · cases taken
      · cases taken

/-- The calls start on rings on which every earlier command has been finished, such as the
Set Features command of `admin_init`. -/
def machine (ι : Type) [DecidableEq ι] (cap0 : Dword) (cpl : Cpl) :
    Machine (RingedSystem ι) (RingedEvent ι) where
  init s := (QpSystem.machine ι cap0 cpl).init s.qp ∧
    Reachable (AdminSystem.machine ι (initQueueSize cap0)) AdminSystem.freshEnqueue s.admin ∧
    (∀ t, s.admin.sub.held t = none ∧ s.admin.seen t = none) ∧ ∀ t, s.cmd_ t = none
  step := step

def answered (s : RingedSystem ι) (t : ι) : Bool :=
  (s.admin.seen t).isSome ||
    (s.admin.sub.held t).any fun h => s.admin.posted.any fun entry => entry.2 == h.serial

/-- The calls as their commands have been executed: a call whose command is answered has
already gone on. -/
def toCalls (s : RingedSystem ι) : QpSystem ι :=
  { s.qp with
    call := fun t => if s.answered t then (s.qp.call t).map QpCall.resume else s.qp.call t }

def image (s : RingedSystem ι) : RingedEvent ι → Option (QpEvent ι)
  | .work e => some e
  | .post t _ cpl => ((s.qp.call t).bind (QpCall.action cpl.status)).map (QpEvent.mk t)
  | _ => none

/-- Submissions are made with a fresh CID, and what the calls do meets `permitted`. -/
def ringed (permitted : QpSystem ι → QpEvent ι → Prop) (s : RingedSystem ι) (e : RingedEvent ι) :
    Prop :=
  (∀ t, e = .enqueue t → s.admin.FreshCid) ∧ ∀ d, s.image e = some d → permitted s.toCalls d

variable {n : Nat} {s s' : RingedSystem ι} {t : ι}

omit [DecidableEq ι] in
theorem answered_iff (s : RingedSystem ι) (t : ι) : s.answered t = true ↔
    (∃ v, s.admin.seen t = some v) ∨
      ∃ h, s.admin.sub.held t = some h ∧ s.admin.Posted h.serial := by
  simp only [answered, AdminSystem.Posted, Bool.or_eq_true, Option.isSome_iff_exists,
    Option.any_eq_true, List.any_eq_true, beq_iff_eq, Prod.exists]
  apply or_congr_right
  apply exists_congr
  intro h
  apply and_congr_right
  intro _
  constructor
  · rintro ⟨cpl, serial, member, same⟩
    exact ⟨cpl, same ▸ member⟩
  · rintro ⟨cpl, member⟩
    exact ⟨cpl, h.serial, member, rfl⟩

omit [DecidableEq ι] in
theorem toCalls_congr (calls : s'.qp = s.qp) (same : ∀ t, s'.answered t = s.answered t) :
    s'.toCalls = s.toCalls := by
  simp only [toCalls, calls, same]

omit [DecidableEq ι] in
theorem toCalls_waiting (waits : s.answered t = false) : s.toCalls.call t = s.qp.call t := by
  simp [toCalls, waits]

omit [DecidableEq ι] in
theorem toCalls_slotOf (s : RingedSystem ι) (t : ι) :
    slotOf (s.toCalls.call t) = slotOf (s.qp.call t) ∧
      deleteIndex (s.toCalls.call t) = deleteIndex (s.qp.call t) := by
  simp only [toCalls]
  split
  · cases s.qp.call t with
    | none => exact ⟨rfl, rfl⟩
    | some c => exact ⟨c.slotOf_resume, c.deleteIndex_resume⟩
  · exact ⟨rfl, rfl⟩

structure RingedInv (n : Nat) (s : RingedSystem ι) : Prop where
  admin : ∃ low retired, AdminSystem.AdminInv n low retired s.admin
  held : ∀ t h, s.admin.sub.held t = some h → s.cmd_ t = some h.submitted
  seen : ∀ t v, s.admin.seen t = some v → (s.cmd_ t).isSome = true
  packed : ∀ t cmd, s.cmd_ t = some cmd → ∃ c, s.qp.call t = some c ∧
    (c.packs s.qp.io).isSome = true ∧ (s.answered t = false → c.packs s.qp.io = some cmd)

namespace RingedInv

omit [DecidableEq ι] in
theorem rests (inv : RingedInv n s) (clear : s.cmd_ t = none) :
    s.admin.sub.held t = none ∧ s.admin.seen t = none := by
  constructor
  · by_contra some_held
    obtain ⟨h, mine⟩ := Option.ne_none_iff_exists'.mp some_held
    have packed := inv.held t h mine
    rw [clear] at packed
    cases packed
  · by_contra some_seen
    obtain ⟨v, seen⟩ := Option.ne_none_iff_exists'.mp some_seen
    have packed := inv.seen t v seen
    rw [clear] at packed
    cases packed

omit [DecidableEq ι] in
theorem idle (inv : RingedInv n s) (nothing : ∀ c, s.qp.call t = some c →
    (c.packs s.qp.io).isSome = false) : s.cmd_ t = none ∧ s.answered t = false := by
  have clear : s.cmd_ t = none := by
    by_contra some_cmd
    obtain ⟨cmd, packed⟩ := Option.ne_none_iff_exists'.mp some_cmd
    obtain ⟨c, there, submits, _⟩ := inv.packed t cmd packed
    rw [nothing c there] at submits
    cases submits
  obtain ⟨gone, unseen⟩ := inv.rests clear
  exact ⟨clear, by rw [answered, gone, unseen]; rfl⟩

theorem work (inv : RingedInv n s) (pairs : s.toCalls.PairInv) {e : QpEvent ι}
    {qp : QpSystem ι} (plain : e.action.command s.qp.io = none)
    (taken : s.qp.step e = some qp) :
    RingedInv n { s with qp := qp } ∧
      s.toCalls.step e = some (toCalls { s with qp := qp }) := by
  obtain ⟨t, a⟩ := e
  obtain ⟨here, valid, rfl⟩ := QpSystem.step_cases taken
  obtain ⟨clear, waits⟩ := inv.idle (t := t) fun c there =>
    QpAction.before_packs plain (here.symm.trans there)
  have atCall : s.toCalls.call t = a.before := (toCalls_waiting waits).trans here
  constructor
  · constructor
    · exact inv.admin
    · exact inv.held
    · exact inv.seen
    · intro t' cmd packed
      have other : t' ≠ t := by
        rintro rfl
        have packed : s.cmd_ t' = some cmd := packed
        rw [clear] at packed
        cases packed
      obtain ⟨c, there, submits, known⟩ := inv.packed t' cmd packed
      refine ⟨c, (QpSystem.next_other (e := ⟨t, a⟩) other).trans there, ?_, ?_⟩
      · rw [← c.packs_isSome s.qp.io]
        exact submits
      · intro unanswered
        have unanswered : s.answered t' = false := unanswered
        rw [← known unanswered]
        -- the slot of a call that waits is not the slot of the one that moves
        apply QpCall.packs_congr
        · intro i slot
          apply a.effect_addrs
          intro same
          apply other
          apply pairs.alone t' t i
          · rw [toCalls_waiting unanswered, there, slot]
          · rw [atCall, same]
        · exact (QpSystem.effect_constants s.qp.io a).2
  · have moved : s.toCalls.step ⟨t, a⟩ = some (s.toCalls.next ⟨t, a⟩) :=
      QpSystem.step_taken atCall valid
    rw [moved]
    have calls : ∀ t', (s.toCalls.next ⟨t, a⟩).call t' =
        (toCalls { s with qp := s.qp.next ⟨t, a⟩ }).call t' := by
      intro t'
      have same : ({ s with qp := s.qp.next ⟨t, a⟩ } : RingedSystem ι).answered t' =
        s.answered t' := rfl
      by_cases mine : t' = t
      · subst mine
        rw [toCalls_waiting (same.trans waits)]
        exact (QpSystem.next_same s.toCalls ⟨t', a⟩).trans (QpSystem.next_same s.qp ⟨t', a⟩).symm
      · rw [QpSystem.next_other (e := ⟨t, a⟩) mine]
        simp only [toCalls, same, QpSystem.next_other (e := ⟨t, a⟩) mine]
    exact congrArg some (QpSystem.eq_of rfl calls rfl)

theorem pack (inv : RingedInv n s) {c : QpCall} {cmd : FreshCmd} (clear : s.cmd_ t = none)
    (there : s.qp.call t = some c) (packs : c.packs s.qp.io = some cmd) :
    RingedInv n { s with cmd_ := Function.update s.cmd_ t (some cmd) } := by
  have other : ∀ t' cmd', s.cmd_ t' = some cmd' → t' ≠ t := by
    rintro t' cmd' packed rfl
    rw [clear] at packed
    cases packed
  constructor
  · exact inv.admin
  · intro t' h mine
    have packed := inv.held t' h mine
    exact (Function.update_of_ne (other t' _ packed) ..).trans packed
  · intro t' v seen
    obtain ⟨cmd', packed⟩ := Option.isSome_iff_exists.mp (inv.seen t' v seen)
    simp only [Function.update_of_ne (other t' _ packed), packed, Option.isSome_some]
  · intro t' cmd' packed
    rcases SqSystem.held_update packed with ⟨rfl, rfl⟩ | ⟨_, old⟩
    · exact ⟨c, there, by rw [packs]; rfl, fun _ => packs⟩
    · exact inv.packed t' cmd' old

omit [DecidableEq ι] in
theorem rings (inv : RingedInv n s) {admin : AdminSystem ι}
    (kept : ∃ low retired, AdminSystem.AdminInv n low retired admin)
    (held : ∀ t h, admin.sub.held t = some h → s.cmd_ t = some h.submitted)
    (seen : ∀ t v, admin.seen t = some v → (s.cmd_ t).isSome = true)
    (same : ∀ t, ({ s with admin := admin } : RingedSystem ι).answered t = s.answered t) :
    RingedInv n { s with admin := admin } ∧
      toCalls { s with admin := admin } = s.toCalls := by
  refine ⟨⟨kept, held, seen, ?_⟩, toCalls_congr rfl same⟩
  intro t cmd packed
  rw [same]
  exact inv.packed t cmd packed

omit [DecidableEq ι] in
theorem answered_same {admin : AdminSystem ι} (seen : admin.seen t = s.admin.seen t)
    (held : admin.sub.held t = s.admin.sub.held t) (posted : admin.posted = s.admin.posted) :
    ({ s with admin := admin } : RingedSystem ι).answered t = s.answered t := by
  simp only [answered, seen, held, posted]

theorem enqueue (positive : 0 < n) (small : n ≤ 4096) (inv : RingedInv n s) {cmd : FreshCmd}
    {admin : AdminSystem ι} (fresh : s.admin.FreshCid) (packed : s.cmd_ t = some cmd)
    (taken : s.admin.step (.enqueue t cmd) = some admin) :
    RingedInv n { s with admin := admin } ∧
      toCalls { s with admin := admin } = s.toCalls := by
  obtain ⟨low, retired, adm⟩ := inv.admin
  have kept := adm.step positive small (e := .enqueue t cmd) fresh taken
  obtain ⟨idle, unseen, rfl | ⟨cid, _, _, rfl⟩⟩ := AdminSystem.enqueue_cases taken
  · exact inv.rings kept inv.held inv.seen fun _ => rfl
  · apply inv.rings kept
    · intro t' h now
      rcases SqSystem.held_update now with ⟨rfl, rfl⟩ | ⟨_, old⟩
      · exact packed
      · exact inv.held t' h old
    · exact inv.seen
    · intro t'
      by_cases mine : t' = t
      · subst mine
        -- the new command has a serial number that no completion has yet
        have before : s.answered t' = false := by
          by_contra some_answer
          rcases (s.answered_iff t').mp (Bool.eq_true_of_not_eq_false some_answer) with
            ⟨v, seen⟩ | ⟨h, held, _⟩
          · rw [unseen] at seen
            cases seen
          · rw [idle] at held
            cases held
        rw [before]
        by_contra some_answer
        rcases (answered_iff _ t').mp (Bool.eq_true_of_not_eq_false some_answer) with
          ⟨v, seen⟩ | ⟨h, held, posted⟩
        · rw [show s.admin.seen t' = some v from seen] at unseen
          cases unseen
        · rcases SqSystem.held_update held with ⟨_, rfl⟩ | ⟨other, _⟩
          · exact lt_irrefl _
              (AdminSystem.AdminInv.posted_lt adm.device adm.fetching.notAhead posted)
          · exact other rfl
      · exact answered_same rfl (Function.update_of_ne mine ..) rfl

theorem poll (positive : 0 < n) (small : n ≤ 4096) (inv : RingedInv n s)
    {admin : AdminSystem ι} (taken : s.admin.step (.poll t) = some admin) :
    RingedInv n { s with admin := admin } ∧
      toCalls { s with admin := admin } = s.toCalls := by
  obtain ⟨low, retired, adm⟩ := inv.admin
  have kept := adm.step positive small (e := .poll t) trivial taken
  obtain ⟨h, mine, unseen, rfl | ⟨l, hit, rfl⟩⟩ := AdminSystem.poll_cases taken
  · exact inv.rings kept inv.held inv.seen fun _ => rfl
  · apply inv.rings kept inv.held
    · intro t' v now
      rcases SqSystem.held_update now with ⟨rfl, _⟩ | ⟨_, old⟩
      · rw [inv.held t' h mine]
        rfl
      · exact inv.seen t' v old
    · intro t'
      by_cases own : t' = t
      · subst own
        obtain ⟨_, _, entry⟩ := adm.hit_answers positive mine unseen hit
        have before : s.answered t' = true :=
          (s.answered_iff t').mpr (.inr ⟨h, mine, _, List.mem_of_getElem? entry⟩)
        rw [before]
        exact (answered_iff _ t').mpr (.inl ⟨_, Function.update_self ..⟩)
      · exact answered_same (Function.update_of_ne own ..) rfl rfl

theorem sqCleanup (positive : 0 < n) (small : n ≤ 4096) (inv : RingedInv n s)
    {admin : AdminSystem ι} (taken : s.admin.step (.sqCleanup t) = some admin) :
    RingedInv n { s with admin := admin } ∧
      toCalls { s with admin := admin } = s.toCalls := by
  obtain ⟨low, retired, adm⟩ := inv.admin
  have kept := adm.step positive small (e := .sqCleanup t) trivial taken
  obtain ⟨h, v, aqp, mine, seen, _, rfl⟩ := AdminSystem.sqCleanup_cases taken
  apply inv.rings kept
  · intro t' h' now
    exact inv.held t' h' (SqSystem.held_drop now).2
  · exact inv.seen
  · intro t'
    by_cases own : t' = t
    · subst own
      have before : s.answered t' = true := (s.answered_iff t').mpr (.inl ⟨v, seen⟩)
      rw [before]
      exact (answered_iff _ t').mpr (.inl ⟨v, seen⟩)
    · exact answered_same rfl (Function.update_of_ne own ..) rfl

theorem fetch (positive : 0 < n) (small : n ≤ 4096) (inv : RingedInv n s)
    {admin : AdminSystem ι} (taken : s.admin.step .fetch = some admin) :
    RingedInv n { s with admin := admin } ∧
      toCalls { s with admin := admin } = s.toCalls := by
  obtain ⟨low, retired, adm⟩ := inv.admin
  have kept := adm.step positive small (e := .fetch) trivial taken
  obtain ⟨_, rfl⟩ := AdminSystem.fetch_cases taken
  exact inv.rings kept inv.held inv.seen fun _ => rfl

/-- With the second cleanup the call itself goes where its command has already led. -/
theorem cqCleanup (positive : 0 < n) (small : n ≤ 4096) (inv : RingedInv n s)
    {admin : AdminSystem ι} (taken : s.admin.step (.cqCleanup t) = some admin) :
    RingedInv n (s.finish t admin) ∧ (s.finish t admin).toCalls = s.toCalls := by
  obtain ⟨low, retired, adm⟩ := inv.admin
  have kept := adm.step positive small (e := .cqCleanup t) trivial taken
  obtain ⟨v, aqp, gone, seen, _, rfl⟩ := AdminSystem.cqCleanup_cases taken
  have apart : ∀ t', t' ≠ t → (s.finish t (s.admin.retire t aqp)).answered t' = s.answered t' :=
    fun t' other => answered_same (Function.update_of_ne other ..) rfl rfl
  have before : s.answered t = true := (s.answered_iff t).mpr (.inl ⟨v, seen⟩)
  have after : (s.finish t (s.admin.retire t aqp)).answered t = false := by
    by_contra some_answer
    rcases (answered_iff _ t).mp (Bool.eq_true_of_not_eq_false some_answer) with
      ⟨v', now⟩ | ⟨h, now, _⟩
    · exact (SqSystem.held_drop now).1 rfl
    · rw [show s.admin.sub.held t = some h from now] at gone
      cases gone
  constructor
  · constructor
    · exact kept
    · intro t' h now
      have other : t' ≠ t := by
        rintro rfl
        rw [show s.admin.sub.held t' = some h from now] at gone
        cases gone
      exact (Function.update_of_ne other ..).trans (inv.held t' h now)
    · intro t' v' now
      obtain ⟨other, old⟩ := SqSystem.held_drop now
      simp only [finish, Function.update_of_ne other]
      exact inv.seen t' v' old
    · intro t' cmd packed
      obtain ⟨other, old⟩ := SqSystem.held_drop packed
      obtain ⟨c, there, submits, known⟩ := inv.packed t' cmd old
      refine ⟨c, (Function.update_of_ne other ..).trans there, submits, ?_⟩
      rw [apart t' other]
      exact known
  · have calls : ∀ t', (s.finish t (s.admin.retire t aqp)).toCalls.call t' = s.toCalls.call t' := by
      intro t'
      by_cases own : t' = t
      · subst own
        rw [toCalls_waiting after]
        simp only [toCalls, before, if_true]
        exact Function.update_self ..
      · have call : (s.finish t (s.admin.retire t aqp)).qp.call t' = s.qp.call t' :=
          Function.update_of_ne own ..
        simp only [toCalls, apart t' own, call]
    exact QpSystem.eq_of rfl calls rfl

theorem post (positive : 0 < n) (small : n ≤ 4096) (inv : RingedInv n s) {h : Held} {k : Nat}
    {cpl : Cpl} {cmd : Cmd} {admin : AdminSystem ι} (mine : s.admin.sub.held t = some h)
    (flying : s.admin.inflight[k]? = some (cmd, h.serial))
    (taken : s.admin.step (.post k cpl) = some admin) :
    RingedInv n (s.execute t cmd cpl.status admin) ∧ ∃ c a,
      s.qp.call t = some c ∧ c.action cpl.status = some a ∧
        a.command s.qp.io = some (h.submitted.1, cpl.status) ∧
        cmd = h.submitted.1.withCid h.cid ∧
        s.toCalls.step ⟨t, a⟩ = some (s.execute t cmd cpl.status admin).toCalls := by
  obtain ⟨low, retired, adm⟩ := inv.admin
  have kept := adm.step positive small (e := .post k cpl) trivial taken
  obtain ⟨cmd', serial', flying', _, _, rfl⟩ := AdminSystem.post_cases taken
  rw [flying, Option.some.injEq, Prod.mk.injEq] at flying'
  obtain ⟨rfl, rfl⟩ := flying'
  obtain ⟨fetched, stored⟩ := adm.device.flying cmd h.serial (List.mem_of_getElem? flying)
  have unanswered := AdminSystem.AdminInv.unanswered adm.device flying
  obtain ⟨_, _, _, passed, built, _⟩ := adm.ring.held t h mine
  have command : cmd = h.submitted.1.withCid h.cid := by
    rw [passed, Option.some.injEq] at stored
    rw [← stored]
    exact built
  have unseen : s.admin.seen t = none := by
    by_contra some_seen
    obtain ⟨v, seen⟩ := Option.ne_none_iff_exists'.mp some_seen
    have posted := adm.clients.seenPosted t v seen
    rw [← adm.clients.seenHeld t h v mine seen] at posted
    exact unanswered posted
  have waits : s.answered t = false := by
    by_contra some_answer
    rcases (s.answered_iff t).mp (Bool.eq_true_of_not_eq_false some_answer) with
      ⟨v, seen⟩ | ⟨h', mine', posted⟩
    · rw [unseen] at seen
      cases seen
    · rw [mine, Option.some.injEq] at mine'
      exact unanswered (mine' ▸ posted)
  obtain ⟨c, there, _, known⟩ := inv.packed t h.submitted (inv.held t h mine)
  obtain ⟨a, acts, before, submits, resumes, effect, valid⟩ :=
    QpCall.packs_action cpl.status (known waits)
  have after : ∀ t', (s.execute t cmd cpl.status (s.admin.postOne k h.serial cpl)).answered t' =
      (decide (t' = t) || s.answered t') := by
    intro t'
    rw [Bool.eq_iff_iff, Bool.or_eq_true, decide_eq_true_iff, answered_iff, answered_iff]
    constructor
    · rintro (seen | ⟨h', mine', cpl', member⟩)
      · exact .inr (.inl seen)
      · simp only [execute, AdminSystem.postOne, List.mem_append, List.mem_singleton,
          Prod.mk.injEq] at member
        rcases member with old | ⟨_, same⟩
        · exact .inr (.inr ⟨h', mine', cpl', old⟩)
        · exact .inl (adm.ring.serials t' t h' h mine' mine same)
    · rintro (rfl | seen | ⟨h', mine', cpl', member⟩)
      · exact .inr ⟨h, mine, cpl, List.mem_append_right _ (List.mem_singleton_self _)⟩
      · exact .inl seen
      · exact .inr ⟨h', mine', cpl', List.mem_append_left _ member⟩
  refine ⟨⟨kept, inv.held, inv.seen, ?_⟩, c, a, there, acts, submits, command, ?_⟩
  · intro t' cmd' packed
    obtain ⟨c', there', submits', known'⟩ := inv.packed t' cmd' packed
    have same : c'.packs (s.qp.io.submit cmd cpl.status) = c'.packs s.qp.io :=
      QpCall.packs_congr (fun _ _ => ⟨rfl, rfl⟩) rfl
    refine ⟨c', there', by rw [← submits', ← same]; rfl, ?_⟩
    intro unanswered'
    rw [after t', Bool.or_eq_false_iff] at unanswered'
    exact same.trans (known' unanswered'.2)
  · have atCall : s.toCalls.call t = a.before := by rw [toCalls_waiting waits, there, before]
    have moved : s.toCalls.step ⟨t, a⟩ = some (s.toCalls.next ⟨t, a⟩) :=
      QpSystem.step_taken atCall valid
    rw [moved]
    have io : a.effect s.qp.io = s.qp.io.submit cmd cpl.status := by
      rw [effect, command, IoState.submit, IoState.submit, IoController.answer_withCid]
    have hist : (s.execute t cmd cpl.status (s.admin.postOne k h.serial cpl)).qp.hist =
        s.qp.hist.record s.qp.io a := by
      simp only [execute, there, Option.bind_some, acts]
    have calls : ∀ t', (s.toCalls.next ⟨t, a⟩).call t' =
        (s.execute t cmd cpl.status (s.admin.postOne k h.serial cpl)).toCalls.call t' := by
      intro t'
      by_cases own : t' = t
      · subst own
        refine ((QpSystem.next_same s.toCalls ⟨t', a⟩).trans resumes).trans ?_
        simp only [toCalls, after t', decide_true, Bool.true_or, if_true]
        rw [show (s.execute t' cmd cpl.status _).qp.call t' = some c from there, Option.map_some]
      · rw [QpSystem.next_other (e := ⟨t, a⟩) own]
        simp only [toCalls, after t', decide_eq_false own, Bool.false_or]
        rfl
    exact congrArg some (QpSystem.eq_of io calls hist.symm)

theorem step (positive : 0 < n) (small : n ≤ 4096) (inv : RingedInv n s)
    (pairs : s.toCalls.PairInv) {e : RingedEvent ι}
    (fresh : ∀ t, e = .enqueue t → s.admin.FreshCid) (taken : s.step e = some s') :
    RingedInv n s' ∧
      match s.image e with
      | none => s'.toCalls = s.toCalls
      | some d => s.toCalls.step d = some s'.toCalls := by
  have taken := step_takes taken
  cases e with
  | work e =>
      obtain ⟨plain, qp, moved, rfl⟩ := taken
      exact inv.work pairs plain moved
  | pack t =>
      obtain ⟨clear, c, cmd, there, packs, rfl⟩ := taken
      exact ⟨inv.pack clear there packs, rfl⟩
  | enqueue t =>
      obtain ⟨cmd, admin, packed, moved, rfl⟩ := taken
      exact inv.enqueue positive small (fresh t rfl) packed moved
  | poll t =>
      obtain ⟨admin, moved, rfl⟩ := taken
      exact inv.poll positive small moved
  | sqCleanup t =>
      obtain ⟨admin, moved, rfl⟩ := taken
      exact inv.sqCleanup positive small moved
  | cqCleanup t =>
      obtain ⟨admin, moved, rfl⟩ := taken
      exact inv.cqCleanup positive small moved
  | fetch =>
      obtain ⟨admin, moved, rfl⟩ := taken
      exact inv.fetch positive small moved
  | post t k cpl =>
      obtain ⟨h, cmd, admin, mine, flying, moved, rfl⟩ := taken
      obtain ⟨kept, c, a, there, acts, _, _, performed⟩ := inv.post positive small mine flying moved
      refine ⟨kept, ?_⟩
      simp only [image, there, Option.bind_some, acts, Option.map_some]
      exact performed

end RingedInv

omit [DecidableEq ι] in
theorem toCalls_start (nothing : ∀ t, s.admin.sub.held t = none ∧ s.admin.seen t = none) :
    s.toCalls = s.qp := by
  refine QpSystem.eq_of rfl (fun t => toCalls_waiting ?_) rfl
  simp only [answered, nothing t, Option.isSome_none, Option.any_none, Bool.or_self]

theorem RingedInv.start {cap0 : Dword} {cpl : Cpl} (initial : (machine ι cap0 cpl).init s) :
    RingedInv (initQueueSize cap0) s ∧ (QpSystem.machine ι cap0 cpl).init s.toCalls := by
  obtain ⟨positive, small⟩ := initQueueSize_bounds cap0
  obtain ⟨qp, admin, nothing, clear⟩ := initial
  refine ⟨?_, by rw [toCalls_start nothing]; exact qp⟩
  constructor
  · refine admin.invariant (P := fun a =>
      ∃ low retired, AdminSystem.AdminInv (initQueueSize cap0) low retired a) ?_ ?_
    · rintro a ⟨cqAddr, sqAddr, clear, rfl⟩
      exact ⟨0, ∅, AdminSystem.AdminInv.start positive clear sqAddr⟩
    · rintro a e a' ⟨low, retired, adm⟩ fresh taken
      exact adm.step positive small fresh taken
  · intro t h mine
    rw [(nothing t).1] at mine
    cases mine
  · intro t v seen
    rw [(nothing t).2] at seen
    cases seen
  · intro t cmd packed
    rw [clear t] at packed
    cases packed

/-- Over the rings the calls do what they do with commands that are executed at once, as long
as that keeps every call on a slot of its own. -/
theorem ringed_inv {cap0 : Dword} {cpl : Cpl} {permitted : QpSystem ι → QpEvent ι → Prop}
    (pairs : ∀ q, Reachable (QpSystem.machine ι cap0 cpl) permitted q → q.PairInv)
    (reached : Reachable (machine ι cap0 cpl) (ringed permitted) s) :
    RingedInv (initQueueSize cap0) s ∧
      Reachable (QpSystem.machine ι cap0 cpl) permitted s.toCalls := by
  obtain ⟨positive, small⟩ := initQueueSize_bounds cap0
  refine reached.refines (A := QpSystem.machine ι cap0 cpl) (RingedInv (initQueueSize cap0)) toCalls
    image (fun _ => RingedInv.start) ?_
  intro s e s' inv abstract meets taken
  obtain ⟨kept, performed⟩ := inv.step positive small (pairs _ abstract) meets.1 taken
  refine ⟨kept, ?_⟩
  have allowed := meets.2
  cases event : s.image e with
  | none =>
      rw [event] at performed
      exact performed
  | some d =>
      rw [event] at performed
      exact ⟨allowed d event, performed⟩

end RingedSystem

end BafsNvme
