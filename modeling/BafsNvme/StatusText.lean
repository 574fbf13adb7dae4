import BafsNvme.CompletionWindow
import BafsNvme.RingedAgreement

/-! The texts of `common/bafs_error.h` for the status field of a completion, and the one that
`admin_cq_poll` prints. -/

namespace BafsNvme

open Machine

def genericCmdStatus : List String :=
  ["Success",
    "Invalid Command Opcode",
    "Invalid Field in Command",
    "Command ID Conflict",
    "Data Transfer Error",
    "Commands Aborted Due to Power Loss Notification",
    "Internal Error. Refer Figure 145",
    "Commad Abort Requested",
    "Command Aborted due to SQ Deletion",
    "Command Aborted due to Failed Fused operation",
    "Command Aborted due to Missing Fused command",
    "Invalid Namespace or Format",
    "Command Sequence Error",
    "Invalid SGL Segment Descriptor",
    "Invalid Number of SGL Descriptor",
    "Data SGL Length Invalid",
    "Metadata SGL Length Invalid",
    "SGL Desciptor Type Invalid",
    "Invalid use of CMB",
    "PRP Offset Invalid",
    "Atomic Write Unit Exceeded",
    "Operation Denied",
    "SGL Offset Invalid",
    "Reserved",
    "Host Identifier Inconsistent Format",
    "Keep Alive Timer Expired",
    "Keep Alive Timeout Invalid",
    "Commmad Aboirted de to Prempt and Abort",
    "Santize Failed",
    "Santize in Progress",
    "SGL Data Block Granularity Invalid",
    "Command Not Supported For QUeue in CMB",
    "Namespace is Write Protected",
    "Command Interrupted",
    "Transient Transport Error",
    "Reserved"]

def genericNvmStatus : List String :=
  ["LBA Out of Range",
    "Capacity Exceeded",
    "Namespace Not Ready",
    "Reservation Conflict",
    "Format in Progress"]

def cmdSpecificStatus : List String :=
  ["Completion Queue Invalid",
    "Invalid Queue Identifier",
    "Invalid Queue Size",
    "Aboirt Command Limit Exceeded",
    "Reserved",
    "Asynchronous Event Request Limit Execeeded",
    "Invalid Firmware Slot",
    "Invalid Firmware Image",
    "Invalid Interrupt Vector",
    "Invalid Log Page",
    "Invalid Format",
    "Firmware Activation Request Conventional Reset",
    "Invalid Queue Deletion",
    "Feature Identifier Not Saveable",
    "Feature Not Changeable",
    "Feature Not Namespace Specific",
    "Firmware Activation Requires NVM Subsystem Reset",
    "Firmware Activation Requires Controller Reset",
    "Firmware Activation Requires Maximum Time Violation",
    "Firmware Activation Prohibited",
    "Overlapping Range",
    "Namespace Insufficient Capacity",
    "Namespace Identifier Unavailable",
    "Reserved",
    "Namespace Already Attached",
    "Namespace is Private",
    "Namespace Not Attached",
    "Thin Provisioning is not supported",
    "Controller List Invalid",
    "Device Self Test In Progress",
    "Boot Partition Write Prohibited",
    "Invalid Controller Identifier",
    "Invalid Secondary Controller State",
    "Invalid Number of Controller Resources",
    "Invalid Resource Identifier",
    "Santize Prohibited in PMR",
    "ANA Group Identifier Invalid",
    "ANA Attach Failed"]

def nvmCmdSpecificStatus : List String :=
  ["Conflicting Attributed",
    "Invalid Protection Information",
    "Attempted Write To Read Only Range"]

/-- `print_error`; `none` is a read behind the end of a table. -/
def printError (sct sc : BitVec 8) : Option String :=
  if sct = 0x00#8 then
    if sc < 0x23#8 then genericCmdStatus[sc.toNat]?
    else if 0x7F#8 < sc ∧ sc < 0x85#8 then genericNvmStatus[sc.toNat - 0x80]?
    else some "Either Vendor Specific Error or Undefined Error"
  else if sct = 0x01#8 then
    if sc < 0x26#8 then cmdSpecificStatus[sc.toNat]?
    else if 0x7F#8 < sc ∧ sc < 0x83#8 then nvmCmdSpecificStatus[sc.toNat - 0x80]?
    else some "Either Vendor Specific Error or Undefined Error"
  else if sct = 0x02#8 then some "Media Specific Error - Error Code Not implemented"
  else some "Unknown Status Code Type"

def unpackSct (status : Dword) : BitVec 8 := (rdBits (status.setWidth 64) 10 8).setWidth 8

def unpackSc (status : Dword) : BitVec 8 := (rdBits (status.setWidth 64) 7 0).setWidth 8

/-- `bafs_error` of the kernel module. -/
def bafsError (status : Dword) : Option String :=
  if unpackSct status ≠ 0#8 ∨ unpackSc status ≠ 0#8 then
    printError (unpackSct status) (unpackSc status)
  else if status >>> 1 = 0#32 then some "Success"
  else some "Unknown"

def Ring.pollText (cq : Ring Cpl) (l : Nat) : Option String :=
  let dword := (cq.addr l).dword 3
  let status := dword >>> 16
  bafsError (status >>> 1)

def errorTables : List (List String) :=
  [genericCmdStatus.tail, genericNvmStatus, cmdSpecificStatus, nvmCmdSpecificStatus,
    ["Either Vendor Specific Error or Undefined Error",
      "Media Specific Error - Error Code Not implemented",
      "Unknown Status Code Type"]]

def errorTexts : List String := errorTables.flatten

theorem not_errorText : "Success" ∉ errorTexts ∧ "Unknown" ∉ errorTexts := by decide

theorem text_read {table : List String} (among : table ∈ errorTables) {i : Nat}
    (inside : i < table.length) : ∃ text ∈ errorTexts, table[i]? = some text :=
  ⟨table[i], List.mem_flatten.mpr ⟨table, among, List.getElem_mem inside⟩,
    List.getElem?_eq_getElem inside⟩

theorem printError_text {sct sc : BitVec 8} (failed : sct ≠ 0#8 ∨ sc ≠ 0#8) :
    ∃ text ∈ errorTexts, printError sct sc = some text := by
  have other (i : Fin 3) : (errorTables[4])[i] ∈ errorTexts :=
    List.mem_flatten.mpr ⟨errorTables[4], by simp [errorTables], List.getElem_mem _⟩
  rw [printError]
  split
  · next generic =>
    split
    · next low =>
      have code : sc.toNat ≠ 0 := by
        have nonzero := failed.resolve_left (not_not_intro generic)
        bv_omega
      obtain ⟨i, number⟩ := Nat.exists_eq_succ_of_ne_zero code
      have length : genericCmdStatus.tail.length = 35 := rfl
      rw [number]
      exact text_read (by simp [errorTables] : genericCmdStatus.tail ∈ errorTables) (by bv_omega)
    · split
      · have length : genericNvmStatus.length = 5 := rfl
        exact text_read (by simp [errorTables]) (by bv_omega)
      · exact ⟨_, other 0, rfl⟩
  · split
    · split
      · have length : cmdSpecificStatus.length = 38 := rfl
        exact text_read (by simp [errorTables]) (by bv_omega)
      · split
        · have length : nvmCmdSpecificStatus.length = 3 := rfl
          exact text_read (by simp [errorTables]) (by bv_omega)
        · exact ⟨_, other 0, rfl⟩
    · split
      · exact ⟨_, other 1, rfl⟩
      · exact ⟨_, other 2, rfl⟩

theorem unpacked (status : Dword) :
    unpackSct status = BitVec.ofNat 8 (status.toNat / 2 ^ 8 % 2 ^ 3) ∧
      unpackSc status = BitVec.ofNat 8 (status.toNat % 2 ^ 8) := by
  have bound := status.isLt
  have wide : (status.setWidth 64).toNat = status.toNat := by
    rw [BitVec.toNat_setWidth]
    exact Nat.mod_eq_of_lt (by omega)
  constructor
  · apply BitVec.eq_of_toNat_eq
    rw [unpackSct, BitVec.toNat_setWidth, rdBits_toNat _ (by norm_num) (by norm_num), wide,
      BitVec.toNat_ofNat]
  · apply BitVec.eq_of_toNat_eq
    rw [unpackSc, BitVec.toNat_setWidth, rdBits_toNat _ (by norm_num) (by norm_num), wide,
      BitVec.toNat_ofNat]
    simp

theorem unpacked_zero (status : Dword) :
    unpackSct status = 0#8 ∧ unpackSc status = 0#8 ↔ status.toNat % 2 ^ 11 = 0 := by
  obtain ⟨sct, sc⟩ := unpacked status
  rw [sct, sc, ← BitVec.toNat_inj, ← BitVec.toNat_inj]
  simp only [BitVec.toNat_ofNat]
  omega

/-- The three kinds of texts: success, a code of 0 with other bits set, and the errors. -/
theorem bafsError_cases (status : Dword) :
    (status = 0#32 ∧ bafsError status = some "Success") ∨
      (status ≠ 0#32 ∧ status.toNat % 2 ^ 11 = 0 ∧ bafsError status = some "Unknown") ∨
      (status.toNat % 2 ^ 11 ≠ 0 ∧ ∃ text ∈ errorTexts, bafsError status = some text ∧
        printError (unpackSct status) (unpackSc status) = some text) := by
  by_cases failed : unpackSct status ≠ 0#8 ∨ unpackSc status ≠ 0#8
  · obtain ⟨text, member, printed⟩ := printError_text failed
    refine .inr (.inr ⟨fun zero => ?_, text, member, ?_, printed⟩)
    · obtain ⟨sct, sc⟩ := (unpacked_zero status).mpr zero
      exact failed.elim (absurd sct) (absurd sc)
    · rw [bafsError, if_pos failed, printed]
  · have zero : status.toNat % 2 ^ 11 = 0 := by
      rw [← unpacked_zero]
      simpa only [not_or, not_not] using failed
    rw [bafsError, if_neg failed]
    by_cases success : status >>> 1 = 0#32
    · rw [if_pos success]
      refine .inl ⟨?_, rfl⟩
      bv_omega
    · rw [if_neg success]
      refine .inr (.inl ⟨?_, zero, rfl⟩)
      rintro rfl
      exact success rfl

def PrintsStatus (cq : Ring Cpl) (l : Nat) (text : String) : Prop :=
  let status := (cq.addr l).status
  cq.pollText l = some text ∧ (text = "Success" ↔ status = 0) ∧
    (text = "Unknown" ↔ status ≠ 0 ∧ status % 2 ^ 11 = 0) ∧
    (status % 2 ^ 11 ≠ 0 →
      printError (BitVec.ofNat 8 (status / 2 ^ 8 % 2 ^ 3)) (BitVec.ofNat 8 (status % 2 ^ 8)) =
        some text)

theorem prints_status (cq : Ring Cpl) (l : Nat) : ∃ text, PrintsStatus cq l text := by
  have word : ((cq.addr l).dword 3 >>> 16 >>> 1).toNat = (cq.addr l).status := by
    rw [Cpl.status]
    simp only [BitVec.toNat_ushiftRight, ← Nat.shiftRight_add]
  obtain ⟨sct, sc⟩ := unpacked ((cq.addr l).dword 3 >>> 16 >>> 1)
  obtain ⟨success, unknown⟩ := not_errorText
  rcases bafsError_cases ((cq.addr l).dword 3 >>> 16 >>> 1) with
    ⟨zero, text⟩ | ⟨nonzero, code, text⟩ | ⟨code, error, member, text, printed⟩
  · have status : (cq.addr l).status = 0 := by
      rw [← word, zero]
      rfl
    refine ⟨_, text, iff_of_true rfl status, iff_of_false (by decide) fun other => other.1 status,
      ?_⟩
    intro other
    exact absurd (by rw [status, Nat.zero_mod]) other
  · rw [word] at code
    have status : (cq.addr l).status ≠ 0 := fun zero =>
      nonzero (BitVec.eq_of_toNat_eq (word.trans zero))
    exact ⟨_, text, iff_of_false (by decide) status, iff_of_true rfl ⟨status, code⟩,
      fun other => absurd code other⟩
  · rw [word] at code sct sc
    rw [sct, sc] at printed
    refine ⟨_, text, iff_of_false ?_ ?_, iff_of_false ?_ fun other => code other.2,
      fun _ => printed⟩
    · exact fun same => success (same ▸ member)
    · exact fun zero => code (by rw [zero, Nat.zero_mod])
    · exact fun same => unknown (same ▸ member)

namespace AdminSystem

variable {ι : Type} [DecidableEq ι]

theorem fresh_inv {n : Nat} (positive : 0 < n) (small : n ≤ 4096) {s : AdminSystem ι}
    (reached : Reachable (machine ι n) freshEnqueue s) :
    ∃ low retired, AdminInv n low retired s := by
  refine reached.invariant (P := fun s => ∃ low retired, AdminInv n low retired s) ?_ ?_
  · rintro s ⟨cqAddr, sqAddr, clear, rfl⟩
    exact ⟨0, ∅, AdminInv.start positive clear sqAddr⟩
  · rintro s e s' ⟨low, retired, inv⟩ fresh taken
    exact inv.step positive small fresh taken

/-- What a poll prints about a command is the status that the controller answered it with. -/
theorem polls_print_answers (cap0 : Dword) (s : AdminSystem ι)
    (reached : Reachable (machine ι (initQueueSize cap0)) freshEnqueue s) (t : ι) (h : Held)
    (l : Nat) (mine : s.sub.held t = some h) (unseen : s.seen t = none)
    (hit : adminCqPoll s.sub.aqp h.cid = some l) :
    (s.sub.aqp.cq.addr l, h.serial) ∈ s.posted ∧ ∃ text, PrintsStatus s.sub.aqp.cq l text := by
  obtain ⟨positive, small⟩ := initQueueSize_bounds cap0
  obtain ⟨low, retired, inv⟩ := fresh_inv positive small reached
  obtain ⟨p, _, entry⟩ := inv.hit_answers positive mine unseen hit
  exact ⟨List.mem_of_getElem? entry, prints_status _ l⟩

theorem polls_print_answers_rejected :
    ∃ (s : AdminSystem Bool) (h : Held), (machine Bool (initQueueSize 1#32)).run
        (start (adminInitRings (initQueueSize 1#32) (fun _ => Cpl.zero) fun _ => clearCmd))
        [.enqueue true devSelfTestCmd, .fetch, .post 0 (Cpl.answer 0 true 0x101)] = some s ∧
      s.sub.aqp.cq.pollText 0 = some "Invalid Queue Identifier" ∧
      (s.sub.aqp.cq.addr 0, h.serial) ∈ s.posted ∧ ∃ text, PrintsStatus s.sub.aqp.cq 0 text := by
  let events : List (AdminEvent Bool) :=
    [.enqueue true devSelfTestCmd, .fetch, .post 0 (Cpl.answer 0 true 0x101)]
  let rings := adminInitRings (initQueueSize 1#32) (fun _ => Cpl.zero) fun _ => clearCmd
  have begins : Reachable (machine Bool (initQueueSize 1#32)) freshEnqueue (start rings) :=
    .start (machine_init _ _)
  have ended : ((machine Bool (initQueueSize 1#32)).run (start rings) events).map (fun s =>
      ((s.sub.held true).map Held.cid, (s.seen true).map Seen.slot,
        adminCqPoll s.sub.aqp 0, s.sub.aqp.cq.pollText 0)) =
      some (some 0, none, some 0, some "Invalid Queue Identifier") := by
    decide +kernel
  obtain ⟨s, ran, facts⟩ := Option.map_eq_some_iff.mp ended
  simp only [Prod.mk.injEq, Option.map_eq_some_iff, Option.map_eq_none_iff] at facts
  obtain ⟨⟨h, mine, cid⟩, unseen, hit, text⟩ := facts
  have meets : (machine Bool (initQueueSize 1#32)).RunMeets freshEnqueue (start rings) events :=
    ⟨freshCid_start (by decide) _ _, fun _ _ => ⟨trivial, fun _ _ => ⟨trivial, fun _ _ => trivial⟩⟩⟩
  exact ⟨s, h, ran, text, polls_print_answers 1#32 s (begins.extend events meets ran) true h 0 mine
    unseen (by rw [cid, hit])⟩

end AdminSystem

namespace RingedSystem

variable {ι : Type} {limits : IoLimits} {n m : Nat} {s s' : RingedSystem ι}

def HeldAccepted (s : RingedSystem ι) : Prop :=
  ∀ t h cpl, s.admin.sub.held t = some h → (cpl, h.serial) ∈ s.admin.posted → cpl.status = 0

variable [DecidableEq ι]

theorem HeldAccepted.step (inv : RingedAgreeInv limits n m s) (accepted : s.HeldAccepted)
    {e : RingedEvent ι} (permitted : OrderlyRings limits s e) (taken : s.step e = some s') :
    s'.HeldAccepted := by
  have taken := step_takes taken
  cases e with
  | work e =>
      obtain ⟨_, qp, _, rfl⟩ := taken
      exact accepted
  | pack t =>
      obtain ⟨_, _, _, _, _, rfl⟩ := taken
      exact accepted
  | enqueue t =>
      obtain ⟨cmd, admin, _, moved, rfl⟩ := taken
      obtain ⟨_, _, rfl | ⟨cid, _, _, rfl⟩⟩ := AdminSystem.enqueue_cases moved
      · exact accepted
      · intro t' h cpl mine posted
        rcases SqSystem.held_update mine with ⟨_, rfl⟩ | ⟨_, old⟩
        · -- the new command has no completion yet
          obtain ⟨_, _, adm⟩ := inv.rings.admin
          have earlier :=
            AdminSystem.AdminInv.posted_lt adm.device adm.fetching.notAhead ⟨cpl, posted⟩
          exact absurd earlier (Nat.lt_irrefl _)
        · exact accepted t' h cpl old posted
  | poll t =>
      obtain ⟨admin, moved, rfl⟩ := taken
      obtain ⟨_, _, _, rfl | ⟨_, _, rfl⟩⟩ := AdminSystem.poll_cases moved
      · exact accepted
      · exact accepted
  | sqCleanup t =>
      obtain ⟨admin, moved, rfl⟩ := taken
      obtain ⟨_, _, _, _, _, _, rfl⟩ := AdminSystem.sqCleanup_cases moved
      exact fun t' h cpl mine posted => accepted t' h cpl (SqSystem.held_drop mine).2 posted
  | cqCleanup t =>
      obtain ⟨admin, moved, rfl⟩ := taken
      obtain ⟨_, _, _, _, _, rfl⟩ := AdminSystem.cqCleanup_cases moved
      exact accepted
  | fetch =>
      obtain ⟨admin, moved, rfl⟩ := taken
      obtain ⟨_, rfl⟩ := AdminSystem.fetch_cases moved
      exact accepted
  | post t k cpl =>
      obtain ⟨h, cmd, admin, mine, flying, moved, rfl⟩ := taken
      obtain ⟨cmd', serial', flying', _, _, rfl⟩ := AdminSystem.post_cases moved
      have rule := permitted.answers t k cpl cmd' serial' rfl flying'
      have member := List.mem_of_getElem? flying'
      intro t' h' cpl' mine' posted
      rcases List.mem_append.mp posted with old | new
      · exact accepted t' h' cpl' mine' old
      · obtain ⟨rfl, _⟩ := Prod.mk.inj (List.mem_singleton.mp new)
        exact rule.mpr (inv.flying_accepted member)

/-- With orderly calls and a controller that goes by its rules a poll that returns a slot prints
success, in every interleaving on the real rings. -/
theorem polls_print_success (cap0 : Dword) (cpl : Cpl)
    (cqs : (cpl.dword 0 >>> 16).toNat ≤ 65534)
    (sqs : (cpl.dword 0 >>> 16).toNat ≤ (cpl.dword 0 &&& 0x0000ffff#32).toNat)
    (s : RingedSystem ι)
    (reached : Reachable (machine ι cap0 cpl) (OrderlyRings (grantedLimits cap0 cpl)) s) (t : ι)
    (h : Held) (l : Nat) (mine : s.admin.sub.held t = some h) (unseen : s.admin.seen t = none)
    (hit : adminCqPoll s.admin.sub.aqp h.cid = some l) :
    s.admin.sub.aqp.cq.pollText l = some "Success" := by
  obtain ⟨positive, small⟩ := initQueueSize_bounds cap0
  have both : RingedAgreeInv (grantedLimits cap0 cpl) (initQueueSize cap0)
      (numQueuesSupported cpl) s ∧ s.HeldAccepted := by
    refine reached.invariant (P := fun s => RingedAgreeInv (grantedLimits cap0 cpl)
      (initQueueSize cap0) (numQueuesSupported cpl) s ∧ s.HeldAccepted) ?_ ?_
    · intro s initial
      refine ⟨ringed_agree_inv cqs sqs (.start initial), fun t h cpl held _ => ?_⟩
      rw [(initial.2.2.1 t).1] at held
      cases held
    · intro s e s' both permitted taken
      exact ⟨both.1.step positive small permitted taken, both.2.step both.1 permitted taken⟩
  obtain ⟨inv, accepted⟩ := both
  obtain ⟨low, retired, adm⟩ := inv.rings.admin
  obtain ⟨p, _, entry⟩ := adm.hit_answers positive mine unseen hit
  obtain ⟨text, printed, success, _⟩ := prints_status s.admin.sub.aqp.cq l
  rw [printed, success.mpr (accepted t h _ mine (List.mem_of_getElem? entry))]

theorem polls_print_success_first_command :
    ∃ (s : RingedSystem Unit) (h : Held), s.admin.sub.held () = some h ∧
      adminCqPoll s.admin.sub.aqp h.cid = some 0 ∧
      s.admin.sub.aqp.cq.pollText 0 = some "Success" := by
  have cqs : (Cpl.zero.dword 0 >>> 16).toNat ≤ 65534 := by decide
  have sqs : (Cpl.zero.dword 0 >>> 16).toNat ≤ (Cpl.zero.dword 0 &&& 0x0000ffff#32).toNat := by
    decide
  have begins : Reachable (machine Unit 1#32 Cpl.zero) (OrderlyRings (grantedLimits 1#32 Cpl.zero))
      twoSlots := .start twoSlots_init
  have ended : ((machine Unit 1#32 Cpl.zero).runAllowed succeeds twoSlots
      ((createEvents ()).take 7)).map (fun s => ((s.admin.sub.held ()).map Held.cid,
        (s.admin.seen ()).map Seen.slot, adminCqPoll s.admin.sub.aqp 0)) =
      some (some 0, none, some 0) := by
    decide +kernel
  obtain ⟨s, ran, facts⟩ := Option.map_eq_some_iff.mp ended
  simp only [Prod.mk.injEq, Option.map_eq_some_iff, Option.map_eq_none_iff] at facts
  obtain ⟨⟨h, mine, cid⟩, unseen, hit⟩ := facts
  have found : adminCqPoll s.admin.sub.aqp h.cid = some 0 := by rw [cid, hit]
  have reached := orderly_extend cqs sqs _ begins ran
  exact ⟨s, h, mine, found, polls_print_success 1#32 Cpl.zero cqs sqs s reached () h 0 mine unseen
    found⟩

end RingedSystem

end BafsNvme
