import BafsNvme.BlockList
import BafsNvme.UserMap

/-! Controllers coming and going: `kernel/nvme/ctrl.c` and the two callbacks of
`kernel/nvme/bafs_nvme_mod.c`. The kernel's answers are inputs, and a ledger keeps what the driver
has obtained for each device and not given back. -/

namespace BafsNvme

structure DevT where
  major : Int
  minor : Int

/-- `struct ctrl`. `chrdev` says whether the device handle is set. -/
structure Ctrl (P : Type) where
  pdev : P
  name : String
  number : Int
  rdev : DevT
  chrdev : Bool

inductive Resource where
  | ctrl
  | aqp
  | bar0
  | region
  | enable
  | master
  | cdev
  | device
  deriving DecidableEq

structure ModuleParams where
  numCtrls : Int
  devFirst : DevT

/-- `ctrl_list`, the controllers by the number of their block (a block is never handed out twice),
`curr_ctrls`, and the ledger. -/
structure CtrlDriver (P : Type) where
  ctrlList : ListHeap Unit Nat
  ctrl : Nat → Ctrl P
  blocks : Nat
  currCtrls : Int
  held : Resource → P → Int

/-- What the kernel answers to one probe: whether the two allocations succeed, the results of
`pci_request_region`, `pci_enable_device` and `cdev_add`, and the error of `device_create`. A
`pci_iomap` that fails is not among them: the write that follows it would fault. -/
structure ProbeAnswers where
  ctrlAlloc : Bool
  aqpAlloc : Bool
  requestRegion : Int
  enableDevice : Int
  cdevAdd : Int
  deviceCreate : Option { err : Int // err < 0 }

def ProbeAnswers.Binds (answers : ProbeAnswers) : Prop :=
  answers.requestRegion = 0 ∧ 0 ≤ answers.enableDevice ∧ answers.cdevAdd = 0 ∧
    answers.deviceCreate = none

def ProbeAnswers.Succeed (answers : ProbeAnswers) : Prop :=
  (answers.ctrlAlloc = true ∧ answers.aqpAlloc = true) ∧ answers.Binds

/-- `snprintf(c->name, sizeof(c->name), "%s%d", KBUILD_MODNAME, c->number)` -/
def ctrlName (number : Int) : String := "bafs_nvme" ++ number.repr

/-- `MKDEV(MAJOR(first), MINOR(first) + c->number)` -/
def ctrlRdev (first : DevT) (number : Int) : DevT := ⟨first.major, first.minor + number⟩

def charge {P : Type} [DecidableEq P] (held : Resource → P → Int) (pdev : P)
    (change : Resource → Int) : Resource → P → Int :=
  fun r p => if p = pdev then held r p + change r else held r p

namespace CtrlDriver

variable {P : Type} [DecidableEq P]

def acquire (s : CtrlDriver P) (r : Resource) (pdev : P) : CtrlDriver P :=
  { s with held := charge s.held pdev (Pi.single r 1) }

def release (s : CtrlDriver P) (r : Resource) (pdev : P) : CtrlDriver P :=
  { s with held := charge s.held pdev (Pi.single r (-1)) }

/-- Bus mastering is one bit of the device. -/
def setMaster (s : CtrlDriver P) (pdev : P) : CtrlDriver P :=
  { s with held := Function.update s.held .master (Function.update (s.held .master) pdev 1) }

def clearMaster (s : CtrlDriver P) (pdev : P) : CtrlDriver P :=
  { s with held := Function.update s.held .master (Function.update (s.held .master) pdev 0) }

/-- `pci_disable_device` counts down, and with the last count it turns bus mastering off too. -/
def disableDevice (s : CtrlDriver P) (pdev : P) : CtrlDriver P :=
  let s := s.release .enable pdev
  if s.held .enable pdev = 0 then s.clearMaster pdev else s

def setCtrl (s : CtrlDriver P) (c : Nat) (value : Ctrl P) : CtrlDriver P :=
  { s with ctrl := Function.update s.ctrl c value }

/-- The result is the block or the error of `ERR_PTR`; `none` is a write through NULL. -/
def ctrlGet (s : CtrlDriver P) (pdev : P) (number : Int) (answers : ProbeAnswers) :
    Option (Except Int Nat × CtrlDriver P) :=
  if answers.ctrlAlloc = false then some (.error (-ENOMEM), s)
  else
    let c := s.blocks
    let s := { s with blocks := s.blocks + 1 }.acquire .ctrl pdev
    let s := { s with ctrlList := s.ctrlList.listNodeInit (.node c) }
    let s := s.setCtrl c
      { pdev := pdev, number := number, rdev := ⟨0, 0⟩, chrdev := false, name := ctrlName number }
    let s := s.acquire .bar0 pdev
    if answers.aqpAlloc = false then some (.error (-ENOMEM), s)
    else
      let s := s.acquire .aqp pdev
      (s.ctrlList.listInsert () (.node c)).map fun list => (.ok c, { s with ctrlList := list })

def ctrlChrdevRemove (s : CtrlDriver P) (c : Nat) : CtrlDriver P :=
  let ctrl := s.ctrl c
  if ctrl.chrdev then
    let s := s.release .device ctrl.pdev
    let s := s.release .cdev ctrl.pdev
    s.setCtrl c { ctrl with chrdev := false }
  else s

def ctrlPut (s : CtrlDriver P) (c : Option Nat) : Option (CtrlDriver P) :=
  match c with
  | none => some s
  | some c =>
      (s.ctrlList.listRemove (some (.node c))).map fun list =>
        let s := { s with ctrlList := list }.ctrlChrdevRemove c
        let s := s.release .aqp (s.ctrl c).pdev
        s.release .ctrl (s.ctrl c).pdev

def ctrlChrdevCreate (s : CtrlDriver P) (c : Nat) (first : DevT) (answers : ProbeAnswers) :
    Int × CtrlDriver P :=
  let ctrl := s.ctrl c
  if ctrl.chrdev then (0, s)
  else
    let ctrl := { ctrl with rdev := ctrlRdev first ctrl.number }
    let s := s.setCtrl c ctrl
    if answers.cdevAdd ≠ 0 then (answers.cdevAdd, s)
    else
      let s := s.acquire .cdev ctrl.pdev
      match answers.deviceCreate with
      | some err => (err, s.release .cdev ctrl.pdev)
      | none => (0, (s.acquire .device ctrl.pdev).setCtrl c { ctrl with chrdev := true })

def findByPciDev (s : CtrlDriver P) (pdev : P) : Option (Option Nat) :=
  s.ctrlList.ctrlFindByPciDev (fun c => (⟨(s.ctrl c).pdev, c⟩ : CtrlFields P Nat)) (s.blocks + 1) ()
    pdev

/-- The rest of `add_pci_dev` once `ctrl_get` has returned the controller `c`. -/
def bindCtrl (m : ModuleParams) (s : CtrlDriver P) (pdev : P) (c : Nat) (answers : ProbeAnswers) :
    Option (Int × CtrlDriver P) :=
  if answers.requestRegion ≠ 0 then
    (s.ctrlPut (some c)).map fun s => (answers.requestRegion, s)
  else
    let s := s.acquire .region pdev
    if answers.enableDevice < 0 then
      ((s.release .region pdev).ctrlPut (some c)).map fun s => (answers.enableDevice, s)
    else
      let s := s.acquire .enable pdev
      let created := s.ctrlChrdevCreate c m.devFirst answers
      let err := created.1
      let s := created.2
      if err ≠ 0 then
        (((s.disableDevice pdev).release .region pdev).ctrlPut (some c)).map fun s => (err, s)
      else some (0, { s with currCtrls := s.currCtrls + 1 })

def addPciDev (m : ModuleParams) (s : CtrlDriver P) (pdev : P) (answers : ProbeAnswers) :
    Option (Int × CtrlDriver P) :=
  if s.currCtrls ≥ m.numCtrls then some (0, s)
  else
    ((s.setMaster pdev).ctrlGet pdev s.currCtrls answers).bind fun got =>
      match got.1 with
      | .error err => some (err, got.2)
      | .ok c => got.2.bindCtrl m pdev c answers

/-- A device is never NULL here. -/
def removePciDev (s : CtrlDriver P) (pdev : P) : Option (CtrlDriver P) :=
  let s := { s with currCtrls := s.currCtrls - 1 }
  (s.findByPciDev pdev).bind fun c =>
    (s.ctrlPut c).map fun s => ((s.release .region pdev).clearMaster pdev).disableDevice pdev

theorem charge_charge (held : Resource → P → Int) (pdev : P) (first second : Resource → Int) :
    charge (charge held pdev first) pdev second = charge held pdev (first + second) := by
  funext r p
  by_cases own : p = pdev
  · simp only [charge, own, if_true, Pi.add_apply, Int.add_assoc]
  · simp only [charge, own, if_false]

@[simp] theorem charge_zero (held : Resource → P → Int) (pdev : P) : charge held pdev 0 = held := by
  funext r p
  simp [charge]

theorem setMaster_held (s : CtrlDriver P) (pdev : P) : (s.setMaster pdev).held =
    charge s.held pdev (Pi.single .master (1 - s.held .master pdev)) := by
  funext r p
  by_cases bit : r = .master
  · by_cases own : p = pdev <;> simp [setMaster, charge, bit, own]
  · simp [setMaster, charge, bit]

theorem clearMaster_eq (s : CtrlDriver P) (pdev : P) : s.clearMaster pdev = { s with
    held := charge s.held pdev (Pi.single .master (-s.held .master pdev)) } := by
  rw [clearMaster]
  congr 1
  funext r p
  by_cases bit : r = .master
  · by_cases own : p = pdev <;> simp [charge, bit, own]
  · simp [charge, bit]

theorem disableDevice_eq (s : CtrlDriver P) (pdev : P) :
    ∃ lost, s.disableDevice pdev = { s with
      held := charge s.held pdev (Pi.single .enable (-1) + Pi.single .master lost) } := by
  rw [disableDevice]
  split
  · refine ⟨-(s.release .enable pdev).held .master pdev, ?_⟩
    rw [clearMaster_eq, ← charge_charge]
    rfl
  · refine ⟨0, ?_⟩
    rw [Pi.single_zero, add_zero]
    rfl

theorem disableDevice_cleared {s : CtrlDriver P} {pdev : P} (off : s.held .master pdev = 0) :
    s.disableDevice pdev = s.release .enable pdev := by
  rw [disableDevice]
  split
  · have still : (s.release .enable pdev).held .master pdev = 0 := by
      simpa [release, charge] using off
    rw [clearMaster_eq, still, neg_zero, Pi.single_zero, charge_zero]
  · rfl

def detached (s : CtrlDriver P) (pdev : P) : Resource → Int :=
  Pi.single .region (-1) + Pi.single .master (-s.held .master pdev) + Pi.single .enable (-1)

theorem detach_eq (s : CtrlDriver P) (pdev : P) :
    ((s.release .region pdev).clearMaster pdev).disableDevice pdev =
      { s with held := charge s.held pdev (detached s pdev) } := by
  have off : ((s.release .region pdev).clearMaster pdev).held .master pdev = 0 := by
    simp [clearMaster]
  rw [disableDevice_cleared off, clearMaster_eq]
  simp [release, charge_charge, charge, detached, add_assoc]

def newCtrl (pdev : P) (number : Int) : Ctrl P :=
  { pdev := pdev, number := number, rdev := ⟨0, 0⟩, chrdev := false, name := ctrlName number }

def gotten : Resource → Int := Pi.single .ctrl 1 + Pi.single .bar0 1 + Pi.single .aqp 1

def attached : Resource → Int :=
  Pi.single .region 1 + Pi.single .enable 1 + Pi.single .cdev 1 + Pi.single .device 1

def mastered (s : CtrlDriver P) (pdev : P) : Resource → Int :=
  Pi.single .master (1 - s.held .master pdev)

def put (chrdev : Bool) : Resource → Int :=
  (if chrdev then Pi.single .device (-1) + Pi.single .cdev (-1) else 0) +
    Pi.single .aqp (-1) + Pi.single .ctrl (-1)

def leftBehind (answers : ProbeAnswers) : Resource → Int :=
  if answers.ctrlAlloc = false then 0
  else if answers.aqpAlloc = false then Pi.single .ctrl 1 + Pi.single .bar0 1
  else Pi.single .bar0 1

structure NotListed (s s' : CtrlDriver P) (seq : List Nat) (pdev : P) (change : Resource → Int) :
    Prop where
  list : BlockList s'.ctrlList s'.blocks seq
  ctrls : ∀ c ∈ seq, s'.ctrl c = s.ctrl c
  count : s'.currCtrls = s.currCtrls
  held : s'.held = charge s.held pdev change

theorem put_master (chrdev : Bool) : put chrdev .master = 0 := by
  cases chrdev <;> simp [put]

section Calls

variable {s : CtrlDriver P} {seq : List Nat} (list : BlockList s.ctrlList s.blocks seq)

include list

theorem ctrlGet_ok (pdev : P) (number : Int) {answers : ProbeAnswers}
    (ctrl : answers.ctrlAlloc = true) (aqp : answers.aqpAlloc = true) :
    ∃ list', s.ctrlGet pdev number answers = some (.ok s.blocks,
        { s with
          ctrlList := list'
          blocks := s.blocks + 1
          ctrl := Function.update s.ctrl s.blocks (newCtrl pdev number)
          held := charge s.held pdev gotten }) ∧
      BlockList list' (s.blocks + 1) (seq ++ [s.blocks]) := by
  obtain ⟨list', linked, grown⟩ := (list.grow.listNodeInit list.fresh).listInsert list.fresh
    (Nat.lt_succ_self _)
  refine ⟨list', ?_, grown⟩
  simp [ctrlGet, ctrl, aqp, acquire, setCtrl, linked, charge_charge, newCtrl, gotten]

theorem ctrlGet_error (pdev : P) (number : Int) {answers : ProbeAnswers}
    (fails : ¬ (answers.ctrlAlloc = true ∧ answers.aqpAlloc = true)) :
    ∃ s', s.ctrlGet pdev number answers = some (.error (-ENOMEM), s') ∧
      NotListed s s' seq pdev (leftBehind answers) := by
  cases ctrl : answers.ctrlAlloc with
  | false =>
      refine ⟨s, by simp [ctrlGet, ctrl], list, fun _ _ => rfl, rfl, ?_⟩
      simp [leftBehind, ctrl, charge_zero]
  | true =>
      have aqp : answers.aqpAlloc = false := by simpa [ctrl] using fails
      refine ⟨{ s with
        ctrlList := s.ctrlList.listNodeInit (.node s.blocks)
        blocks := s.blocks + 1
        ctrl := Function.update s.ctrl s.blocks (newCtrl pdev number)
        held := charge s.held pdev (leftBehind answers) }, ?_, ?_⟩
      · simp [ctrlGet, ctrl, aqp, acquire, setCtrl, charge_charge, newCtrl, leftBehind]
      · refine ⟨list.grow.listNodeInit list.fresh, ?_, rfl, rfl⟩
        intro c member
        exact Function.update_of_ne (Nat.ne_of_lt (list.bound c member)) ..

theorem ctrlPut_listed {c : Nat} (member : c ∈ seq) :
    ∃ list', s.ctrlPut (some c) = some
        { s with
          ctrlList := list'
          ctrl := Function.update s.ctrl c { s.ctrl c with chrdev := false }
          held := charge s.held (s.ctrl c).pdev (put (s.ctrl c).chrdev) } ∧
      BlockList list' s.blocks (seq.erase c) := by
  obtain ⟨list', unlinked, shorter⟩ := list.listRemove member
  refine ⟨list', ?_, shorter⟩
  rw [ctrlPut, unlinked, Option.map_some]
  cases chrdev : (s.ctrl c).chrdev with
  | false =>
      have same : Function.update s.ctrl c { s.ctrl c with chrdev := false } = s.ctrl := by
        rw [← chrdev]
        exact Function.update_eq_self c s.ctrl
      simp [ctrlChrdevRemove, chrdev, release, same, charge_charge, put]
  | true =>
      simp [ctrlChrdevRemove, chrdev, release, setCtrl, charge_charge, put, add_assoc]

def boundCtrl (first : DevT) (ctrl : Ctrl P) : Ctrl P :=
  { ctrl with rdev := ctrlRdev first ctrl.number, chrdev := true }

omit list in
theorem bindCtrl_ok (m : ModuleParams) {pdev : P} {c : Nat} {answers : ProbeAnswers}
    (own : (s.ctrl c).pdev = pdev) (new : (s.ctrl c).chrdev = false) (succeeds : answers.Binds) :
    s.bindCtrl m pdev c answers = some (0, { s with
      ctrl := Function.update s.ctrl c (boundCtrl m.devFirst (s.ctrl c))
      currCtrls := s.currCtrls + 1
      held := charge s.held pdev attached }) := by
  obtain ⟨region, enable, cdev, device⟩ := succeeds
  subst own
  simp [bindCtrl, region, not_lt.mpr enable, ctrlChrdevCreate, acquire, setCtrl, new, cdev, device,
    charge_charge, boundCtrl, attached]

theorem ctrlPut_new {t : CtrlDriver P} (pdev : P) {c : Nat} (member : c ∈ seq)
    (own : (t.ctrl c).pdev = pdev) (new : (t.ctrl c).chrdev = false)
    (others : ∀ d, d ≠ c → t.ctrl d = s.ctrl d) (sameList : t.ctrlList = s.ctrlList)
    (sameBlocks : t.blocks = s.blocks) (count : t.currCtrls = s.currCtrls) (change : Int)
    (unwound : t.held = charge s.held pdev (Pi.single .master change)) :
    ∃ s', t.ctrlPut (some c) = some s' ∧
      NotListed s s' (seq.erase c) pdev (Pi.single .master change + put false) := by
  obtain ⟨list', ran, shorter⟩ := ctrlPut_listed (sameList ▸ sameBlocks ▸ list) member
  refine ⟨_, ran, shorter, ?_, count, ?_⟩
  · intro d inside
    have other : d ≠ c := (list.nodup.mem_erase_iff.mp inside).1
    rw [← others d other]
    exact Function.update_of_ne other ..
  · rw [own, new, unwound, charge_charge]

omit [DecidableEq P] in
/-- What `ctrl_chrdev_create` leaves when it fails. -/
def numbered (s : CtrlDriver P) (c : Nat) (first : DevT) : CtrlDriver P :=
  s.setCtrl c { s.ctrl c with rdev := ctrlRdev first (s.ctrl c).number }

omit list in
theorem ctrlChrdevCreate_error (first : DevT) {c : Nat} {answers : ProbeAnswers}
    (new : (s.ctrl c).chrdev = false)
    (fails : ¬ (answers.cdevAdd = 0 ∧ answers.deviceCreate = none)) :
    ∃ err, err ≠ 0 ∧ s.ctrlChrdevCreate c first answers =
      (err, s.numbered c first) := by
  by_cases cdev : answers.cdevAdd = 0
  · obtain ⟨err, device⟩ : ∃ err, answers.deviceCreate = some err := by
      rw [← Option.ne_none_iff_exists']
      exact fun created => fails ⟨cdev, created⟩
    refine ⟨err, err.property.ne, ?_⟩
    simp [ctrlChrdevCreate, numbered, new, cdev, device, acquire, release, setCtrl, charge_charge,
      ← Pi.single_add]
  · exact ⟨answers.cdevAdd, cdev, by simp [ctrlChrdevCreate, numbered, new, cdev]⟩

/-- Every failure after `ctrl_get` is unwound down to the mapping; the last of them may turn bus
mastering off. -/
theorem bindCtrl_error (m : ModuleParams) (pdev : P) {c : Nat} {answers : ProbeAnswers}
    (member : c ∈ seq) (own : (s.ctrl c).pdev = pdev) (new : (s.ctrl c).chrdev = false)
    (fails : ¬ answers.Binds) :
    ∃ err s' change, s.bindCtrl m pdev c answers = some (err, s') ∧ err ≠ 0 ∧
      NotListed s s' (seq.erase c) pdev (Pi.single .master change + put false) := by
  have unwind {t : CtrlDriver P} := ctrlPut_new list (t := t) pdev member
  by_cases region : answers.requestRegion = 0
  · by_cases enable : answers.enableDevice < 0
    · obtain ⟨s', ran, gone⟩ := unwind (t := (s.acquire .region pdev).release .region pdev) own new
        (fun _ _ => rfl) rfl rfl rfl 0
        (by simp [acquire, release, charge_charge, ← Pi.single_add])
      refine ⟨answers.enableDevice, s', 0, ?_, enable.ne, gone⟩
      simp [bindCtrl, region, enable, ran]
    · have late : ¬ (answers.cdevAdd = 0 ∧ answers.deviceCreate = none) :=
        fun rest => fails ⟨region, not_lt.mp enable, rest⟩
      obtain ⟨err, bad, created⟩ := ctrlChrdevCreate_error (c := c)
        (s := (s.acquire .region pdev).acquire .enable pdev) m.devFirst new late
      obtain ⟨t, left⟩ : ∃ t, t = ((s.acquire .region pdev).acquire .enable pdev).numbered c
        m.devFirst := ⟨_, rfl⟩
      rw [← left] at created
      obtain ⟨change, disabled⟩ := t.disableDevice_eq pdev
      obtain ⟨s', ran, gone⟩ := unwind (t := (t.disableDevice pdev).release .region pdev)
        (by rw [disabled, left]; simpa [numbered, setCtrl, acquire, release] using own)
        (by rw [disabled, left]; simpa [numbered, setCtrl, acquire, release] using new)
        (fun d other => by rw [disabled, left]; simp [numbered, setCtrl, acquire, release, other])
        (by rw [disabled, left]; rfl) (by rw [disabled, left]; rfl) (by rw [disabled, left]; rfl)
        change
        (by
          rw [disabled, left]
          simp only [numbered, acquire, release, setCtrl, charge_charge, Pi.single_neg]
          congr 1
          abel)
      refine ⟨err, s', change, ?_, bad, gone⟩
      simp only [bindCtrl, region, enable, ne_eq, not_true, if_false, created, bad,
        not_false_eq_true, if_true]
      exact congrArg (Option.map fun s => (err, s)) ran
  · obtain ⟨s', ran, gone⟩ := unwind (t := s) own new (fun _ _ => rfl) rfl rfl rfl 0 (by simp)
    refine ⟨answers.requestRegion, s', 0, ?_, region, gone⟩
    simp [bindCtrl, region, ran]

omit list in
theorem addPciDev_full (m : ModuleParams) (pdev : P) (answers : ProbeAnswers)
    (full : m.numCtrls ≤ s.currCtrls) : s.addPciDev m pdev answers = some (0, s) := by
  simp [addPciDev, full]

theorem addPciDev_ok (m : ModuleParams) (pdev : P) {answers : ProbeAnswers}
    (room : s.currCtrls < m.numCtrls) (succeeds : answers.Succeed) :
    ∃ list', s.addPciDev m pdev answers = some (0, { s with
        ctrlList := list'
        blocks := s.blocks + 1
        ctrl := Function.update s.ctrl s.blocks
          (boundCtrl m.devFirst (newCtrl pdev s.currCtrls))
        currCtrls := s.currCtrls + 1
        held := charge s.held pdev (mastered s pdev + gotten + attached) }) ∧
      BlockList list' (s.blocks + 1) (seq ++ [s.blocks]) := by
  obtain ⟨⟨ctrl, aqp⟩, binds⟩ := succeeds
  obtain ⟨list', got, grown⟩ := ctrlGet_ok (s := s.setMaster pdev) list pdev s.currCtrls ctrl aqp
  refine ⟨list', ?_, grown⟩
  rw [addPciDev, if_neg (not_le.mpr room), got, Option.bind_some]
  refine (bindCtrl_ok m ?_ ?_ binds).trans ?_
  · simp [setMaster, newCtrl]
  · simp [setMaster, newCtrl]
  · simp only [setMaster_held, charge_charge, mastered]
    simp [setMaster]

/-- A probe below the limit that fails lists none. If it fails at once, bus mastering stays on. -/
theorem addPciDev_error (m : ModuleParams) (pdev : P) {answers : ProbeAnswers}
    (room : s.currCtrls < m.numCtrls) (fails : ¬ answers.Succeed) :
    ∃ err s' change, s.addPciDev m pdev answers = some (err, s') ∧ err ≠ 0 ∧
      NotListed s s' seq pdev (Pi.single .master change + leftBehind answers) ∧
      (answers.ctrlAlloc = false → change = 1 - s.held .master pdev) := by
  by_cases got : answers.ctrlAlloc = true ∧ answers.aqpAlloc = true
  · have binds : ¬ answers.Binds := fun binds => fails ⟨got, binds⟩
    obtain ⟨list', ran, grown⟩ := ctrlGet_ok (s := s.setMaster pdev) list pdev s.currCtrls
      got.1 got.2
    obtain ⟨err, s', change, bindRan, bad, gone⟩ := bindCtrl_error
      (s := { s with
        ctrlList := list'
        blocks := s.blocks + 1
        ctrl := Function.update s.ctrl s.blocks (newCtrl pdev s.currCtrls)
        held := charge (s.setMaster pdev).held pdev gotten })
      grown m pdev (List.mem_append_right seq (List.mem_singleton_self s.blocks))
      (by simp [newCtrl]) (by simp [newCtrl]) binds
    have shorter : (seq ++ [(s.setMaster pdev).blocks]).erase s.blocks = seq := by
      rw [List.erase_append_right _ list.fresh]
      simp [setMaster]
    rw [shorter] at gone
    refine ⟨err, s', 1 - s.held .master pdev + change, ?_, bad,
      ⟨gone.list, ?_, gone.count, ?_⟩, ?_⟩
    · rw [addPciDev, if_neg (not_le.mpr room), ran]
      exact bindRan
    · intro c member
      rw [gone.ctrls c member]
      exact Function.update_of_ne (Nat.ne_of_lt (list.bound c member)) ..
    · simp only [gone.held, setMaster_held, charge_charge]
      congr 1
      simp only [leftBehind, got, put, gotten, Pi.single_neg, Pi.single_add]
      simp only [Bool.true_eq_false, Bool.false_eq_true, if_false]
      abel
    · rw [got.1]
      intro absurd
      cases absurd
  · obtain ⟨s', ran, gone⟩ := ctrlGet_error (s := s.setMaster pdev) list pdev s.currCtrls got
    refine ⟨-ENOMEM, s', 1 - s.held .master pdev, ?_, by decide,
      ⟨gone.list, gone.ctrls, gone.count, ?_⟩, fun _ => rfl⟩
    · rw [addPciDev, if_neg (not_le.mpr room), ran]
      rfl
    · rw [gone.held, setMaster_held, charge_charge]

theorem removePciDev_none {pdev : P} (none : ∀ c ∈ seq, (s.ctrl c).pdev ≠ pdev) :
    s.removePciDev pdev = some { s with
      currCtrls := s.currCtrls - 1
      held := charge s.held pdev (detached s pdev) } := by
  have found : s.findByPciDev pdev = some (seq.find? fun c => (s.ctrl c).pdev == pdev) :=
    list.findLoop _
  have nothing : (seq.find? fun c => (s.ctrl c).pdev == pdev) = Option.none := by
    rw [List.find?_eq_none]
    intro c member
    simpa using none c member
  rw [nothing] at found
  have same : { s with currCtrls := s.currCtrls - 1 }.findByPciDev pdev = some Option.none := found
  simp only [removePciDev, same, Option.bind_some, ctrlPut, Option.map_some, detach_eq]
  rfl

theorem removePciDev_some {pdev : P} {c : Nat}
    (found : seq.find? (fun c => (s.ctrl c).pdev == pdev) = some c) :
    ∃ list', s.removePciDev pdev = some { s with
        ctrlList := list'
        ctrl := Function.update s.ctrl c { s.ctrl c with chrdev := false }
        currCtrls := s.currCtrls - 1
        held := charge s.held pdev (put (s.ctrl c).chrdev + detached s pdev) } ∧
      BlockList list' s.blocks (seq.erase c) := by
  have same : { s with currCtrls := s.currCtrls - 1 }.findByPciDev pdev = some (some c) :=
    (list.findLoop _).trans (congrArg some found)
  obtain ⟨list', ran, shorter⟩ := ctrlPut_listed
    (s := { s with currCtrls := s.currCtrls - 1 }) list (List.mem_of_find?_eq_some found)
  have own : (s.ctrl c).pdev = pdev := by simpa using List.find?_some found
  refine ⟨list', ?_, shorter⟩
  simp only [removePciDev, same, Option.bind_some, ran, Option.map_some, own, detach_eq,
    charge_charge]
  simp [detached, charge, put_master]

end Calls

end CtrlDriver

end BafsNvme
