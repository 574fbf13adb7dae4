import BafsNvme.ControllerResources

/-! The module around its two callbacks: `bafs_nvme_init` with its unwinding, `bafs_nvme_exit`, and
the two file operations of a device file. The module may be loaded and unloaded any number of
times; the kernel's ledger outlives it. -/

namespace BafsNvme

open Machine CtrlDriver

inductive ModuleResource where
  | chrdevRegion
  | devClass
  | pciDriver
  deriving DecidableEq

/-- `leaving` is inside the call of `pci_unregister_driver`. -/
inductive ModuleStage where
  | absent
  | loaded
  | leaving
  deriving DecidableEq

structure InitAnswers where
  allocChrdevRegion : { err : Int // err ≤ 0 }
  devFirst : DevT
  classCreate : Option { err : Int // err < 0 }
  registerDriver : { err : Int // err ≤ 0 }

/-- What has happened to each device, as history: how often its BAR was mapped, how often the
admin queue could not be allocated after that, and how often it was removed without a
controller. -/
structure DeviceHistory (P : Type) where
  mapped : P → Nat
  orphaned : P → Nat
  bare : P → Nat

structure ModuleSystem (P : Type) where
  pci : PciSystem P
  stage : ModuleStage
  params : ModuleParams
  held : ModuleResource → Int
  history : DeviceHistory P

inductive ModuleEvent (P : Type) where
  | load (numCtrls : Int) (answers : InitAnswers)
  | pci (e : PciEvent P)
  | unload
  | unloaded

structure PciBar where
  start : BitVec 64
  len : BitVec 64

def EBADF : Int := 9

namespace CtrlDriver

variable {P : Type}

/-- `ctrl_find_by_inode`; the address of a controller's `cdev` is known by the controller's
block. -/
def findByInode (s : CtrlDriver P) (iCdev : Nat) : Option (Option Nat) :=
  s.ctrlList.ctrlFindByInode (fun c => (⟨(s.ctrl c).pdev, c⟩ : CtrlFields P Nat)) (s.blocks + 1) ()
    iCdev

/-- The error, or what `vm_iomap_memory` is asked to map. -/
def mmapRegs (s : CtrlDriver P) (bar : P → PciBar) (iCdev : Nat) (vmStart vmEnd : BitVec 64) :
    Option (Except Int (BitVec 64 × BitVec 64)) :=
  (s.findByInode iCdev).map fun found =>
    match found with
    | none => .error (-EBADF)
    | some c =>
        if vmEnd - vmStart > (bar (s.ctrl c).pdev).len then .error (-EINVAL)
        else .ok ((bar (s.ctrl c).pdev).start, vmEnd - vmStart)

/-- No command does anything. -/
def customIoctl (s : CtrlDriver P) (iCdev : Nat) (_cmd : BitVec 32) : Option Int :=
  (s.findByInode iCdev).map fun found =>
    match found with
    | none => -EBADF
    | some _ => 0

end CtrlDriver

namespace DeviceHistory

variable {P : Type} [DecidableEq P]

def count (counts : P → Nat) (pdev : P) (happens : Bool) : P → Nat :=
  fun p => counts p + if p = pdev ∧ happens = true then 1 else 0

def record (history : DeviceHistory P) (m : ModuleParams) (s : PciSystem P) :
    PciEvent P → DeviceHistory P
  | .probe pdev answers =>
      let maps := decide (s.driver.currCtrls < m.numCtrls) && answers.ctrlAlloc
      { history with
        mapped := count history.mapped pdev maps
        orphaned := count history.orphaned pdev (maps && !answers.aqpAlloc) }
  | .remove pdev =>
      let missing := s.ctrls.all fun c => (s.driver.ctrl c).pdev ≠ pdev
      { history with bare := count history.bare pdev missing }

def balance (history : DeviceHistory P) (pdev : P) (controllers : Nat) : Resource → Int
  | .ctrl => controllers + history.orphaned pdev
  | .bar0 => history.mapped pdev
  | .region | .enable => controllers - history.bare pdev
  | .aqp | .cdev | .device | .master => controllers

end DeviceHistory

namespace ModuleSystem

variable {P : Type} [DecidableEq P]

def acquire (s : ModuleSystem P) (r : ModuleResource) : ModuleSystem P :=
  { s with held := s.held + Pi.single r 1 }

def release (s : ModuleSystem P) (r : ModuleResource) : ModuleSystem P :=
  { s with held := s.held - Pi.single r 1 }

def fresh (s : ModuleSystem P) (numCtrls : Int) : ModuleSystem P :=
  { s with
    params := ⟨numCtrls, ⟨0, 0⟩⟩
    pci := { s.pci with
      driver := { s.pci.driver with
        currCtrls := 0
        ctrlList := s.pci.driver.ctrlList.listInit () } } }

def bafsNvmeInit (s : ModuleSystem P) (numCtrls : Int) (answers : InitAnswers) :
    Int × ModuleSystem P :=
  let s := s.fresh numCtrls
  if answers.allocChrdevRegion.val < 0 then (answers.allocChrdevRegion, s)
  else
    let s := { s with params := { s.params with devFirst := answers.devFirst } }
    let s := s.acquire .chrdevRegion
    match answers.classCreate with
    | some err => (err, s.release .chrdevRegion)
    | none =>
        let s := s.acquire .devClass
        if answers.registerDriver.val ≠ 0 then
          (answers.registerDriver, (s.release .devClass).release .chrdevRegion)
        else (0, s.acquire .pciDriver)

def bafsNvmeExit (s : ModuleSystem P) : ModuleSystem P :=
  ((s.release .pciDriver).release .devClass).release .chrdevRegion

/-- `pci_unregister_driver` has the bound devices removed one after another and returns when none
is left; meanwhile none is probed. -/
def pciAllowed (s : ModuleSystem P) : PciEvent P → Bool
  | .probe _ _ => s.stage = .loaded
  | .remove _ => s.stage ≠ .absent

def step (s : ModuleSystem P) : ModuleEvent P → Option (ModuleSystem P)
  | .load numCtrls answers =>
      if s.stage = .absent then
        let (err, s) := s.bafsNvmeInit numCtrls answers
        some { s with stage := if err = 0 then .loaded else .absent }
      else none
  | .pci e =>
      if s.pciAllowed e then
        (s.pci.step s.params e).map fun pci =>
          { s with pci := pci, history := s.history.record s.params s.pci e }
      else none
  | .unload => if s.stage = .loaded then some { s with stage := .leaving } else none
  | .unloaded =>
      if s.stage = .leaving ∧ s.pci.bound = [] then some { s.bafsNvmeExit with stage := .absent }
      else none

def machine (P : Type) [DecidableEq P] : Machine (ModuleSystem P) (ModuleEvent P) where
  init s := s.stage = .absent ∧ s.held = (fun _ => 0) ∧ s.pci.bound = [] ∧
    s.pci.driver.held = (fun _ _ => 0) ∧ s.history = ⟨fun _ => 0, fun _ => 0, fun _ => 0⟩
  step := step

def controllers (s : ModuleSystem P) (pdev : P) : Nat :=
  if s.stage = .absent then 0 else s.pci.owned pdev

/-- The whole ledger, of the devices and of the module itself. Bus mastering is a bit that a
failed probe may leave on. -/
structure LedgerExact (s : ModuleSystem P) : Prop where
  devices : ∀ r, r ≠ .master → ∀ pdev,
    s.pci.driver.held r pdev = s.history.balance pdev (s.controllers pdev) r
  masters : ∀ pdev, s.controllers pdev ≠ 0 → s.pci.driver.held .master pdev = 1
  single : ∀ pdev, s.controllers pdev ≤ 1
  module : ∀ r, s.held r = if s.stage = .absent then 0 else 1

end ModuleSystem

namespace PciSystem

variable {P : Type} [DecidableEq P] {m : ModuleParams} {s s' : PciSystem P} {e : PciEvent P}

def ownedChange (m : ModuleParams) (s : PciSystem P) (q : P) : PciEvent P → Int
  | .probe pdev answers =>
      if q = pdev ∧ s.driver.currCtrls < m.numCtrls ∧ answers.Succeed then 1 else 0
  | .remove pdev => if q = pdev ∧ ∃ c ∈ s.ctrls, (s.driver.ctrl c).pdev = pdev then -1 else 0

theorem owned_le_one (inv : Bound m s) (pdev : P) : s.owned pdev ≤ 1 := by
  rw [owned, List.countP_eq_length_filter]
  have alone : ∀ c ∈ s.ctrls.filter (fun c => (s.driver.ctrl c).pdev = pdev),
      ∀ d ∈ s.ctrls.filter (fun c => (s.driver.ctrl c).pdev = pdev), c = d := by
    intro c first d second
    simp only [List.mem_filter, decide_eq_true_eq] at first second
    exact inv.owners c first.1 d second.1 (first.2.trans second.2.symm)
  have nodup := inv.list.nodup.filter fun c => decide ((s.driver.ctrl c).pdev = pdev)
  cases entries : s.ctrls.filter (fun c => (s.driver.ctrl c).pdev = pdev) with
  | nil => simp
  | cons c rest =>
      cases rest with
      | nil => simp
      | cons d rest =>
          rw [entries] at alone nodup
          have same := alone c (by simp) d (by simp)
          simp [same] at nodup

theorem owned_pos_iff {pdev : P} :
    s.owned pdev ≠ 0 ↔ ∃ c ∈ s.ctrls, (s.driver.ctrl c).pdev = pdev := by
  simp [owned, List.countP_eq_zero]

theorem owned_step (inv : Bound m s) (taken : (machine m P).step s e = some s') (q : P) :
    (s'.owned q : Int) = s.owned q + ownedChange m s q e := by
  simp only [ownedChange]
  cases step_effect inv.list taken with
  | full _ full => 
      simp [not_lt.mpr full]
      rfl
  | failed _ _ fails left _ =>
      rw [owned_congr left.list left.ctrls]
      simp [fails]
  | @listed pdev _ list new room succeeds grown =>
      have old : (s.ctrls.countP fun c => ((Function.update s.driver.ctrl s.driver.blocks
          (boundCtrl m.devFirst (newCtrl pdev s.driver.currCtrls))) c).pdev = q) = s.owned q := by
        apply List.countP_congr
        intro c member
        rw [Function.update_of_ne (Nat.ne_of_lt (inv.list.bound c member))]
      rw [owned_of_list grown, List.countP_append, old]
      by_cases own : q = pdev
      · simp [own, room, succeeds, boundCtrl, newCtrl]
      · simp [own, Ne.symm own, boundCtrl, newCtrl]
  | @bare pdev _ missing =>
      have nobody : ¬ ∃ c ∈ s.ctrls, (s.driver.ctrl c).pdev = pdev := by
        rintro ⟨c, member, own⟩
        exact missing c member own
      simp only [nobody, and_false, if_false, add_zero]
      rfl
  | @removed pdev c _ _ member own shorter =>
      have somebody : ∃ c ∈ s.ctrls, (s.driver.ctrl c).pdev = pdev := ⟨c, member, own⟩
      rw [owned_removed member shorter rfl, own]
      simp only [somebody, and_true]
      split <;> rfl

open DeviceHistory in
theorem balanced_step (inv : Bound m s) (taken : (machine m P).step s e = some s')
    {history : DeviceHistory P} {r : Resource} (counted : r ≠ .master) {q : P}
    (balanced : s.driver.held r q = history.balance q (s.owned q) r) :
    s'.driver.held r q = (history.record m s e).balance q (s'.owned q) r := by
  have owned := owned_step inv taken q
  simp only [ownedChange] at owned
  generalize s'.owned q = now at owned ⊢
  cases step_effect inv.list taken with
  | full _ full =>
      have closed : ¬ s.driver.currCtrls < m.numCtrls := not_lt.mpr full
      simp only [closed, false_and, and_false, if_false, add_zero, Nat.cast_inj] at owned
      rw [owned, balanced]
      cases r <;> simp [balance, record, count, closed]
  | @failed pdev answers driver change _ room fails left _ =>
      simp only [fails, and_false, if_false, add_zero, Nat.cast_inj] at owned
      simp only [owned, left.held, charge, balanced]
      by_cases same : q = pdev
      · subst same
        cases ctrl : answers.ctrlAlloc <;> cases aqp : answers.aqpAlloc <;> cases r <;>
          simp_all [balance, record, count, leftBehind, add_assoc]
      · cases r <;> simp [balance, record, count, same]
  | @listed pdev answers list new room succeeds grown =>
      obtain ⟨ctrl, aqp⟩ := succeeds.1
      simp only [room, succeeds, and_true] at owned
      simp only [charge, balanced, gained, counted, if_false]
      by_cases same : q = pdev
      · subst same
        simp only [if_true] at owned ⊢
        cases r <;> simp [balance, record, count, owned, room, ctrl, aqp] <;> omega
      · simp only [same, if_false, add_zero, Nat.cast_inj] at owned ⊢
        cases r <;> simp [balance, record, count, owned, same]
  | @bare pdev _ missing =>
      have nobody : ¬ ∃ c ∈ s.ctrls, (s.driver.ctrl c).pdev = pdev := by
        rintro ⟨c, member, own⟩
        exact missing c member own
      simp only [nobody, and_false, if_false, add_zero, Nat.cast_inj] at owned
      simp only [owned, charge, balanced, detached]
      by_cases same : q = pdev
      · subst same
        cases r <;> simp_all [balance, record, count] <;> omega
      · cases r <;> simp [balance, record, count, same]
  | @removed pdev c _ _ member own shorter =>
      have somebody : ∃ c ∈ s.ctrls, (s.driver.ctrl c).pdev = pdev := ⟨c, member, own⟩
      have present : ¬ ∀ c ∈ s.ctrls, ¬ (s.driver.ctrl c).pdev = pdev :=
        fun missing => missing c member own
      have complete : (s.driver.ctrl c).chrdev = true := by
        rw [inv.usable c member]
        rfl
      simp only [somebody, and_true] at owned
      simp only [charge, balanced, complete, lost, counted, if_false]
      by_cases same : q = pdev
      · subst same
        simp only [if_true] at owned ⊢
        cases r <;> simp [balance, record, count, owned, present] <;> omega
      · simp only [same, if_false, add_zero, Nat.cast_inj] at owned ⊢
        cases r <;> simp [balance, record, count, owned, same]

/-- Devices with a controller keep bus mastering on. -/
theorem masters_step (inv : Bound m s) (taken : (machine m P).step s e = some s')
    (masters : ∀ q, s.owned q ≠ 0 → s.driver.held .master q = 1) {q : P}
    (some_ctrl : s'.owned q ≠ 0) : s'.driver.held .master q = 1 := by
  have owned := owned_step inv taken q
  simp only [ownedChange] at owned
  generalize s'.owned q = now at owned some_ctrl
  cases step_effect inv.list taken with
  | full _ full =>
      have closed : ¬ s.driver.currCtrls < m.numCtrls := not_lt.mpr full
      simp only [closed, false_and, and_false, if_false, add_zero, Nat.cast_inj] at owned
      exact masters q (owned ▸ some_ctrl)
  | @failed pdev answers driver change new _ fails left _ =>
      simp only [fails, and_false, if_false, add_zero, Nat.cast_inj] at owned
      subst owned
      have other : q ≠ pdev := by
        rintro rfl
        exact some_ctrl (owned_new inv new)
      simpa only [left.held, charge, other, if_false] using masters q some_ctrl
  | @listed pdev answers list new room succeeds grown =>
      simp only [charge, gained, if_true]
      split
      · next same =>
        rw [same]
        omega
      · next other =>
        simp only [other, false_and, if_false, add_zero, Nat.cast_inj] at owned
        exact masters q (owned ▸ some_ctrl)
  | @bare pdev _ missing =>
      have nobody : ¬ ∃ c ∈ s.ctrls, (s.driver.ctrl c).pdev = pdev := by
        rintro ⟨c, member, own⟩
        exact missing c member own
      simp only [nobody, and_false, if_false, add_zero, Nat.cast_inj] at owned
      subst owned
      have other : q ≠ pdev := by
        rintro rfl
        exact nobody (owned_pos_iff.mp some_ctrl)
      simpa only [charge, other, if_false] using masters q some_ctrl
  | @removed pdev c _ _ member own shorter =>
      have somebody : ∃ c ∈ s.ctrls, (s.driver.ctrl c).pdev = pdev := ⟨c, member, own⟩
      have most := owned_le_one inv q
      by_cases same : q = pdev
      · simp only [same, somebody, and_self, if_true] at owned most
        omega
      · simp only [same, false_and, if_false, add_zero, Nat.cast_inj] at owned
        simpa only [charge, same, if_false] using masters q (owned ▸ some_ctrl)

end PciSystem

namespace ModuleSystem

variable {P : Type} [DecidableEq P] {s s' : ModuleSystem P} {e : ModuleEvent P}

structure LifecycleInv (s : ModuleSystem P) : Prop where
  idle : s.stage = .absent → s.pci.bound = []
  bound : s.stage ≠ .absent → PciSystem.Bound s.params s.pci
  ledger : s.LedgerExact

omit [DecidableEq P] in
theorem bafsNvmeInit_cases (s : ModuleSystem P) (numCtrls : Int) (answers : InitAnswers) :
    ∃ err params held, s.bafsNvmeInit numCtrls answers =
        (err, { s.fresh numCtrls with params := params, held := held }) ∧
      held = if err = 0 then fun r => s.held r + 1 else s.held := by
  by_cases region : answers.allocChrdevRegion.val < 0
  · refine ⟨answers.allocChrdevRegion, _, s.held, by rw [bafsNvmeInit, if_pos region]; rfl, ?_⟩
    rw [if_neg region.ne]
  · cases created : answers.classCreate with
    | some err =>
        refine ⟨err, ⟨numCtrls, answers.devFirst⟩, s.held, ?_, by rw [if_neg err.property.ne]⟩
        simp [bafsNvmeInit, region, created, acquire, release, fresh]
    | none =>
        by_cases registered : answers.registerDriver.val = 0
        · refine ⟨0, ⟨numCtrls, answers.devFirst⟩, fun r => s.held r + 1, ?_, by rw [if_pos rfl]⟩
          simp only [bafsNvmeInit, region, created, registered, acquire, fresh, if_false, ne_eq,
            not_true]
          congr 2
          funext r
          cases r <;> simp
        · refine ⟨answers.registerDriver, ⟨numCtrls, answers.devFirst⟩, s.held, ?_,
            by rw [if_neg registered]⟩
          simp [bafsNvmeInit, region, created, registered, acquire, release, fresh]

theorem fresh_bound (pci : PciSystem P) (m : ModuleParams) (unused : pci.bound = [])
    (empty : ∃ h : ListHeap Unit Nat, pci.driver.ctrlList = h.listInit ()) :
    PciSystem.Bound m pci ∧ ∀ pdev, pci.owned pdev = 0 := by
  obtain ⟨h, empty⟩ := empty
  have list : BlockList pci.driver.ctrlList pci.driver.blocks [] := empty ▸ .listInit h _
  refine ⟨PciSystem.Bound.of_list list nofun nofun ?_ nofun, fun pdev => ?_⟩
  · rw [unused]
    exact .nil
  · rw [PciSystem.owned_of_list list]
    rfl

theorem owned_unbound {m : ModuleParams} {pci : PciSystem P} (inv : PciSystem.Bound m pci)
    (unused : pci.bound = []) (pdev : P) : pci.owned pdev = 0 :=
  PciSystem.owned_new inv (by rw [unused]; exact List.not_mem_nil)

namespace LifecycleInv

theorem start (initial : (machine P).init s) : LifecycleInv s := by
  obtain ⟨absent, nothing, unused, none, never⟩ := initial
  have nobody (pdev : P) : s.controllers pdev = 0 := by rw [controllers, if_pos absent]
  refine ⟨fun _ => unused, fun present => absurd absent present, ?_, ?_, ?_, ?_⟩
  · intro r _ pdev
    rw [none, nobody, never]
    cases r <;> simp [DeviceHistory.balance]
  · intro pdev some_ctrl
    exact absurd (nobody pdev) some_ctrl
  · intro pdev
    rw [nobody]
    exact Nat.zero_le 1
  · intro r
    rw [nothing, if_pos absent]

theorem ledger_congr (inv : LifecycleInv s) (held : s'.pci.driver.held = s.pci.driver.held)
    (history : s'.history = s.history) (same : ∀ pdev, s'.controllers pdev = s.controllers pdev)
    (module : ∀ r, s'.held r = if s'.stage = .absent then 0 else 1) : s'.LedgerExact where
  devices r counted pdev := by
    rw [held, history, same]
    exact inv.ledger.devices r counted pdev
  masters pdev some_ctrl := by
    rw [same] at some_ctrl
    rw [held]
    exact inv.ledger.masters pdev some_ctrl
  single pdev := by
    rw [same]
    exact inv.ledger.single pdev
  module := module

theorem load (inv : LifecycleInv s) (absent : s.stage = .absent) (numCtrls : Int)
    (answers : InitAnswers) :
    LifecycleInv { (s.bafsNvmeInit numCtrls answers).2 with
      stage := if (s.bafsNvmeInit numCtrls answers).1 = 0 then .loaded else .absent } := by
  obtain ⟨err, params, held, ran, obtained⟩ := s.bafsNvmeInit_cases numCtrls answers
  have unused := inv.idle absent
  obtain ⟨bound, nobody⟩ := fresh_bound (s.fresh numCtrls).pci params unused ⟨_, rfl⟩
  rw [ran]
  refine ⟨fun _ => unused, fun _ => bound, inv.ledger_congr rfl rfl ?_ ?_⟩
  · intro pdev
    simp only [controllers, absent, if_true, nobody, ite_self]
  · intro r
    have nothing := inv.ledger.module r
    rw [absent, if_pos rfl] at nothing
    rw [obtained]
    by_cases succeeded : err = 0 <;> simp [succeeded, nothing]

theorem pci (inv : LifecycleInv s) (present : s.stage ≠ .absent) {e : PciEvent P}
    {pci : PciSystem P} (taken : s.pci.step s.params e = some pci) :
    LifecycleInv { s with pci := pci, history := s.history.record s.params s.pci e } := by
  have bound := inv.bound present
  have counts (pdev : P) : s.controllers pdev = s.pci.owned pdev := if_neg present
  refine ⟨fun absent => absurd absent present, fun _ => bound.step taken, ?_, ?_, ?_, ?_⟩
  · intro r counted pdev
    simp only [controllers, present, if_false]
    refine PciSystem.balanced_step bound taken counted ?_
    rw [← counts]
    exact inv.ledger.devices r counted pdev
  · intro pdev some_ctrl
    simp only [controllers, present, if_false] at some_ctrl
    refine PciSystem.masters_step bound taken ?_ some_ctrl
    intro q some_ctrl
    rw [← counts] at some_ctrl
    exact inv.ledger.masters q some_ctrl
  · intro pdev
    simp only [controllers, present, if_false]
    exact PciSystem.owned_le_one (bound.step taken) pdev
  · exact inv.ledger.module

theorem step (inv : LifecycleInv s) (taken : s.step e = some s') : LifecycleInv s' := by
  cases e with
  | load numCtrls answers =>
      rw [ModuleSystem.step, Option.ite_none_right_eq_some] at taken
      obtain ⟨absent, same⟩ := taken
      exact Option.some.inj same ▸ inv.load absent numCtrls answers
  | pci e =>
      rw [ModuleSystem.step, Option.ite_none_right_eq_some] at taken
      obtain ⟨allowed, same⟩ := taken
      obtain ⟨pci, taken, rfl⟩ := Option.map_eq_some_iff.mp same
      have present : s.stage ≠ .absent := by
        rintro absent
        cases e <;> simp [pciAllowed, absent] at allowed
      exact inv.pci present taken
  | unload =>
      rw [ModuleSystem.step, Option.ite_none_right_eq_some] at taken
      obtain ⟨loaded, same⟩ := taken
      have present : s.stage ≠ .absent := by
        rw [loaded]
        decide
      obtain rfl := Option.some.inj same
      refine ⟨nofun, fun _ => inv.bound present, inv.ledger_congr rfl rfl ?_ ?_⟩
      · intro pdev
        simp [controllers, loaded]
      · intro r
        have all := inv.ledger.module r
        rw [if_neg present] at all
        exact all
  | unloaded =>
      rw [ModuleSystem.step, Option.ite_none_right_eq_some] at taken
      obtain ⟨⟨leaving, unused⟩, same⟩ := taken
      have present : s.stage ≠ .absent := by
        rw [leaving]
        decide
      have nobody := owned_unbound (inv.bound present) unused
      obtain rfl := Option.some.inj same
      refine ⟨fun _ => unused, fun other => absurd rfl other, inv.ledger_congr rfl rfl ?_ ?_⟩
      · intro pdev
        simp [controllers, leaving, nobody]
      · intro r
        have all := inv.ledger.module r
        rw [if_neg present] at all
        cases r <;> simp [bafsNvmeExit, release, all]

end LifecycleInv

theorem lifecycle_inv (reached : Reachable (machine P) anyEvent s) : LifecycleInv s :=
  reached.invariant (fun _ => .start) fun _ _ _ inv _ taken => inv.step taken

/-- Over any number of loads and unloads the ledger is exact. While the module is not loaded it
holds nothing, and of its devices only the BAR mappings and the structures of half-made
controllers, and it is short of what it gave back for devices without a controller. -/
theorem ledger_exact (s : ModuleSystem P) (reached : Reachable (machine P) anyEvent s) :
    s.LedgerExact :=
  (lifecycle_inv reached).ledger

def untouched : ModuleSystem Nat :=
  ⟨PciSystem.loaded, .absent, ⟨0, ⟨0, 0⟩⟩, fun _ => 0, ⟨fun _ => 0, fun _ => 0, fun _ => 0⟩⟩

theorem untouched_init : (machine Nat).init untouched := ⟨rfl, rfl, rfl, rfl, rfl⟩

def loadsFor : ModuleEvent Nat :=
  .load 1 ⟨⟨0, le_rfl⟩, ⟨240, 0⟩, none, ⟨0, le_rfl⟩⟩

theorem ledger_exact_reloaded :
    ∃ s : ModuleSystem Nat, s.stage = .loaded ∧ s.history.mapped 0 = 1 ∧ s.history.bare 1 = 1 ∧
      s.LedgerExact := by
  have ended : ((machine Nat).run untouched [loadsFor, .pci (.probe 0 PciSystem.allSucceed),
      .pci (.probe 1 PciSystem.allSucceed), .unload, .pci (.remove 1), .pci (.remove 0), .unloaded,
      loadsFor]).map (fun s => (s.stage, s.history.mapped 0, s.history.bare 1)) =
        some (.loaded, 1, 1) := by
    decide +kernel
  obtain ⟨s, _, reached, facts⟩ := (Reachable.start untouched_init).computed ended
  obtain ⟨stage, mapped, bare⟩ := Prod.mk.inj facts |>.imp_right Prod.mk.inj
  exact ⟨s, stage, mapped, bare, ledger_exact s reached⟩

/-- The file operations reach exactly the listed controllers, each of them a complete one of a
bound device, and what is mapped begins at its own BAR and is no longer than the BAR. -/
theorem file_operations_exact (s : ModuleSystem P) (reached : Reachable (machine P) anyEvent s)
    (present : s.stage ≠ .absent) (bar : P → PciBar) (iCdev : Nat) (vmStart vmEnd : BitVec 64)
    (cmd : BitVec 32) :
    let pdev := (s.pci.driver.ctrl iCdev).pdev
    s.pci.driver.customIoctl iCdev cmd = some (if iCdev ∈ s.pci.ctrls then 0 else -EBADF) ∧
      s.pci.driver.mmapRegs bar iCdev vmStart vmEnd =
        some (if iCdev ∈ s.pci.ctrls then
          if vmEnd - vmStart ≤ (bar pdev).len then .ok ((bar pdev).start, vmEnd - vmStart)
          else .error (-EINVAL)
        else .error (-EBADF)) ∧
      (iCdev ∈ s.pci.ctrls → pdev ∈ s.pci.bound ∧ (s.pci.driver.ctrl iCdev).chrdev = true) := by
  intro pdev
  have inv := (lifecycle_inv reached).bound present
  have found : s.pci.driver.findByInode iCdev = some (s.pci.ctrls.find? fun c => c == iCdev) :=
    inv.list.findLoop _
  by_cases member : iCdev ∈ s.pci.ctrls
  · have own : (s.pci.ctrls.find? fun c => c == iCdev) = some iCdev := by
      cases first : s.pci.ctrls.find? fun c => c == iCdev with
      | none => exact absurd (beq_self_eq_true iCdev) (List.find?_eq_none.mp first iCdev member)
      | some c =>
          have hit : (c == iCdev) = true := List.find?_some (p := fun c => c == iCdev) first
          rw [eq_of_beq hit]
    refine ⟨?_, ?_, fun _ => ⟨inv.claimed iCdev member, ?_⟩⟩
    · simp [customIoctl, found, own, member]
    · by_cases fits : vmEnd - vmStart ≤ (bar pdev).len
      · have short : ¬ (bar pdev).len < vmEnd - vmStart := BitVec.not_lt.mpr fits
        simp [mmapRegs, found, own, member, fits, short, pdev]
      · have long : (bar pdev).len < vmEnd - vmStart := BitVec.not_le.mp fits
        simp [mmapRegs, found, own, member, fits, long, pdev]
    · rw [inv.usable iCdev member]
      rfl
  · have nobody : (s.pci.ctrls.find? fun c => c == iCdev) = none := by
      rw [List.find?_eq_none]
      intro c listed same
      exact member (eq_of_beq same ▸ listed)
    refine ⟨?_, ?_, fun listed => absurd listed member⟩
    · simp [customIoctl, found, nobody, member]
    · simp [mmapRegs, found, nobody, member]

theorem file_operations_exact_leaving :
    ∃ s : ModuleSystem Nat, s.stage = .leaving ∧ s.pci.ctrls = [0] ∧
      s.pci.driver.customIoctl 0 0 = some (if 0 ∈ s.pci.ctrls then 0 else -EBADF) := by
  have ended : ((machine Nat).run untouched [loadsFor, .pci (.probe 0 PciSystem.allSucceed),
      .unload]).map (fun s => (s.stage, s.pci.ctrls)) = some (.leaving, [0]) := by
    decide +kernel
  obtain ⟨s, _, reached, facts⟩ := (Reachable.start untouched_init).computed ended
  obtain ⟨leaving, ctrls⟩ := Prod.mk.inj facts
  have present : s.stage ≠ .absent := by
    rw [leaving]
    decide
  exact ⟨s, leaving, ctrls,
    (file_operations_exact s reached present (fun _ => ⟨0, 0⟩) 0 0 0 0).1⟩

end ModuleSystem

end BafsNvme
