import BafsNvme.Controllers
import BafsNvme.Execution

/-! The PCI core calling the two callbacks: it probes devices that are not bound, and removes each
device whose probe returned 0 once. -/

namespace BafsNvme

open Machine CtrlDriver

def CtrlDriver.ctrls {P : Type} (s : CtrlDriver P) : List Nat :=
  s.ctrlList.walk s.blocks (s.ctrlList.listNext (.head ()))

/-- The driver, the devices whose probe returned 0 and that were not removed since, and as history
the length that `ctrl_list` had when each controller was made. -/
structure PciSystem (P : Type) where
  driver : CtrlDriver P
  bound : List P
  listedAt : Nat → Nat

inductive PciEvent (P : Type) where
  | probe (pdev : P) (answers : ProbeAnswers)
  | remove (pdev : P)

namespace PciSystem

variable {P : Type} [DecidableEq P]

def ctrls (s : PciSystem P) : List Nat := s.driver.ctrls

def recordLength (s : PciSystem P) : Nat → Nat :=
  Function.update s.listedAt s.driver.blocks s.ctrls.length

def step (m : ModuleParams) (s : PciSystem P) : PciEvent P → Option (PciSystem P)
  | .probe pdev answers =>
      if pdev ∈ s.bound then none
      else
        (s.driver.addPciDev m pdev answers).map fun (err, driver) =>
          { driver := driver
            bound := if err = 0 then pdev :: s.bound else s.bound
            listedAt := s.recordLength }
  | .remove pdev =>
      if pdev ∈ s.bound then
        (s.driver.removePciDev pdev).map fun driver =>
          { s with driver := driver, bound := s.bound.erase pdev }
      else none

def machine (m : ModuleParams) (P : Type) [DecidableEq P] : Machine (PciSystem P) (PciEvent P) where
  init s := (∃ h : ListHeap Unit Nat, s.driver.ctrlList = h.listInit ()) ∧
    s.driver.currCtrls = 0 ∧ s.driver.held = (fun _ _ => 0) ∧ s.bound = []
  step := step m

structure Bound (m : ModuleParams) (s : PciSystem P) : Prop where
  list : BlockList s.driver.ctrlList s.driver.blocks s.ctrls
  owners : ∀ c ∈ s.ctrls, ∀ d ∈ s.ctrls, (s.driver.ctrl c).pdev = (s.driver.ctrl d).pdev → c = d
  claimed : ∀ c ∈ s.ctrls, (s.driver.ctrl c).pdev ∈ s.bound
  single : s.bound.Nodup
  usable : ∀ c ∈ s.ctrls, s.driver.ctrl c = boundCtrl m.devFirst
    (newCtrl (s.driver.ctrl c).pdev (s.driver.ctrl c).number)

inductive Effect (m : ModuleParams) (s : PciSystem P) : PciEvent P → PciSystem P → Prop where
  | full {pdev : P} {answers : ProbeAnswers} (new : pdev ∉ s.bound)
      (full : m.numCtrls ≤ s.driver.currCtrls) :
      Effect m s (.probe pdev answers)
        { s with bound := pdev :: s.bound, listedAt := s.recordLength }
  | failed {pdev : P} {answers : ProbeAnswers} {driver : CtrlDriver P} {change : Int}
      (new : pdev ∉ s.bound) (room : s.driver.currCtrls < m.numCtrls) (fails : ¬ answers.Succeed)
      (left : NotListed s.driver driver s.ctrls pdev
        (Pi.single .master change + leftBehind answers))
      (atOnce : answers.ctrlAlloc = false → change = 1 - s.driver.held .master pdev) :
      Effect m s (.probe pdev answers) { s with driver := driver, listedAt := s.recordLength }
  | listed {pdev : P} {answers : ProbeAnswers} {list : ListHeap Unit Nat} (new : pdev ∉ s.bound)
      (room : s.driver.currCtrls < m.numCtrls) (succeeds : answers.Succeed)
      (grown : BlockList list (s.driver.blocks + 1) (s.ctrls ++ [s.driver.blocks])) :
      Effect m s (.probe pdev answers)
        { driver :=
            { ctrlList := list
              blocks := s.driver.blocks + 1
              ctrl := Function.update s.driver.ctrl s.driver.blocks
                (boundCtrl m.devFirst (newCtrl pdev s.driver.currCtrls))
              currCtrls := s.driver.currCtrls + 1
              held := charge s.driver.held pdev (mastered s.driver pdev + gotten + attached) }
          bound := pdev :: s.bound
          listedAt := s.recordLength }
  | bare {pdev : P} (known : pdev ∈ s.bound)
      (missing : ∀ c ∈ s.ctrls, (s.driver.ctrl c).pdev ≠ pdev) :
      Effect m s (.remove pdev)
        { s with
          driver := { s.driver with
            currCtrls := s.driver.currCtrls - 1
            held := charge s.driver.held pdev (detached s.driver pdev) }
          bound := s.bound.erase pdev }
  | removed {pdev : P} {c : Nat} {list : ListHeap Unit Nat} (known : pdev ∈ s.bound)
      (member : c ∈ s.ctrls) (own : (s.driver.ctrl c).pdev = pdev)
      (shorter : BlockList list s.driver.blocks (s.ctrls.erase c)) :
      Effect m s (.remove pdev)
        { s with
          driver := { s.driver with
            ctrlList := list
            ctrl := Function.update s.driver.ctrl c { s.driver.ctrl c with chrdev := false }
            currCtrls := s.driver.currCtrls - 1
            held := charge s.driver.held pdev
              (put (s.driver.ctrl c).chrdev + detached s.driver pdev) }
          bound := s.bound.erase pdev }

theorem step_effect {m : ModuleParams} {s s' : PciSystem P} {e : PciEvent P}
    (list : BlockList s.driver.ctrlList s.driver.blocks s.ctrls)
    (taken : (machine m P).step s e = some s') : Effect m s e s' := by
  cases e with
  | probe pdev answers =>
      simp only [machine, step, Option.ite_none_left_eq_some, Option.map_eq_some_iff] at taken
      obtain ⟨new, ⟨err, driver⟩, ran, rfl⟩ := taken
      by_cases full : m.numCtrls ≤ s.driver.currCtrls
      · rw [addPciDev_full m pdev answers full, Option.some.injEq, Prod.mk.injEq] at ran
        obtain ⟨rfl, rfl⟩ := ran
        exact .full new full
      · have room := not_le.mp full
        by_cases succeeds : answers.Succeed
        · obtain ⟨list', listed, grown⟩ := addPciDev_ok list m pdev room succeeds
          rw [listed, Option.some.injEq, Prod.mk.injEq] at ran
          obtain ⟨rfl, rfl⟩ := ran
          exact .listed new room succeeds grown
        · obtain ⟨err', driver', change, failed, bad, left, atOnce⟩ :=
            addPciDev_error list m pdev room succeeds
          rw [failed, Option.some.injEq, Prod.mk.injEq] at ran
          obtain ⟨rfl, rfl⟩ := ran
          simp only [bad, if_false]
          exact .failed new room succeeds left atOnce
  | remove pdev =>
      simp only [machine, step, Option.ite_none_right_eq_some, Option.map_eq_some_iff] at taken
      obtain ⟨known, driver, ran, rfl⟩ := taken
      cases found : s.ctrls.find? (fun c => (s.driver.ctrl c).pdev == pdev) with
      | none =>
          have missing : ∀ c ∈ s.ctrls, (s.driver.ctrl c).pdev ≠ pdev := by
            simpa [List.find?_eq_none] using found
          rw [removePciDev_none list missing, Option.some.injEq] at ran
          exact ran ▸ .bare known missing
      | some c =>
          obtain ⟨list', removed, shorter⟩ := removePciDev_some list found
          rw [removed, Option.some.injEq] at ran
          have own : (s.driver.ctrl c).pdev = pdev := by simpa using List.find?_some found
          exact ran ▸ .removed known (List.mem_of_find?_eq_some found) own shorter

omit [DecidableEq P] in
theorem ctrls_eq {s : PciSystem P} {seq : List Nat}
    (list : BlockList s.driver.ctrlList s.driver.blocks seq) : s.ctrls = seq :=
  list.walk

omit [DecidableEq P] in
theorem Bound.of_list {m : ModuleParams} {s : PciSystem P} {seq : List Nat}
    (list : BlockList s.driver.ctrlList s.driver.blocks seq)
    (owners : ∀ c ∈ seq, ∀ d ∈ seq, (s.driver.ctrl c).pdev = (s.driver.ctrl d).pdev → c = d)
    (claimed : ∀ c ∈ seq, (s.driver.ctrl c).pdev ∈ s.bound) (single : s.bound.Nodup)
    (usable : ∀ c ∈ seq, s.driver.ctrl c = boundCtrl m.devFirst
      (newCtrl (s.driver.ctrl c).pdev (s.driver.ctrl c).number)) : Bound m s := by
  obtain rfl := ctrls_eq list
  exact ⟨list, owners, claimed, single, usable⟩

theorem Bound.start {m : ModuleParams} {s : PciSystem P} (initial : (machine m P).init s) :
    Bound m s := by
  obtain ⟨⟨h, empty⟩, _, _, unused⟩ := initial
  have list : BlockList s.driver.ctrlList s.driver.blocks [] := empty ▸ .listInit h _
  apply Bound.of_list list
  · exact fun c member => nomatch member
  · exact fun c member => nomatch member
  · rw [unused]
    exact .nil
  · exact fun c member => nomatch member

namespace Bound

variable {m : ModuleParams} {s s' : PciSystem P} {e : PciEvent P}

omit [DecidableEq P] in
theorem not_owner (inv : Bound m s) {pdev : P} (new : pdev ∉ s.bound) {c : Nat}
    (member : c ∈ s.ctrls) : (s.driver.ctrl c).pdev ≠ pdev := by
  intro own
  exact new (own ▸ inv.claimed c member)

theorem step (inv : Bound m s) (taken : (machine m P).step s e = some s') : Bound m s' := by
  cases step_effect inv.list taken with
  | full new _ =>
      exact ⟨inv.list, inv.owners, fun c member => List.mem_cons_of_mem _ (inv.claimed c member),
        inv.single.cons new, inv.usable⟩
  | failed new _ _ left _ =>
      apply Bound.of_list left.list
      · intro c first d second same
        rw [left.ctrls c first, left.ctrls d second] at same
        exact inv.owners c first d second same
      · intro c member
        rw [left.ctrls c member]
        exact inv.claimed c member
      · exact inv.single
      · intro c member
        rw [left.ctrls c member]
        exact inv.usable c member
  | @listed pdev _ _ new _ _ grown =>
      have split (c : Nat) (member : c ∈ s.ctrls ++ [s.driver.blocks]) :
          c ∈ s.ctrls ∧ c ≠ s.driver.blocks ∨ c = s.driver.blocks := by
        rcases List.mem_append.mp member with old | new
        · exact .inl ⟨old, Nat.ne_of_lt (inv.list.bound c old)⟩
        · exact .inr (List.mem_singleton.mp new)
      apply Bound.of_list grown
      · intro c first d second same
        rcases split c first with ⟨oldC, otherC⟩ | rfl <;>
          rcases split d second with ⟨oldD, otherD⟩ | rfl
        · simp only [Function.update_of_ne otherC, Function.update_of_ne otherD] at same
          exact inv.owners c oldC d oldD same
        · simp only [Function.update_of_ne otherC, Function.update_self] at same
          exact absurd same (inv.not_owner new oldC)
        · simp only [Function.update_of_ne otherD, Function.update_self] at same
          exact absurd same.symm (inv.not_owner new oldD)
        · rfl
      · intro c member
        rcases split c member with ⟨old, other⟩ | rfl
        · simp only [Function.update_of_ne other]
          exact List.mem_cons_of_mem _ (inv.claimed c old)
        · simp [boundCtrl, newCtrl]
      · exact inv.single.cons new
      · intro c member
        rcases split c member with ⟨old, other⟩ | rfl
        · simp only [Function.update_of_ne other]
          exact inv.usable c old
        · simp [boundCtrl, newCtrl]
  | @bare pdev _ missing =>
      refine ⟨inv.list, inv.owners, ?_, inv.single.erase pdev, inv.usable⟩
      intro c member
      exact (inv.single.mem_erase_iff).mpr ⟨missing c member, inv.claimed c member⟩
  | @removed pdev c _ _ member own shorter =>
      have kept (d : Nat) (inside : d ∈ s.ctrls.erase c) : d ∈ s.ctrls ∧ d ≠ c :=
        ((inv.list.nodup.mem_erase_iff).mp inside).symm
      apply Bound.of_list shorter
      · intro d first k second same
        obtain ⟨oldD, otherD⟩ := kept d first
        obtain ⟨oldK, otherK⟩ := kept k second
        simp only [Function.update_of_ne otherD, Function.update_of_ne otherK] at same
        exact inv.owners d oldD k oldK same
      · intro d inside
        obtain ⟨old, other⟩ := kept d inside
        simp only [Function.update_of_ne other]
        refine (inv.single.mem_erase_iff).mpr ⟨?_, inv.claimed d old⟩
        intro same
        exact other (inv.owners d old c member (same.trans own.symm))
      · exact inv.single.erase pdev
      · intro d inside
        obtain ⟨old, other⟩ := kept d inside
        simp only [Function.update_of_ne other]
        exact inv.usable d old

end Bound

end PciSystem

end BafsNvme
