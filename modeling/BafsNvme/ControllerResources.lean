import BafsNvme.ControllerNumbers

/-! What the driver holds for its devices, against the controllers in `ctrl_list`. -/

namespace BafsNvme

namespace CtrlDriver

theorem leftBehind_other (answers : ProbeAnswers) {r : Resource} (notCtrl : r ≠ .ctrl)
    (notBar : r ≠ .bar0) : leftBehind answers r = 0 := by
  unfold leftBehind
  split
  · rfl
  · split <;> simp [notCtrl, notBar]

theorem leftBehind_mapped {answers : ProbeAnswers} (ctrl : answers.ctrlAlloc = true) :
    leftBehind answers .bar0 = 1 := by
  unfold leftBehind
  rw [ctrl]
  split
  · contradiction
  · split <;> simp

theorem gained {P : Type} (s : CtrlDriver P) (pdev : P) (r : Resource) :
    (mastered s pdev + gotten + attached) r =
      if r = .master then 1 - s.held .master pdev else 1 := by
  cases r <;> simp [mastered, gotten, attached]

theorem lost {P : Type} (s : CtrlDriver P) (pdev : P) (r : Resource) :
    (put true + detached s pdev) r =
      if r = .bar0 then 0 else if r = .master then -s.held .master pdev else -1 := by
  cases r <;> simp [put, detached]

end CtrlDriver

namespace PciSystem

open Machine CtrlDriver

variable {P : Type} [DecidableEq P] {m : ModuleParams} {s s' : PciSystem P} {e : PciEvent P}

def owned (s : PciSystem P) (pdev : P) : Nat :=
  s.ctrls.countP fun c => (s.driver.ctrl c).pdev = pdev

def ResourcesExact (s : PciSystem P) : Prop := ∀ r pdev, s.driver.held r pdev = s.owned pdev

def Succeeds (_ : PciSystem P) : PciEvent P → Prop
  | .probe _ answers => answers.Succeed
  | .remove _ => False

theorem owned_of_list {seq : List Nat} (list : BlockList s.driver.ctrlList s.driver.blocks seq)
    (pdev : P) : s.owned pdev = seq.countP fun c => (s.driver.ctrl c).pdev = pdev := by
  rw [owned, ctrls_eq list]

theorem owned_new (inv : Bound m s) {pdev : P} (new : pdev ∉ s.bound) : s.owned pdev = 0 := by
  rw [owned, List.countP_eq_zero]
  intro c member
  simpa using inv.not_owner new member

theorem owned_congr {t : PciSystem P} (list : BlockList t.driver.ctrlList t.driver.blocks s.ctrls)
    (ctrls : ∀ c ∈ s.ctrls, t.driver.ctrl c = s.driver.ctrl c) (pdev : P) :
    t.owned pdev = s.owned pdev := by
  rw [owned_of_list list, owned]
  apply List.countP_congr
  intro c member
  rw [ctrls c member]

theorem owned_listed (inv : Counted m s) {t : PciSystem P} {pdev : P} {number : Int}
    (list : BlockList t.driver.ctrlList t.driver.blocks (s.ctrls ++ [s.driver.blocks]))
    (ctrl : t.driver.ctrl = Function.update s.driver.ctrl s.driver.blocks
      (boundCtrl m.devFirst (newCtrl pdev number))) (other : P) :
    t.owned other = s.owned other + if other = pdev then 1 else 0 := by
  rw [owned_of_list list, List.countP_append, owned, ctrl]
  congr 1
  · apply List.countP_congr
    intro c member
    rw [Function.update_of_ne (Nat.ne_of_lt (inv.list.bound c member))]
  · simp [List.countP_cons, boundCtrl, newCtrl, eq_comm]

theorem owned_removed {t : PciSystem P} {c : Nat} (member : c ∈ s.ctrls)
    (list : BlockList t.driver.ctrlList t.driver.blocks (s.ctrls.erase c))
    (ctrl : t.driver.ctrl =
      Function.update s.driver.ctrl c { s.driver.ctrl c with chrdev := false }) (other : P) :
    (t.owned other : Int) = s.owned other - if other = (s.driver.ctrl c).pdev then 1 else 0 := by
  have owners (d : Nat) : (t.driver.ctrl d).pdev = (s.driver.ctrl d).pdev := by
    rw [ctrl]
    by_cases same : d = c
    · simp [same]
    · rw [Function.update_of_ne same]
  rw [owned_of_list list, owned]
  simp only [owners, List.countP_erase, member, true_and, decide_eq_true_eq]
  by_cases own : other = (s.driver.ctrl c).pdev
  · have positive : 0 < s.ctrls.countP fun c => (s.driver.ctrl c).pdev = other :=
      List.countP_pos_iff.mpr ⟨c, member, by simpa using own.symm⟩
    simp only [own, if_true] at positive ⊢
    push_cast [Nat.cast_sub positive]
    rfl
  · simp [own, Ne.symm own]

omit [DecidableEq P] in
theorem Counted.complete (inv : Counted m s) {c : Nat} (member : c ∈ s.ctrls) :
    (s.driver.ctrl c).chrdev = true := by
  rw [inv.usable c member]
  rfl

theorem ResourcesExact.start (initial : (machine m P).init s) : ResourcesExact s := by
  obtain ⟨⟨h, empty⟩, _, nothing, _⟩ := initial
  have list : BlockList s.driver.ctrlList s.driver.blocks [] := empty ▸ .listInit h _
  intro r pdev
  rw [nothing, owned_of_list list]
  rfl

/-- A step within the limit keeps the account of the kinds that are given back at every failure
and at removal. -/
theorem returned_step (inv : Counted m s) {r : Resource} (notCtrl : r ≠ .ctrl) (notBar : r ≠ .bar0)
    (notMaster : r ≠ .master) (holds : ∀ pdev, s.driver.held r pdev = s.owned pdev)
    (limit : WithinLimit m s e) (taken : (machine m P).step s e = some s') (other : P) :
    s'.driver.held r other = s'.owned other := by
  cases step_effect inv.list taken with
  | full _ full => exact absurd (inv.room limit) (not_lt.mpr full)
  | failed _ _ _ left _ =>
      rw [owned_congr left.list left.ctrls, ← holds other, left.held]
      simp [charge, notMaster, leftBehind_other _ notCtrl notBar]
  | @listed pdev _ list new _ _ grown =>
      rw [owned_listed inv grown rfl, Nat.cast_add, ← holds other]
      simp only [charge, gained, notMaster, if_false]
      split <;> simp
  | bare known missing =>
      obtain ⟨c, member, own⟩ := inv.covered _ known
      exact absurd own (missing c member)
  | @removed pdev c _ _ member own shorter =>
      rw [owned_removed member shorter rfl, own, ← holds other]
      simp only [charge, inv.complete member, lost, notBar, notMaster, if_false]
      split
      · rfl
      · exact (Int.sub_zero _).symm

theorem resourcesExact_step (inv : Counted m s) (holds : ResourcesExact s)
    (limit : WithinLimit m s e) (taken : (machine m P).step s e = some s') :
    ResourcesExact s' ↔ Succeeds s e := by
  cases step_effect inv.list taken with
  | full _ full => exact absurd (inv.room limit) (not_lt.mpr full)
  | @failed pdev answers driver change new _ fails left atOnce =>
      refine iff_of_false ?_ fails
      intro exact
      have account (r : Resource) : driver.held r pdev = 0 := by
        rw [exact r pdev, owned_congr left.list left.ctrls, owned_new inv.toBound new]
        rfl
      simp only [left.held, charge, if_true] at account
      cases ctrl : answers.ctrlAlloc with
      | false =>
          -- nothing was obtained, but bus mastering was turned on before
          have mastering := account .master
          simp [leftBehind, ctrl, atOnce ctrl] at mastering
      | true =>
          have mapping := account .bar0
          have before := holds .bar0 pdev
          rw [owned_new inv.toBound new] at before
          rw [Pi.add_apply, leftBehind_mapped ctrl, before] at mapping
          simp at mapping
  | @listed pdev _ list new _ succeeds grown =>
      refine iff_of_true ?_ succeeds
      intro r other
      rw [owned_listed inv grown rfl, Nat.cast_add, ← holds r other]
      simp only [charge, gained]
      split
      · next same =>
        have nothing := holds .master pdev
        rw [owned_new inv.toBound new] at nothing
        split
        · next bit =>
          rw [bit, same, nothing]
          rfl
        · rfl
      · exact (Int.add_zero _).symm
  | bare known missing =>
      obtain ⟨c, member, own⟩ := inv.covered _ known
      exact absurd own (missing c member)
  | @removed pdev c _ _ member own shorter =>
      refine iff_of_false ?_ id
      intro exact
      have mapping := exact .bar0 pdev
      rw [owned_removed member shorter rfl, own, ← holds .bar0 pdev] at mapping
      simp only [charge, if_true, inv.complete member, lost] at mapping
      omega

theorem returned_exact (m : ModuleParams) (s : PciSystem P)
    (reached : Reachable (machine m P) (WithinLimit m) s) {r : Resource} (notCtrl : r ≠ .ctrl)
    (notBar : r ≠ .bar0) (notMaster : r ≠ .master) (pdev : P) :
    s.driver.held r pdev = s.owned pdev := by
  have account : Counted m s ∧ ∀ pdev, s.driver.held r pdev = s.owned pdev := by
    apply reached.invariant (P := fun s => Counted m s ∧ ∀ pdev, s.driver.held r pdev = s.owned pdev)
    · exact fun s initial => ⟨.start initial, ResourcesExact.start initial r⟩
    · intro s e s' ⟨inv, holds⟩ limit taken
      exact ⟨inv.step limit taken, returned_step inv notCtrl notBar notMaster holds limit taken⟩
  exact account.2 pdev

/-- In a run within the limit each controller in the list has one of everything throughout and
nothing else is held, if and only if every probe succeeds and no device is removed. -/
theorem resources_exact_iff (m : ModuleParams) (s last : PciSystem P)
    (initial : (machine m P).init s) (events : List (PciEvent P))
    (limit : RunMeets (machine m P) (WithinLimit m) s events)
    (ended : (machine m P).run s events = some last) :
    RunHolds (machine m P) ResourcesExact s events ↔ RunMeets (machine m P) Succeeds s events :=
  runHolds_iff (Counted m) (fun _ _ _ inv permitted taken => inv.step permitted taken)
    (fun _ _ _ inv holds permitted taken => resourcesExact_step inv holds permitted taken) events
    (.start initial) (.start initial) limit ended

instance (answers : ProbeAnswers) : Decidable answers.Succeed :=
  inferInstanceAs (Decidable ((_ ∧ _) ∧ _ ∧ _ ∧ _ ∧ _))

instance (s : PciSystem P) (e : PciEvent P) : Decidable (Succeeds s e) :=
  match e with
  | .probe _ answers => inferInstanceAs (Decidable answers.Succeed)
  | .remove _ => inferInstanceAs (Decidable False)

theorem resources_exact_two_devices :
    RunHolds (machine ⟨8, ⟨240, 0⟩⟩ Nat) ResourcesExact loaded
      [.probe 0 allSucceed, .probe 1 allSucceed] := by
  have limited : (runAllowed (machine ⟨8, ⟨240, 0⟩⟩ Nat) (WithinLimit ⟨8, ⟨240, 0⟩⟩) loaded
      [.probe 0 allSucceed, .probe 1 allSucceed]).isSome = true := by
    decide +kernel
  have succeeded : (runAllowed (machine ⟨8, ⟨240, 0⟩⟩ Nat) Succeeds loaded
      [.probe 0 allSucceed, .probe 1 allSucceed]).isSome = true := by
    decide +kernel
  obtain ⟨_, ranLimited⟩ := Option.isSome_iff_exists.mp limited
  obtain ⟨last, ran⟩ := Option.isSome_iff_exists.mp succeeded
  obtain ⟨meets, reached⟩ := runAllowed_meets ran
  exact (resources_exact_iff ⟨8, ⟨240, 0⟩⟩ loaded last (loaded_init _) _
    (runAllowed_meets ranLimited).1 reached).mpr meets

/-- A device that comes and goes leaves its BAR mapped. -/
theorem mapping_outlives_device :
    ¬ ∀ (m : ModuleParams) (s last : PciSystem Nat) (events : List (PciEvent Nat)),
      (machine m Nat).init s → RunMeets (machine m Nat) (WithinLimit m) s events →
        (machine m Nat).run s events = some last →
          RunHolds (machine m Nat) ResourcesExact s events := by
  intro resources_always_exact
  have limited : (runAllowed (machine ⟨8, ⟨240, 0⟩⟩ Nat) (WithinLimit ⟨8, ⟨240, 0⟩⟩) loaded
      [.probe 0 allSucceed, .remove 0]).map (fun s => (s.driver.held .bar0 0, s.owned 0)) =
        some (1, 0) := by
    decide +kernel
  obtain ⟨last, ran, facts⟩ := Option.map_eq_some_iff.mp limited
  obtain ⟨meets, ended⟩ := runAllowed_meets ran
  have mapping :=
    (resources_always_exact _ loaded last _ (loaded_init _) meets ended).last ended .bar0 0
  simp only [Prod.mk.injEq] at facts
  rw [facts.1, facts.2] at mapping
  exact absurd mapping (by decide)

end PciSystem

end BafsNvme
