import BafsNvme.ControllerBinding
import Std.Data.String.ToInt

/-! `curr_ctrls` over the driver's life: as the count of the controllers in `ctrl_list`, and as the
number that the next controller is made with. -/

namespace BafsNvme.PciSystem

open Machine CtrlDriver

variable {P : Type} [DecidableEq P] {m : ModuleParams} {s s' : PciSystem P} {e : PciEvent P}

def CountExact (m : ModuleParams) (s : PciSystem P) : Prop :=
  s.driver.currCtrls = s.ctrls.length ∧ 0 ≤ s.driver.currCtrls ∧
    s.driver.currCtrls ≤ m.numCtrls

def HasController (s : PciSystem P) : PciEvent P → Prop
  | .probe _ _ => True
  | .remove pdev => ∃ c ∈ s.ctrls, (s.driver.ctrl c).pdev = pdev

def loaded : PciSystem Nat where
  driver :=
    { ctrlList := (⟨⟨fun _ => none, fun _ => none⟩, fun _ => none⟩ : ListHeap Unit Nat).listInit ()
      ctrl := fun _ => newCtrl 0 0
      blocks := 0
      currCtrls := 0
      held := fun _ _ => 0 }
  bound := []
  listedAt := fun _ => 0

theorem loaded_init (m : ModuleParams) : (machine m Nat).init loaded :=
  ⟨⟨_, rfl⟩, rfl, rfl, rfl⟩

def allSucceed : ProbeAnswers := ⟨true, true, 0, 0, 0, none⟩

theorem CountExact.start (positive : 1 ≤ m.numCtrls) (initial : (machine m P).init s) :
    CountExact m s := by
  obtain ⟨⟨h, empty⟩, zero, _, _⟩ := initial
  have list : BlockList s.driver.ctrlList s.driver.blocks [] := empty ▸ .listInit h _
  rw [CountExact, ctrls_eq list, zero]
  exact ⟨rfl, le_rfl, by omega⟩

theorem countExact_step (inv : Bound m s) (holds : CountExact m s)
    (taken : (machine m P).step s e = some s') : CountExact m s' ↔ HasController s e := by
  obtain ⟨counted, low, high⟩ := holds
  cases step_effect inv.list taken with
  | full _ _ => exact iff_of_true ⟨counted, low, high⟩ trivial
  | failed _ _ _ left _ =>
      rw [CountExact, ctrls_eq left.list, left.count]
      exact iff_of_true ⟨counted, low, high⟩ trivial
  | listed _ room _ grown =>
      rw [CountExact, ctrls_eq grown, List.length_append, List.length_singleton]
      refine iff_of_true ⟨?_, ?_, ?_⟩ trivial
      · push_cast
        exact congrArg (· + 1) counted
      · exact Int.add_nonneg low (by decide)
      · exact room
  | bare _ missing =>
      refine iff_of_false ?_ ?_
      · rintro ⟨again, _⟩
        have same : s.driver.currCtrls - 1 = s.ctrls.length := again
        omega
      · rintro ⟨c, member, own⟩
        exact missing c member own
  | removed _ member own shorter =>
      have fewer := List.length_erase_of_mem member
      have some_ctrl := List.length_pos_of_mem member
      rw [CountExact, ctrls_eq shorter, fewer]
      refine iff_of_true ⟨?_, ?_, ?_⟩ ⟨_, member, own⟩
      · dsimp only
        omega
      · dsimp only
        omega
      · dsimp only
        omega

/-- In a run of any probes and removals `curr_ctrls` counts the controllers and stays inside the
limit throughout, if and only if every device removed has a controller. -/
theorem count_exact_iff (m : ModuleParams) (positive : 1 ≤ m.numCtrls) (s last : PciSystem P)
    (initial : (machine m P).init s) (events : List (PciEvent P))
    (ended : (machine m P).run s events = some last) :
    RunHolds (machine m P) (CountExact m) s events ↔ RunMeets (machine m P) HasController s events :=
  runHolds_iff (Bound m) (fun _ _ _ inv _ taken => inv.step taken)
    (fun _ _ _ inv holds _ taken => countExact_step inv holds taken) events (.start initial)
    (.start positive initial) (anyEvent_runMeets _ events s) ended

instance (s : PciSystem P) (e : PciEvent P) : Decidable (HasController s e) :=
  match e with
  | .probe _ _ => inferInstanceAs (Decidable True)
  | .remove pdev => inferInstanceAs (Decidable (∃ c ∈ s.ctrls, (s.driver.ctrl c).pdev = pdev))

theorem count_exact_in_turn :
    RunHolds (machine ⟨2, ⟨240, 0⟩⟩ Nat) (CountExact ⟨2, ⟨240, 0⟩⟩) loaded
      [.probe 0 allSucceed, .probe 1 allSucceed, .remove 0, .probe 2 allSucceed] := by
  have ended : (runAllowed (machine ⟨2, ⟨240, 0⟩⟩ Nat) HasController loaded
      [.probe 0 allSucceed, .probe 1 allSucceed, .remove 0, .probe 2 allSucceed]).isSome = true := by
    decide +kernel
  obtain ⟨last, ran⟩ := Option.isSome_iff_exists.mp ended
  obtain ⟨meets, reached⟩ := runAllowed_meets ran
  exact (count_exact_iff ⟨2, ⟨240, 0⟩⟩ (by decide) loaded last (loaded_init _) _ reached).mpr meets

/-- With room for one controller, a second device is bound without one. Its removal leaves
`curr_ctrls` at 0 while the first controller is still in the list. -/
theorem bare_removal_counted :
    ¬ ∀ (m : ModuleParams) (s last : PciSystem Nat) (events : List (PciEvent Nat)),
      1 ≤ m.numCtrls → (machine m Nat).init s → (machine m Nat).run s events = some last →
        RunHolds (machine m Nat) (CountExact m) s events := by
  intro count_always_exact
  have ended : ((machine ⟨1, ⟨240, 0⟩⟩ Nat).run loaded
      [.probe 0 allSucceed, .probe 1 allSucceed, .remove 1]).map (fun s =>
        (s.driver.currCtrls, s.ctrls.length)) = some (0, 1) := by
    decide +kernel
  obtain ⟨last, ran, facts⟩ := Option.map_eq_some_iff.mp ended
  simp only [Prod.mk.injEq] at facts
  have counted := ((count_always_exact _ loaded last _ (by decide) (loaded_init _) ran).last ran).1
  rw [facts.1, facts.2] at counted
  exact absurd counted (by decide)

/-- The devices that are bound, together with the one that is probed, fit the limit. -/
def WithinLimit (m : ModuleParams) (s : PciSystem P) : PciEvent P → Prop
  | .probe _ _ => (s.bound.length : Int) < m.numCtrls
  | .remove _ => True

/-- While the devices fit the limit, each has a controller, and `curr_ctrls` counts them. A
controller's number is the length that the list had when it was made. -/
structure Counted (m : ModuleParams) (s : PciSystem P) : Prop extends Bound m s where
  counted : s.driver.currCtrls = s.ctrls.length
  covered : ∀ pdev ∈ s.bound, ∃ c ∈ s.ctrls, (s.driver.ctrl c).pdev = pdev
  numbered : ∀ c ∈ s.ctrls, (s.driver.ctrl c).number = s.listedAt c

omit [DecidableEq P] in
theorem Counted.of_list (bindings : Bound m s) {seq : List Nat}
    (list : BlockList s.driver.ctrlList s.driver.blocks seq)
    (counted : s.driver.currCtrls = seq.length)
    (covered : ∀ pdev ∈ s.bound, ∃ c ∈ seq, (s.driver.ctrl c).pdev = pdev)
    (numbered : ∀ c ∈ seq, (s.driver.ctrl c).number = s.listedAt c) : Counted m s := by
  obtain rfl := ctrls_eq list
  exact ⟨bindings, counted, covered, numbered⟩

namespace Counted

theorem start (initial : (machine m P).init s) : Counted m s := by
  have inv := Bound.start initial
  obtain ⟨⟨h, empty⟩, zero, _, unused⟩ := initial
  have list : BlockList s.driver.ctrlList s.driver.blocks [] := empty ▸ .listInit h _
  apply Counted.of_list inv list
  · rw [zero]
    rfl
  · rw [unused]
    exact fun pdev member => nomatch member
  · exact fun c member => nomatch member

omit [DecidableEq P] in
theorem length_le (inv : Counted m s) : s.ctrls.length ≤ s.bound.length := by
  have owners : (s.ctrls.map fun c => (s.driver.ctrl c).pdev).Nodup :=
    inv.list.nodup.map_on fun c first d second same => inv.owners c first d second same
  have inside : (s.ctrls.map fun c => (s.driver.ctrl c).pdev) ⊆ s.bound := by
    intro pdev member
    obtain ⟨c, listed, rfl⟩ := List.mem_map.mp member
    exact inv.claimed c listed
  calc
    s.ctrls.length = (s.ctrls.map fun c => (s.driver.ctrl c).pdev).length := by simp
    _ ≤ s.bound.length := (owners.subperm inside).length_le

omit [DecidableEq P] in
theorem room (inv : Counted m s) (limit : (s.bound.length : Int) < m.numCtrls) :
    s.driver.currCtrls < m.numCtrls := by
  have fewer := inv.length_le
  have counted := inv.counted
  omega

omit [DecidableEq P] in
theorem recordLength_old (inv : Counted m s) {c : Nat} (member : c ∈ s.ctrls) :
    s.recordLength c = s.listedAt c :=
  Function.update_of_ne (Nat.ne_of_lt (inv.list.bound c member)) ..

theorem step (inv : Counted m s) (limit : WithinLimit m s e)
    (taken : (machine m P).step s e = some s') : Counted m s' := by
  have bindings := inv.toBound.step taken
  cases step_effect inv.list taken with
  | full _ full => exact absurd (inv.room limit) (not_lt.mpr full)
  | failed _ _ _ left _ =>
      apply Counted.of_list bindings left.list
      · rw [left.count]
        exact inv.counted
      · intro pdev known
        obtain ⟨c, member, own⟩ := inv.covered pdev known
        refine ⟨c, member, ?_⟩
        rw [left.ctrls c member]
        exact own
      · intro c member
        rw [left.ctrls c member, inv.numbered c member]
        exact congrArg Nat.cast (inv.recordLength_old member).symm
  | @listed pdev _ _ new _ _ grown =>
      have old (c : Nat) (member : c ∈ s.ctrls) : c ≠ s.driver.blocks :=
        Nat.ne_of_lt (inv.list.bound c member)
      apply Counted.of_list bindings grown
      · rw [List.length_append, List.length_singleton]
        push_cast
        exact congrArg (· + 1) inv.counted
      · intro other known
        rcases List.mem_cons.mp known with rfl | before
        · exact ⟨s.driver.blocks, by simp, by simp [boundCtrl, newCtrl]⟩
        · obtain ⟨c, member, own⟩ := inv.covered other before
          refine ⟨c, List.mem_append_left _ member, ?_⟩
          simp only [Function.update_of_ne (old c member)]
          exact own
      · intro c member
        rcases List.mem_append.mp member with before | last
        · simp only [Function.update_of_ne (old c before), inv.recordLength_old before]
          exact inv.numbered c before
        · rw [List.mem_singleton.mp last]
          simp [boundCtrl, newCtrl, recordLength, inv.counted]
  | bare known missing =>
      obtain ⟨c, member, own⟩ := inv.covered _ known
      exact absurd own (missing c member)
  | @removed pdev c _ _ member own shorter =>
      have kept (d : Nat) (inside : d ∈ s.ctrls.erase c) : d ∈ s.ctrls ∧ d ≠ c :=
        ((inv.list.nodup.mem_erase_iff).mp inside).symm
      apply Counted.of_list bindings shorter
      · have fewer := List.length_erase_of_mem member
        have some_ctrl := List.length_pos_of_mem member
        have counted := inv.counted
        rw [fewer]
        dsimp only
        omega
      · intro other known
        obtain ⟨different, before⟩ := (inv.single.mem_erase_iff).mp known
        obtain ⟨d, listed, its⟩ := inv.covered other before
        have apart : d ≠ c := by
          rintro rfl
          exact different (its.symm.trans own)
        refine ⟨d, (inv.list.nodup.mem_erase_iff).mpr ⟨apart, listed⟩, ?_⟩
        simp only [Function.update_of_ne apart]
        exact its
      · intro d inside
        obtain ⟨before, apart⟩ := kept d inside
        simp only [Function.update_of_ne apart]
        exact inv.numbered d before

end Counted

/-- The number that the probe passes to `ctrl_get` lies in the range, and it, the minor number and
the name it gives are those of no controller in the list. -/
def FreshNumber (m : ModuleParams) (s : PciSystem P) : PciEvent P → Prop
  | .probe _ _ =>
      let number := s.driver.currCtrls
      (0 ≤ number ∧ number < m.numCtrls) ∧
        ∀ c ∈ s.ctrls, (s.driver.ctrl c).number ≠ number ∧
          (s.driver.ctrl c).rdev.minor ≠ (ctrlRdev m.devFirst number).minor ∧
          (s.driver.ctrl c).name ≠ ctrlName number
  | .remove _ => True

/-- No controller in the list was made when the list was as long as it is at the probe. -/
def LengthUnused (s : PciSystem P) : PciEvent P → Prop
  | .probe _ _ => ∀ c ∈ s.ctrls, s.listedAt c ≠ s.ctrls.length
  | .remove _ => True

omit [DecidableEq P] in
theorem ctrlName_inj {a b : Int} (same : ctrlName a = ctrlName b) : a = b :=
  Int.repr_inj.mp (String.append_right_inj _ |>.mp same)

omit [DecidableEq P] in
/-- Number, minor number and name of a listed controller differ from the new ones together. -/
theorem freshNumber_iff (inv : Counted m s) (limit : WithinLimit m s e) :
    FreshNumber m s e ↔ LengthUnused s e := by
  cases e with
  | remove pdev => exact Iff.rfl
  | probe pdev answers =>
      have range : 0 ≤ s.driver.currCtrls ∧ s.driver.currCtrls < m.numCtrls := by
        refine ⟨?_, inv.room limit⟩
        rw [inv.counted]
        exact Int.natCast_nonneg _
      have number (c : Nat) (member : c ∈ s.ctrls) :
          (s.driver.ctrl c).number = s.driver.currCtrls ↔ s.listedAt c = s.ctrls.length := by
        rw [inv.numbered c member, inv.counted, Int.natCast_inj]
      constructor
      · rintro ⟨_, fresh⟩ c member same
        exact (fresh c member).1 ((number c member).mpr same)
      · intro unused
        refine ⟨range, fun c member => ?_⟩
        have other : (s.driver.ctrl c).number ≠ s.driver.currCtrls :=
          fun same => unused c member ((number c member).mp same)
        refine ⟨other, ?_, ?_⟩
        · rw [inv.usable c member]
          intro same
          exact other (Int.add_left_cancel same)
        · rw [inv.usable c member]
          exact fun same => other (ctrlName_inj same)

/-- In a run whose devices fit the limit every probe passes a number in the range that no listed
controller has, if and only if no probe finds a controller that was made when the list was as long
as it is then. -/
theorem numbers_fresh_iff (m : ModuleParams) (s : PciSystem P) (initial : (machine m P).init s)
    (events : List (PciEvent P)) (limit : RunMeets (machine m P) (WithinLimit m) s events) :
    RunMeets (machine m P) (FreshNumber m) s events ↔ RunMeets (machine m P) LengthUnused s events :=
  runMeets_congr (Counted m) (fun _ _ _ inv permitted taken => inv.step permitted taken)
    (fun _ _ inv permitted => freshNumber_iff inv permitted) events (.start initial) limit

def LastRemoved (s : PciSystem P) : PciEvent P → Prop
  | .probe _ _ => True
  | .remove pdev => ∃ c, s.ctrls.getLast? = some c ∧ (s.driver.ctrl c).pdev = pdev

def InOrder (s : PciSystem P) : Prop := s.ctrls.map s.listedAt = List.range s.ctrls.length

theorem InOrder.step (inv : Counted m s) (order : InOrder s) (last : LastRemoved s e)
    (taken : (machine m P).step s e = some s') : InOrder s' := by
  have recorded : s.ctrls.map s.recordLength = List.range s.ctrls.length :=
    (List.map_congr_left fun _ member => inv.recordLength_old member).trans order
  cases step_effect inv.list taken with
  | full _ _ => exact recorded
  | failed _ _ _ left _ =>
      rw [InOrder, ctrls_eq left.list]
      exact recorded
  | listed _ _ _ grown =>
      have here : s.recordLength s.driver.blocks = s.ctrls.length := Function.update_self ..
      rw [InOrder, ctrls_eq grown]
      calc
        (s.ctrls ++ [s.driver.blocks]).map s.recordLength
            = List.range s.ctrls.length ++ [s.ctrls.length] := by
          rw [List.map_append, recorded, List.map_singleton, here]
        _ = List.range (s.ctrls ++ [s.driver.blocks]).length := by
          rw [List.length_append, List.length_singleton, List.range_succ]
  | bare _ _ => exact order
  | @removed pdev c _ _ member own shorter =>
      obtain ⟨d, ends, its⟩ := last
      obtain ⟨front, all⟩ := List.getLast?_eq_some_iff.mp ends
      have same : d = c := inv.owners d (List.mem_of_getLast? ends) c member (its.trans own.symm)
      rw [same] at all
      have away : c ∉ front := by
        intro inside
        have once := inv.list.nodup
        rw [all] at once
        exact List.disjoint_of_nodup_append once inside (List.mem_singleton_self c)
      rw [InOrder, all, List.map_append, List.length_append, List.length_singleton,
        List.range_succ] at order
      rw [InOrder, ctrls_eq shorter, all, List.erase_append_right _ away, List.erase_cons_head,
        List.append_nil]
      exact (List.append_inj' order rfl).1

omit [DecidableEq P] in
theorem InOrder.lengthUnused (order : InOrder s) : LengthUnused s e := by
  cases e with
  | remove pdev => trivial
  | probe pdev answers =>
      intro c member
      have before : s.listedAt c ∈ List.range s.ctrls.length := by
        rw [← order]
        exact List.mem_map_of_mem member
      exact Nat.ne_of_lt (List.mem_range.mp before)

theorem numbers_fresh_in_order (m : ModuleParams) (s : PciSystem P)
    (initial : (machine m P).init s) (events : List (PciEvent P))
    (permitted : RunMeets (machine m P) (fun s e => WithinLimit m s e ∧ LastRemoved s e) s events) :
    RunMeets (machine m P) (FreshNumber m) s events := by
  have start : InOrder s := by
    obtain ⟨⟨h, empty⟩, _⟩ := initial
    have list : BlockList s.driver.ctrlList s.driver.blocks [] := empty ▸ .listInit h _
    rw [InOrder, ctrls_eq list]
    rfl
  have agree (s : PciSystem P) (e : PciEvent P) (inv : Counted m s ∧ InOrder s)
      (allowed : WithinLimit m s e ∧ LastRemoved s e) : FreshNumber m s e ↔ anyEvent s e :=
    iff_of_true ((freshNumber_iff inv.1 allowed.1).mpr inv.2.lengthUnused) trivial
  apply (runMeets_congr (fun s => Counted m s ∧ InOrder s) _ agree events
    ⟨.start initial, start⟩ permitted).mpr (anyEvent_runMeets _ events s)
  intro s e s' inv allowed taken
  exact ⟨inv.1.step allowed.1 taken, inv.2.step inv.1 allowed.2 taken⟩

instance (m : ModuleParams) (s : PciSystem P) (e : PciEvent P) : Decidable (WithinLimit m s e) :=
  match e with
  | .probe _ _ => inferInstanceAs (Decidable ((s.bound.length : Int) < m.numCtrls))
  | .remove _ => inferInstanceAs (Decidable True)

instance (s : PciSystem P) (e : PciEvent P) : Decidable (LengthUnused s e) :=
  match e with
  | .probe _ _ => inferInstanceAs (Decidable (∀ c ∈ s.ctrls, s.listedAt c ≠ s.ctrls.length))
  | .remove _ => inferInstanceAs (Decidable True)

theorem numbers_fresh_last_removed :
    RunMeets (machine ⟨8, ⟨240, 0⟩⟩ Nat) (FreshNumber ⟨8, ⟨240, 0⟩⟩) loaded
      [.probe 0 allSucceed, .probe 1 allSucceed, .remove 1, .probe 2 allSucceed] := by
  have limited : (runAllowed (machine ⟨8, ⟨240, 0⟩⟩ Nat) (WithinLimit ⟨8, ⟨240, 0⟩⟩) loaded
      [.probe 0 allSucceed, .probe 1 allSucceed, .remove 1, .probe 2 allSucceed]).isSome = true := by
    decide +kernel
  have unused : (runAllowed (machine ⟨8, ⟨240, 0⟩⟩ Nat) LengthUnused loaded
      [.probe 0 allSucceed, .probe 1 allSucceed, .remove 1, .probe 2 allSucceed]).isSome = true := by
    decide +kernel
  obtain ⟨_, ranLimited⟩ := Option.isSome_iff_exists.mp limited
  obtain ⟨_, ranUnused⟩ := Option.isSome_iff_exists.mp unused
  exact (numbers_fresh_iff ⟨8, ⟨240, 0⟩⟩ loaded (loaded_init _) _
    (runAllowed_meets ranLimited).1).mpr (runAllowed_meets ranUnused).1

/-- Two devices come, the first one goes, a third comes: it is given number 1, which the second
one still has. -/
theorem number_taken_twice :
    ¬ ∀ (m : ModuleParams) (s : PciSystem Nat) (events : List (PciEvent Nat)),
      (machine m Nat).init s → RunMeets (machine m Nat) (WithinLimit m) s events →
        RunMeets (machine m Nat) (FreshNumber m) s events := by
  intro numbers_always_fresh
  have limited : (runAllowed (machine ⟨8, ⟨240, 0⟩⟩ Nat) (WithinLimit ⟨8, ⟨240, 0⟩⟩) loaded
      [.probe 0 allSucceed, .probe 1 allSucceed, .remove 0, .probe 2 allSucceed]).isSome = true := by
    decide +kernel
  have ended : ((machine ⟨8, ⟨240, 0⟩⟩ Nat).run loaded
      [.probe 0 allSucceed, .probe 1 allSucceed, .remove 0]).map (fun s =>
        (s.driver.currCtrls, s.ctrls, (s.driver.ctrl 1).number)) = some (1, [1], 1) := by
    decide +kernel
  obtain ⟨_, ranLimited⟩ := Option.isSome_iff_exists.mp limited
  obtain ⟨s, ran, facts⟩ := Option.map_eq_some_iff.mp ended
  simp only [Prod.mk.injEq] at facts
  obtain ⟨count, listed, number⟩ := facts
  have all := numbers_always_fresh _ loaded _ (loaded_init _) (runAllowed_meets ranLimited).1
  have fresh : FreshNumber ⟨8, ⟨240, 0⟩⟩ s (.probe 2 allSucceed) :=
    RunMeets.at [.probe 0 allSucceed, .probe 1 allSucceed, .remove 0] [] all ran
  have member : 1 ∈ s.ctrls := by
    rw [listed]
    exact List.mem_singleton_self 1
  exact (fresh.2 1 member).1 (number.trans count.symm)

end BafsNvme.PciSystem
