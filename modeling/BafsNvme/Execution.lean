import Mathlib.Logic.Relation

/-! Event-driven machines, their guarded runs and the invariant rule. -/

namespace BafsNvme

/-- A machine takes one event at a time; `none` is an event that is not enabled. -/
structure Machine (σ ε : Type) where
  init : σ → Prop
  step : σ → ε → Option σ

namespace Machine

variable {σ ε τ δ : Type}

inductive Reachable (M : Machine σ ε) (allowed : σ → ε → Prop) : σ → Prop where
  | start {s : σ} : M.init s → Reachable M allowed s
  | next {s s' : σ} {e : ε} : Reachable M allowed s → allowed s e →
      M.step s e = some s' → Reachable M allowed s'

def anyEvent : σ → ε → Prop := fun _ _ => True

theorem Reachable.invariant {M : Machine σ ε} {allowed : σ → ε → Prop} {P : σ → Prop}
    (starts : ∀ s, M.init s → P s)
    (steps : ∀ s e s', P s → allowed s e → M.step s e = some s' → P s')
    {s : σ} (reached : Reachable M allowed s) : P s := by
  induction reached with
  | start initial => exact starts _ initial
  | next _ permitted taken ih => exact steps _ _ _ ih permitted taken

def run (M : Machine σ ε) (s : σ) : List ε → Option σ
  | [] => some s
  | e :: rest => (M.step s e).bind fun s' => run M s' rest

def RunMeets (M : Machine σ ε) (allowed : σ → ε → Prop) (s : σ) : List ε → Prop
  | [] => True
  | e :: rest => allowed s e ∧ ∀ s', M.step s e = some s' → RunMeets M allowed s' rest

theorem Reachable.extend {M : Machine σ ε} {allowed : σ → ε → Prop} (events : List ε)
    {s last : σ} (reached : Reachable M allowed s) (meets : RunMeets M allowed s events)
    (ended : M.run s events = some last) : Reachable M allowed last := by
  induction events generalizing s with
  | nil =>
      simp only [run, Option.some.injEq] at ended
      exact ended ▸ reached
  | cons e rest ih =>
      simp only [run, Option.bind_eq_some_iff] at ended
      obtain ⟨s', taken, remaining⟩ := ended
      exact ih (reached.next meets.1 taken) (meets.2 s' taken) remaining

theorem anyEvent_runMeets (M : Machine σ ε) (events : List ε) (s : σ) :
    RunMeets M anyEvent s events := by
  induction events generalizing s with
  | nil => trivial
  | cons e rest ih => exact ⟨trivial, fun s' _ => ih s'⟩

theorem Reachable.extendAny {M : Machine σ ε} (events : List ε) {s last : σ}
    (reached : Reachable M anyEvent s) (ended : M.run s events = some last) :
    Reachable M anyEvent last :=
  reached.extend events (anyEvent_runMeets M events s) ended

theorem Reachable.computed {M : Machine σ ε} {α : Type} {facts : σ → α} {value : α}
    {events : List ε} {s : σ} (reached : Reachable M anyEvent s)
    (ended : (M.run s events).map facts = some value) :
    ∃ last, M.run s events = some last ∧ Reachable M anyEvent last ∧ facts last = value := by
  obtain ⟨last, ran, shown⟩ := Option.map_eq_some_iff.mp ended
  exact ⟨last, ran, reached.extendAny events ran, shown⟩

def runAllowed (M : Machine σ ε) (allowed : σ → ε → Prop) [∀ s e, Decidable (allowed s e)]
    (s : σ) : List ε → Option σ
  | [] => some s
  | e :: rest =>
      if allowed s e then (M.step s e).bind fun s' => runAllowed M allowed s' rest else none

theorem runAllowed_meets {M : Machine σ ε} {allowed : σ → ε → Prop}
    [∀ s e, Decidable (allowed s e)] {events : List ε} {s last : σ}
    (ended : M.runAllowed allowed s events = some last) :
    RunMeets M allowed s events ∧ M.run s events = some last := by
  induction events generalizing s with
  | nil => exact ⟨trivial, ended⟩
  | cons e rest ih =>
      rw [runAllowed, Option.ite_none_right_eq_some] at ended
      obtain ⟨permitted, s', taken, remaining⟩ :=
        And.imp_right Option.bind_eq_some_iff.mp ended
      obtain ⟨meets, ran⟩ := ih remaining
      refine ⟨⟨permitted, ?_⟩, ?_⟩
      · intro t other
        rw [Option.some.inj (other.symm.trans taken)]
        exact meets
      · rw [run, taken]
        exact ran

theorem Reachable.extendAllowed {M : Machine σ ε} {allowed : σ → ε → Prop}
    [∀ s e, Decidable (allowed s e)] (events : List ε) {s last : σ}
    (reached : Reachable M allowed s) (ended : M.runAllowed allowed s events = some last) :
    Reachable M allowed last :=
  reached.extend events (runAllowed_meets ended).1 (runAllowed_meets ended).2

theorem RunMeets.at {M : Machine σ ε} {allowed : σ → ε → Prop} (front rest : List ε) {e : ε}
    {s s' : σ} (meets : RunMeets M allowed s (front ++ e :: rest))
    (ended : M.run s front = some s') : allowed s' e := by
  induction front generalizing s with
  | nil =>
      simp only [run, Option.some.injEq] at ended
      exact ended ▸ meets.1
  | cons first front ih =>
      obtain ⟨next, taken, remaining⟩ := Option.bind_eq_some_iff.mp ended
      exact ih (meets.2 next taken) remaining

def RunHolds (M : Machine σ ε) (P : σ → Prop) (s : σ) : List ε → Prop
  | [] => P s
  | e :: rest => P s ∧ ∀ s', M.step s e = some s' → RunHolds M P s' rest

theorem RunHolds.start {M : Machine σ ε} {P : σ → Prop} {s : σ} {events : List ε}
    (run : RunHolds M P s events) : P s := by
  cases events with
  | nil => exact run
  | cons _ _ => exact run.1

theorem RunHolds.last {M : Machine σ ε} {P : σ → Prop} {s last : σ} {events : List ε}
    (run : RunHolds M P s events) (ended : M.run s events = some last) : P last := by
  induction events generalizing s with
  | nil =>
      simp only [Machine.run, Option.some.injEq] at ended
      exact ended ▸ run
  | cons e rest ih =>
      obtain ⟨s', taken, remaining⟩ := Option.bind_eq_some_iff.mp ended
      exact ih (run.2 s' taken) remaining

theorem RunHolds.meets {M : Machine σ ε} {P : σ → Prop} {condition : σ → ε → Prop} {s last : σ}
    {events : List ε} (run : RunHolds M P s events) (ended : M.run s events = some last)
    (has : ∀ s e s', P s → M.step s e = some s' → condition s e) :
    RunMeets M condition s events := by
  induction events generalizing s with
  | nil => trivial
  | cons e rest ih =>
      obtain ⟨s', taken, remaining⟩ := Option.bind_eq_some_iff.mp ended
      refine ⟨has s e s' run.1 taken, fun t other => ?_⟩
      rw [Option.some.inj (other.symm.trans taken)]
      exact ih (run.2 s' taken) remaining

theorem runMeets_congr {M : Machine σ ε} {allowed p q : σ → ε → Prop} (Inv : σ → Prop)
    (keeps : ∀ s e s', Inv s → allowed s e → M.step s e = some s' → Inv s')
    (agree : ∀ s e, Inv s → allowed s e → (p s e ↔ q s e)) (events : List ε) {s : σ}
    (inv : Inv s) (permitted : RunMeets M allowed s events) :
    RunMeets M p s events ↔ RunMeets M q s events := by
  induction events generalizing s with
  | nil => exact Iff.rfl
  | cons e rest ih =>
      apply and_congr (agree s e inv permitted.1)
      apply forall₂_congr
      intro s' taken
      exact ih (keeps s e s' inv permitted.1 taken) (permitted.2 s' taken)

/-- If each step from a state with `P` keeps `P` exactly under a condition, then the runs that
keep `P` throughout are the ones that meet the condition throughout. -/
theorem runHolds_iff {M : Machine σ ε} {allowed condition : σ → ε → Prop} {P : σ → Prop}
    (Inv : σ → Prop)
    (keeps : ∀ s e s', Inv s → allowed s e → M.step s e = some s' → Inv s')
    (exact : ∀ s e s', Inv s → P s → allowed s e → M.step s e = some s' →
      (P s' ↔ condition s e))
    (events : List ε) {s last : σ} (inv : Inv s) (holds : P s)
    (permitted : RunMeets M allowed s events) (ended : M.run s events = some last) :
    RunHolds M P s events ↔ RunMeets M condition s events := by
  induction events generalizing s with
  | nil => exact iff_of_true holds trivial
  | cons e rest ih =>
      obtain ⟨s', taken, remaining⟩ := Option.bind_eq_some_iff.mp ended
      have step := exact s e s' inv holds permitted.1 taken
      have later (now : P s') := ih (keeps s e s' inv permitted.1 taken) now
        (permitted.2 s' taken) remaining
      have unique {t : σ} (other : M.step s e = some t) : t = s' :=
        Option.some.inj (other.symm.trans taken)
      constructor
      · intro run
        have after := run.2 s' taken
        refine ⟨step.mp after.start, fun t other => ?_⟩
        rw [unique other]
        exact (later after.start).mp after
      · rintro ⟨met, after⟩
        refine ⟨holds, fun t other => ?_⟩
        rw [unique other]
        exact (later (step.mpr met)).mpr (after s' taken)

/-- A simulation by an abstraction function, under an invariant of the concrete machine:
each concrete step is one abstract step or none. -/
theorem Reachable.simulate {M : Machine σ ε} (A : Machine τ δ) {allowed : σ → ε → Prop}
    (Inv : σ → Prop) (abstraction : σ → τ)
    (starts : ∀ s, M.init s → Inv s ∧ A.init (abstraction s))
    (steps : ∀ s e s', Inv s → allowed s e → M.step s e = some s' →
      Inv s' ∧ (abstraction s' = abstraction s ∨
        ∃ d, A.step (abstraction s) d = some (abstraction s')))
    {s : σ} (reached : Reachable M allowed s) :
    Inv s ∧ Reachable A anyEvent (abstraction s) := by
  induction reached with
  | start initial => exact ⟨(starts _ initial).1, .start (starts _ initial).2⟩
  | next _ permitted taken ih =>
      obtain ⟨kept, same | ⟨d, abstractStep⟩⟩ := steps _ _ _ ih.1 permitted taken
      · exact ⟨kept, same ▸ ih.2⟩
      · exact ⟨kept, ih.2.next trivial abstractStep⟩

/-- The same between guarded machines: `image` is the abstract event that a concrete one
performs, if it performs one. -/
theorem Reachable.refines {M : Machine σ ε} {A : Machine τ δ} {allowed : σ → ε → Prop}
    {permitted : τ → δ → Prop} (Inv : σ → Prop) (abstraction : σ → τ) (image : σ → ε → Option δ)
    (starts : ∀ s, M.init s → Inv s ∧ A.init (abstraction s))
    (steps : ∀ s e s', Inv s → Reachable A permitted (abstraction s) → allowed s e →
      M.step s e = some s' → Inv s' ∧
        match image s e with
        | none => abstraction s' = abstraction s
        | some d => permitted (abstraction s) d ∧
            A.step (abstraction s) d = some (abstraction s'))
    {s : σ} (reached : Reachable M allowed s) :
    Inv s ∧ Reachable A permitted (abstraction s) := by
  induction reached with
  | start initial => exact ⟨(starts _ initial).1, .start (starts _ initial).2⟩
  | @next s s' e _ holds taken ih =>
      obtain ⟨kept, matched⟩ := steps _ _ _ ih.1 ih.2 holds taken
      refine ⟨kept, ?_⟩
      cases event : image s e with
      | none =>
          rw [event] at matched
          exact matched ▸ ih.2
      | some d =>
          rw [event] at matched
          exact ih.2.next matched.1 matched.2

def Leads (M : Machine σ ε) (allowed : σ → ε → Prop) : σ → σ → Prop :=
  Relation.ReflTransGen fun s s' => ∃ e, allowed s e ∧ M.step s e = some s'

theorem Leads.one {M : Machine σ ε} {allowed : σ → ε → Prop} {s s' : σ} {e : ε}
    (permitted : allowed s e) (taken : M.step s e = some s') : M.Leads allowed s s' :=
  .single ⟨e, permitted, taken⟩

theorem Reachable.leads {M : Machine σ ε} {allowed fewer : σ → ε → Prop} {s s' : σ}
    (reached : Reachable M allowed s)
    (weaker : ∀ s e s', Reachable M allowed s → fewer s e → M.step s e = some s' → allowed s e)
    (path : M.Leads fewer s s') : Reachable M allowed s' := by
  induction path with
  | refl => exact reached
  | tail _ step ih =>
      obtain ⟨e, permitted, taken⟩ := step
      exact ih.next (weaker _ e _ ih permitted taken) taken

theorem Leads.computed {M : Machine σ ε} {allowed : σ → ε → Prop}
    [∀ s e, Decidable (allowed s e)] (events : List ε) {s last : σ}
    (ended : M.runAllowed allowed s events = some last) : M.Leads allowed s last := by
  induction events generalizing s with
  | nil =>
      obtain rfl := Option.some.inj ended
      exact .refl
  | cons e rest ih =>
      rw [runAllowed, Option.ite_none_right_eq_some] at ended
      obtain ⟨permitted, s', taken, remaining⟩ :=
        And.imp_right Option.bind_eq_some_iff.mp ended
      exact (Leads.one permitted taken).trans (ih remaining)

theorem Leads.run {M : Machine σ ε} (events : List ε) {s last : σ}
    (ended : M.run s events = some last) : M.Leads anyEvent s last := by
  induction events generalizing s with
  | nil =>
      obtain rfl := Option.some.inj ended
      exact .refl
  | cons e rest ih =>
      obtain ⟨s', taken, remaining⟩ := Option.bind_eq_some_iff.mp ended
      exact (Leads.one trivial taken).trans (ih remaining)

/-- If some work is left in a state until it is done, and allowed events can always make it
less, then allowed events can always finish it. -/
theorem leads_done {M : Machine σ ε} {allowed : σ → ε → Prop} (left : Nat → σ → Prop)
    (done : σ → Prop)
    (progress : ∀ work s, left work s → done s ∨
      ∃ less s', less < work ∧ left less s' ∧ M.Leads allowed s s')
    {work : Nat} {s : σ} (start : left work s) :
    ∃ last rest, done last ∧ left rest last ∧ M.Leads allowed s last := by
  induction work using Nat.strongRecOn generalizing s with
  | _ work ih =>
      rcases progress work s start with finished | ⟨less, s', fewer, now, path⟩
      · exact ⟨s, work, finished, start, .refl⟩
      · obtain ⟨last, rest, finished, left, onward⟩ := ih less fewer now
        exact ⟨last, rest, finished, left, path.trans onward⟩

def Moves (M : Machine σ ε) (allowed : σ → ε → Prop) (s s' : σ) : Prop :=
  s' ≠ s ∧ ∃ e, allowed s e ∧ M.step s e = some s'

/-- Allowed events lead from `s` to `s'`, and `k` of them change the state. -/
inductive LeadsIn (M : Machine σ ε) (allowed : σ → ε → Prop) (s : σ) : Nat → σ → Prop where
  | refl : LeadsIn M allowed s 0 s
  | tail {k : Nat} {s' s'' : σ} : LeadsIn M allowed s k s' → M.Moves allowed s' s'' →
      LeadsIn M allowed s (k + 1) s''

theorem Leads.counted {M : Machine σ ε} {allowed : σ → ε → Prop} {s s' : σ}
    (path : M.Leads allowed s s') : ∃ k, M.LeadsIn allowed s k s' := by
  induction path with
  | refl => exact ⟨0, .refl⟩
  | @tail s₁ s₂ _ step ih =>
      obtain ⟨k, counted⟩ := ih
      by_cases same : s₂ = s₁
      · exact ⟨k, same ▸ counted⟩
      · exact ⟨k + 1, counted.tail ⟨same, step⟩⟩

theorem Leads.moves {M : Machine σ ε} {allowed : σ → ε → Prop} {s s' : σ}
    (path : M.Leads allowed s s') (elsewhere : s' ≠ s) : ∃ s₁, M.Moves allowed s s₁ := by
  induction path with
  | refl => exact absurd rfl elsewhere
  | @tail s₁ s₂ _ step ih =>
      by_cases still : s₁ = s
      · exact ⟨s₂, elsewhere, still ▸ step⟩
      · exact ih still

theorem LeadsIn.bounded {M : Machine σ ε} {allowed : σ → ε → Prop} (Inv : σ → Prop)
    (work : σ → Nat)
    (lowers : ∀ s e s', Inv s → allowed s e → M.step s e = some s' →
      Inv s' ∧ (s' = s ∨ work s' < work s))
    {s s' : σ} {k : Nat} (path : M.LeadsIn allowed s k s') (inv : Inv s) :
    Inv s' ∧ k + work s' ≤ work s := by
  induction path with
  | refl => exact ⟨inv, by omega⟩
  | tail _ move ih =>
      obtain ⟨changed, e, permitted, taken⟩ := move
      obtain ⟨kept, same | less⟩ := lowers _ e _ ih.1 permitted taken
      · exact absurd same changed
      · exact ⟨kept, by omega⟩

end Machine

end BafsNvme
