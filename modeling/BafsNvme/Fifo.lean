import BafsNvme.Execution

/-! The abstract queue a submission ring is for: what goes in comes out once, in order. -/

namespace BafsNvme

structure Fifo (α : Type) where
  sent : List α
  waiting : List α
  delivered : List α

inductive FifoEvent (α : Type) where
  | push (x : α)
  | pop

namespace Fifo

variable {α : Type}

def step (f : Fifo α) : FifoEvent α → Option (Fifo α)
  | .push x => some { f with sent := f.sent ++ [x], waiting := f.waiting ++ [x] }
  | .pop =>
      match f.waiting with
      | [] => none
      | x :: rest => some { f with waiting := rest, delivered := f.delivered ++ [x] }

def machine (α : Type) : Machine (Fifo α) (FifoEvent α) where
  init f := f = ⟨[], [], []⟩
  step := step

theorem delivered_then_waiting {f : Fifo α}
    (reached : Machine.Reachable (machine α) Machine.anyEvent f) :
    f.delivered ++ f.waiting = f.sent := by
  refine reached.invariant (P := fun f => f.delivered ++ f.waiting = f.sent) ?_ ?_
  · rintro f rfl
    rfl
  · intro f e f' complete _ taken
    cases e with
    | push x =>
        simp only [machine, step, Option.some.injEq] at taken
        subst taken
        simp only [← List.append_assoc, complete]
    | pop =>
        simp only [machine, step] at taken
        split at taken
        · cases taken
        · next x rest waiting =>
          simp only [Option.some.injEq] at taken
          subst taken
          simpa [waiting] using complete

theorem delivered_prefix {f : Fifo α}
    (reached : Machine.Reachable (machine α) Machine.anyEvent f) : f.delivered <+: f.sent :=
  ⟨f.waiting, delivered_then_waiting reached⟩

end Fifo

end BafsNvme
