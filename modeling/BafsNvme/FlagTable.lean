import Mathlib.Data.Finset.Card
import Mathlib.Order.Interval.Finset.Nat
import Mathlib.Logic.Function.Basic
import Mathlib.Tactic

/-! Tables of flags: the search for the lowest clear flag and the number of set ones. -/

namespace BafsNvme

def firstFree (flags : Nat → Bool) (start : Nat) : Nat → Option Nat
  | 0 => none
  | count + 1 => if flags start then firstFree flags (start + 1) count else some start

theorem firstFree_some {flags : Nat → Bool} {start count found : Nat}
    (result : firstFree flags start count = some found) :
    start ≤ found ∧ found < start + count ∧ flags found = false ∧
      ∀ i, start ≤ i → i < found → flags i = true := by
  induction count generalizing start with
  | zero => simp [firstFree] at result
  | succ count ih =>
      rw [firstFree] at result
      split at result
      · next taken =>
        obtain ⟨above, below, free, before⟩ := ih result
        refine ⟨by omega, by omega, free, ?_⟩
        intro i from_start to_found
        rcases Nat.eq_or_lt_of_le from_start with rfl | later
        · exact taken
        · exact before i later to_found
      · next free =>
        simp only [Option.some.injEq] at result
        subst result
        exact ⟨le_rfl, by omega, by simpa using free, by omega⟩

theorem firstFree_none {flags : Nat → Bool} {start count : Nat}
    (result : firstFree flags start count = none) :
    ∀ i, start ≤ i → i < start + count → flags i = true := by
  induction count generalizing start with
  | zero => omega
  | succ count ih =>
      rw [firstFree] at result
      split at result
      · next taken =>
        intro i from_start below
        rcases Nat.eq_or_lt_of_le from_start with rfl | later
        · exact taken
        · exact ih result i later (by omega)
      · cases result

theorem firstFree_congr {flags flags' : Nat → Bool} {start count : Nat}
    (same : ∀ i, start ≤ i → i < start + count → (∀ j, start ≤ j → j < i → flags j = true) →
      flags' i = flags i) : firstFree flags' start count = firstFree flags start count := by
  induction count generalizing start with
  | zero => rfl
  | succ count ih =>
      rw [firstFree, firstFree, same start le_rfl (by omega) (by omega)]
      split
      · next taken =>
        apply ih
        intro i above below before
        refine same i (by omega) (by omega) fun j from_start earlier => ?_
        rcases Nat.eq_or_lt_of_le from_start with rfl | later
        · exact taken
        · exact before j later earlier
      · rfl

theorem firstFree_exists {flags : Nat → Bool} {count i : Nat} (bound : i < count)
    (free : flags i = false) : ∃ found, firstFree flags 0 count = some found := by
  cases result : firstFree flags 0 count with
  | some found => exact ⟨found, rfl⟩
  | none =>
      have taken := firstFree_none result i (Nat.zero_le i) (by omega)
      simp [free] at taken

def setCount (flags : Nat → Bool) (n : Nat) : Nat :=
  ((Finset.range n).filter fun i => flags i = true).card

theorem setCount_le (flags : Nat → Bool) (n : Nat) : setCount flags n ≤ n := by
  simpa [setCount] using Finset.card_filter_le (Finset.range n) fun i => flags i = true

theorem setCount_clear {flags : Nat → Bool} {n i : Nat} (bound : i < n)
    (isSet : flags i = true) :
    setCount (Function.update flags i false) n + 1 = setCount flags n := by
  have present : i ∈ (Finset.range n).filter fun k => flags k = true := by
    simp [bound, isSet]
  have erased : ((Finset.range n).filter fun k => Function.update flags i false k = true) =
      ((Finset.range n).filter fun k => flags k = true).erase i := by
    ext k
    by_cases same : k = i
    · simp [same]
    · simp [same]
  rw [setCount, erased]
  exact Finset.card_erase_add_one present

theorem setCount_set {flags : Nat → Bool} {n i : Nat} (bound : i < n)
    (isClear : flags i = false) :
    setCount (Function.update flags i true) n = setCount flags n + 1 := by
  have marked : Function.update flags i true i = true := Function.update_self ..
  have back := setCount_clear bound marked
  simpa [← isClear] using back.symm

theorem setCount_set_le (flags : Nat → Bool) (n i : Nat) :
    setCount (Function.update flags i true) n ≤ setCount flags n + 1 := by
  have covered : ((Finset.range n).filter fun k => Function.update flags i true k = true) ⊆
      insert i ((Finset.range n).filter fun k => flags k = true) := by
    intro k member
    by_cases same : k = i
    · simp [same]
    · simpa [same] using member
  exact (Finset.card_le_card covered).trans (Finset.card_insert_le _ _)

theorem setCount_eq_zero {flags : Nat → Bool} {n : Nat} :
    setCount flags n = 0 ↔ ∀ i, i < n → flags i = false := by
  rw [setCount, Finset.card_eq_zero, Finset.filter_eq_empty_iff]
  simp

theorem setCount_lt_exists {flags : Nat → Bool} {n : Nat} (room : setCount flags n < n) :
    ∃ i, i < n ∧ flags i = false := by
  by_contra none_free
  push Not at none_free
  have all : ((Finset.range n).filter fun i => flags i = true) = Finset.range n := by
    rw [Finset.filter_eq_self]
    intro i member
    simpa using none_free i (Finset.mem_range.mp member)
  rw [setCount, all, Finset.card_range] at room
  exact lt_irrefl n room

end BafsNvme
