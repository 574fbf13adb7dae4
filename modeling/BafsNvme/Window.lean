import Mathlib.Data.Nat.ModEq
import Mathlib.Order.Interval.Finset.Nat
import Mathlib.Tactic

/-! Counters that only grow, seen through a ring of `n` slots: slot `k % n` and
pass `k / n`. -/

namespace BafsNvme.Window

/-- The phase a slot carries when its counter is `k`: true on even passes. -/
def passPhase (n k : Nat) : Bool := k / n % 2 == 0

theorem slot_inj (low : Nat) {n i j : Nat} (hi : low ≤ i ∧ i < low + n) (hj : low ≤ j ∧ j < low + n)
    (same : i % n = j % n) : i = j :=
  Nat.mod_injOn_Ico low n (by simpa using hi) (by simpa using hj) same

theorem slot_succ (n k : Nat) : (k % n + 1) % n = (k + 1) % n := by
  rw [Nat.mod_add_mod]

theorem slot_offset {n low j : Nat} (inside : low ≤ j ∧ j < low + n) :
    (j % n + n - low % n) % n = j - low := by
  have positive : 0 < n := by omega
  have lowBound := Nat.mod_lt low positive
  have split : j % n + n - low % n + low % n = j % n + n := by omega
  apply Nat.ModEq.eq_of_lt_of_lt _ (Nat.mod_lt _ positive) (by omega : j - low < n)
  apply Nat.ModEq.add_right_cancel' (low % n)
  calc
    (j % n + n - low % n) % n + low % n
        ≡ j % n + n - low % n + low % n [MOD n] := (Nat.mod_modEq _ n).add_right _
    _ = j % n + n := split
    _ ≡ j [MOD n] := by
      simpa using (Nat.mod_modEq j n).add_right n
    _ = j - low + low := by omega
    _ ≡ j - low + low % n [MOD n] := ((Nat.mod_modEq low n).symm).add_left _

theorem slot_next {n k : Nat} (positive : 0 < n) :
    (k + 1) % n = if k % n + 1 = n then 0 else k % n + 1 := by
  rw [← slot_succ]
  have bound := Nat.mod_lt k positive
  split
  · next wraps => rw [wraps, Nat.mod_self]
  · next stays => exact Nat.mod_eq_of_lt (by omega)

theorem passPhase_next {n k : Nat} (positive : 0 < n) :
    passPhase n (k + 1) = if k % n + 1 = n then !passPhase n k else passPhase n k := by
  have divides : n ∣ k + 1 ↔ k % n + 1 = n := by
    rw [Nat.dvd_iff_mod_eq_zero, slot_next positive]
    split
    · simpa
    · next stays => simp [stays]
  unfold passPhase
  rw [Nat.succ_div]
  simp only [divides]
  split
  · rcases Nat.mod_two_eq_zero_or_one (k / n) with even | odd
    · have next : (k / n + 1) % 2 = 1 := by omega
      simp [even, next]
    · have next : (k / n + 1) % 2 = 0 := by omega
      simp [odd, next]
  · simp

theorem passPhase_zero (n : Nat) : passPhase n 0 = true := by
  simp [passPhase]

theorem passPhase_first {n k : Nat} (small : k < n) : passPhase n k = true := by
  simp [passPhase, Nat.div_eq_of_lt small]

/-- A counter behind `current`, in a slot at or after it and with the same phase, is at
least one whole pass further back. -/
theorem same_phase_behind {n old current : Nat} (positive : 0 < n) (behind : old < current)
    (after : current % n ≤ old % n) (same : passPhase n old = passPhase n current) :
    old + n < current := by
  have oldSplit := Nat.div_add_mod old n
  have currentSplit := Nat.div_add_mod current n
  have oldBound := Nat.mod_lt old positive
  have passes : old / n < current / n := by
    by_contra reversed
    have := Nat.mul_le_mul_left n (Nat.le_of_not_lt reversed)
    omega
  have parity : old / n % 2 = current / n % 2 := by
    unfold passPhase at same
    rcases Nat.mod_two_eq_zero_or_one (old / n) with h | h <;>
      rcases Nat.mod_two_eq_zero_or_one (current / n) with h' | h' <;>
      simp [h, h'] at same ⊢
  have twoPasses : old / n + 2 ≤ current / n := by omega
  have scaled := Nat.mul_le_mul_left n twoPasses
  rw [Nat.mul_add] at scaled
  omega

end BafsNvme.Window
