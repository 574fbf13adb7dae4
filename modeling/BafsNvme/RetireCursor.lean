import BafsNvme.FlagTable
import BafsNvme.Window

/-! Out-of-order retirement in a ring: slots are marked in any order and the head
sweeps over the marked slots in front of it. Counters are the unbounded values whose
remainders the head and the slots are. -/

namespace BafsNvme

structure RetireCursor where
  head : Nat
  phase : Bool
  mark : Nat → Bool

namespace RetireCursor

open Window

def retireHead (n : Nat) (c : RetireCursor) : RetireCursor where
  head := if c.head + 1 = n then 0 else c.head + 1
  phase := if c.head + 1 = n then !c.phase else c.phase
  mark := Function.update c.mark c.head false

/-- `Swept n c r c'`: retiring heads while they are marked stops after `r` of them. -/
inductive Swept (n : Nat) : RetireCursor → Nat → RetireCursor → Prop where
  | stop {c : RetireCursor} (clear : c.mark c.head = false) : Swept n c 0 c
  | retire {c c' : RetireCursor} {r : Nat} (marked : c.mark c.head = true)
      (rest : Swept n (c.retireHead n) r c') : Swept n c (r + 1) c'

def At (n count : Nat) (c : RetireCursor) : Prop :=
  c.head = count % n ∧ c.phase = passPhase n count

theorem At.retireHead {n count : Nat} {c : RetireCursor} (positive : 0 < n)
    (placed : At n count c) : At n (count + 1) (c.retireHead n) := by
  obtain ⟨head, phase⟩ := placed
  constructor
  · simp only [RetireCursor.retireHead, head, slot_next positive]
  · simp only [RetireCursor.retireHead, head, phase, passPhase_next positive]

theorem Swept.at {n count r : Nat} {c c' : RetireCursor} (positive : 0 < n)
    (swept : Swept n c r c') (placed : At n count c) : At n (count + r) c' := by
  induction swept generalizing count with
  | stop _ => exact placed
  | retire _ _ ih =>
      have moved := ih (placed.retireHead positive)
      rwa [Nat.add_right_comm, Nat.add_assoc] at moved

theorem retireHead_head_lt {n : Nat} {c : RetireCursor} (bound : c.head < n) :
    (c.retireHead n).head < n := by
  simp only [retireHead]
  split <;> omega

theorem Swept.setCount {n r : Nat} {c c' : RetireCursor} (swept : Swept n c r c')
    (bound : c.head < n) : r + setCount c'.mark n = setCount c.mark n := by
  induction swept with
  | stop _ => simp
  | @retire c c' r marked _ ih =>
      have cleared := setCount_clear bound marked
      have remaining := ih (retireHead_head_lt bound)
      simp only [RetireCursor.retireHead] at remaining
      omega

theorem swept_exists {n : Nat} {c : RetireCursor} (bound : c.head < n) :
    ∃ r c', Swept n c r c' := by
  induction total : setCount c.mark n using Nat.strong_induction_on generalizing c with
  | _ marks ih =>
      by_cases marked : c.mark c.head = true
      · have cleared := setCount_clear bound marked
        have fewer : setCount (c.retireHead n).mark n < marks := by
          simp only [RetireCursor.retireHead]
          omega
        obtain ⟨r, c', rest⟩ := ih _ fewer (retireHead_head_lt bound) rfl
        exact ⟨r + 1, c', .retire marked rest⟩
      · exact ⟨0, c, .stop (by simpa using marked)⟩

/-- The counters `low ≤ j < high` own the slots of the ring; a slot of theirs is marked
exactly when its counter is no longer pending, and no other slot is marked. -/
structure Retiring (n low high : Nat) (pending : Nat → Prop) (c : RetireCursor) : Prop where
  placed : At n low c
  ordered : low ≤ high
  fits : high ≤ low + n
  owned : ∀ j, low ≤ j → j < high → (c.mark (j % n) = true ↔ ¬ pending j)
  only : ∀ l, l < n → c.mark l = true → ∃ j, low ≤ j ∧ j < high ∧ j % n = l

namespace Retiring

variable {n low high : Nat} {pending : Nat → Prop} {c c' : RetireCursor}

theorem empty (n : Nat) (pending : Nat → Prop) {c : RetireCursor} (start : At n low c)
    (clear : ∀ l, l < n → c.mark l = false) : Retiring n low low pending c where
  placed := start
  ordered := le_rfl
  fits := by omega
  owned := by omega
  only := by
    intro l bound marked
    simp [clear l bound] at marked

theorem retireHead (positive : 0 < n) (window : Retiring n low high pending c)
    (marked : c.mark c.head = true) :
    low < high ∧ ¬ pending low ∧ Retiring n (low + 1) high pending (c.retireHead n) := by
  obtain ⟨placed, ordered, fits, owned, only⟩ := window
  have headSlot := placed.1
  rw [headSlot] at marked
  obtain ⟨j, above, below, slot⟩ := only _ (Nat.mod_lt low positive) marked
  have nonempty : low < high := by omega
  refine ⟨nonempty, (owned low le_rfl nonempty).mp marked, ?_⟩
  constructor
  · exact placed.retireHead positive
  · omega
  · omega
  · intro k above' below'
    have other : k % n ≠ low % n := by
      intro same
      have := slot_inj low ⟨by omega, by omega⟩ ⟨le_rfl, by omega⟩ same
      omega
    simpa [RetireCursor.retireHead, headSlot, other] using owned k (by omega) below'
  · intro l bound stillMarked
    have other : l ≠ low % n := by
      rintro rfl
      simp [RetireCursor.retireHead, headSlot] at stillMarked
    rw [RetireCursor.retireHead, headSlot] at stillMarked
    simp only [Function.update_of_ne other] at stillMarked
    obtain ⟨k, kAbove, kBelow, kSlot⟩ := only l bound stillMarked
    have moved : k ≠ low := by
      rintro rfl
      exact other kSlot.symm
    exact ⟨k, by omega, kBelow, kSlot⟩

/-- A sweep retires counters that are no longer pending and stops at one that is. -/
theorem swept {r : Nat} (positive : 0 < n) (window : Retiring n low high pending c)
    (moves : Swept n c r c') :
    Retiring n (low + r) high pending c' ∧ (∀ j, low ≤ j → j < low + r → ¬ pending j) ∧
      (low + r < high → pending (low + r)) := by
  induction moves generalizing low with
  | stop clear =>
      refine ⟨window, by omega, ?_⟩
      intro nonempty
      by_contra gone
      have marked := (window.owned low le_rfl nonempty).mpr gone
      rw [← window.placed.1] at marked
      simp [clear] at marked
  | @retire c c' r marked _ ih =>
      obtain ⟨_, gone, next⟩ := window.retireHead positive marked
      obtain ⟨window', before, stops⟩ := ih next
      have shift : low + (r + 1) = low + 1 + r := by omega
      rw [shift]
      refine ⟨window', ?_, stops⟩
      intro j above below
      rcases Nat.eq_or_lt_of_le above with rfl | later
      · exact gone
      · exact before j later below

theorem release {k : Nat} (window : Retiring n low high pending c) (above : low ≤ k)
    (below : k < high) :
    Retiring n low high (fun j => pending j ∧ j ≠ k)
      { c with mark := Function.update c.mark (k % n) true } := by
  obtain ⟨placed, ordered, fits, owned, only⟩ := window
  constructor
  · exact placed
  · exact ordered
  · exact fits
  · intro j jAbove jBelow
    by_cases same : j = k
    · simp [same]
    · have other : j % n ≠ k % n := by
        intro slots
        exact same (slot_inj low ⟨jAbove, by omega⟩ ⟨above, by omega⟩ slots)
      simpa [other, same] using owned j jAbove jBelow
  · intro l bound marked
    by_cases same : l = k % n
    · exact ⟨k, above, below, same.symm⟩
    · simp only [Function.update_of_ne same] at marked
      exact only l bound marked

theorem extend (window : Retiring n low high pending c) (room : high < low + n)
    (enters : pending high) : Retiring n low (high + 1) pending c := by
  obtain ⟨placed, ordered, fits, owned, only⟩ := window
  have positive : 0 < n := by omega
  constructor
  · exact placed
  · omega
  · omega
  · intro j above below
    rcases Nat.lt_succ_iff_lt_or_eq.mp below with earlier | rfl
    · exact owned j above earlier
    · have unmarked : ¬ c.mark (j % n) = true := by
        intro marked
        obtain ⟨k, kAbove, kBelow, slot⟩ := only _ (Nat.mod_lt j positive) marked
        have := slot_inj low ⟨kAbove, by omega⟩ ⟨above, by omega⟩ slot
        omega
      simp [unmarked, enters]
  · intro l bound marked
    obtain ⟨k, kAbove, kBelow, slot⟩ := only l bound marked
    exact ⟨k, kAbove, by omega, slot⟩

theorem congr (pending' : Nat → Prop) (window : Retiring n low high pending c)
    (agree : ∀ j, low ≤ j → j < high → (pending j ↔ pending' j)) :
    Retiring n low high pending' c where
  placed := window.placed
  ordered := window.ordered
  fits := window.fits
  owned := fun j above below => by rw [window.owned j above below, agree j above below]
  only := window.only

end Retiring

end RetireCursor

end BafsNvme
