import BafsNvme.AdminRing

/-! The fullness test of `admin_enqueue_command` at every ring size, a power of two or not, against
the number of slots in use. -/

namespace BafsNvme

namespace Window

theorem mod_eq_pred_iff {n k : Nat} (positive : 0 < n) : k % n = n - 1 ↔ n ∣ k + 1 := by
  rw [Nat.dvd_iff_mod_eq_zero, slot_next positive]
  have bound := Nat.mod_lt k positive
  split <;> omega

theorem sub_mod_eq_pred_iff {n m d : Nat} (small : d < n) (within : d ≤ m) :
    (m - d) % n = n - 1 ↔ (m + 1) % n = d := by
  have whole : m - d + 1 = m + 1 - d := by omega
  rw [mod_eq_pred_iff (by omega), whole, ← Nat.modEq_iff_dvd' (by omega), Nat.ModEq,
    Nat.mod_eq_of_lt small, eq_comm]

end Window

open Window

def sqUsed (sq : Ring Cmd) : Nat := (sq.tail + sq.qs - sq.head) % sq.qs

def ringsAt (size head tail : Nat) : AdminRings :=
  let rings := adminInitRings size (fun _ => Cpl.zero) fun _ => clearCmd
  { rings with sq := { rings.sq with head := head, tail := tail } }

section Occupancy

variable {sq : Ring Cmd}

theorem sqFull_ahead (small : sq.qs ≤ 4096) (tail : sq.tail < sq.qs) (ahead : sq.head ≤ sq.tail) :
    sqFull sq = true ↔ sqUsed sq = sq.qs - 1 := by
  have distance : sq.tail + 2 ^ 64 - sq.head = sq.tail - sq.head + 2 ^ 64 := by omega
  have lap : sq.tail + sq.qs - sq.head = sq.tail - sq.head + sq.qs := by omega
  have short : sq.tail - sq.head < 2 ^ 16 := by omega
  rw [sqFull, beq_iff_eq, sqUsed, distance, lap, Nat.add_mod_right, Nat.add_mod_right,
    Nat.mod_eq_of_lt (lt_trans short (by norm_num)), Nat.mod_eq_of_lt short]

/-- Behind the head the casts leave 65536 less the distance, and the test takes its remainder. -/
theorem sqFull_behind (small : sq.qs ≤ 4096) (head : sq.head < sq.qs) (behind : sq.tail < sq.head) :
    sqFull sq = true ↔ (2 ^ 16 + 1) % sq.qs = sq.head - sq.tail := by
  have wide : (sq.tail + 2 ^ 64 - sq.head) % 2 ^ 64 = 2 ^ 64 - (sq.head - sq.tail) := by
    rw [Nat.mod_eq_of_lt (by omega)]
    omega
  have cast : (2 ^ 64 - (sq.head - sq.tail)) % 2 ^ 16 = 2 ^ 16 - (sq.head - sq.tail) := by
    omega
  rw [sqFull, beq_iff_eq, wide, cast]
  exact sub_mod_eq_pred_iff (by omega) (by omega)

theorem sqUsed_behind (head : sq.head < sq.qs) (behind : sq.tail < sq.head) :
    sqUsed sq = sq.qs - 1 ↔ sq.head - sq.tail = 1 := by
  have inside : sq.tail + sq.qs - sq.head < sq.qs := by omega
  rw [sqUsed, Nat.mod_eq_of_lt inside]
  omega

theorem dvd_iff_succ_mod {n : Nat} (two : 2 ≤ n) : n ∣ 2 ^ 16 ↔ (2 ^ 16 + 1) % n = 1 := by
  rw [Nat.dvd_iff_mod_eq_zero, slot_next (by omega)]
  have bound := Nat.mod_lt (2 ^ 16) (by omega : 0 < n)
  split <;> omega

def FullnessExact (sq : Ring Cmd) : Prop := sqFull sq = true ↔ sqUsed sq = sq.qs - 1

/-- The tail is not behind the head, or the size divides 65536, or the distance is neither of the
two at which the test and the slots in use differ. -/
def CastsHarmless (sq : Ring Cmd) : Prop :=
  sq.head ≤ sq.tail ∨ sq.qs ∣ 2 ^ 16 ∨
    (sq.head - sq.tail ≠ 1 ∧ sq.head - sq.tail ≠ (2 ^ 16 + 1) % sq.qs)

theorem fullnessExact_iff (two : 2 ≤ sq.qs) (small : sq.qs ≤ 4096) (head : sq.head < sq.qs)
    (tail : sq.tail < sq.qs) : FullnessExact sq ↔ CastsHarmless sq := by
  by_cases ahead : sq.head ≤ sq.tail
  · exact iff_of_true (sqFull_ahead small tail ahead) (.inl ahead)
  · have behind := not_le.mp ahead
    rw [FullnessExact, CastsHarmless, sqFull_behind small head behind, sqUsed_behind head behind,
      dvd_iff_succ_mod two]
    omega

/-- Over all positions of head and tail exactly the sizes that divide 65536 are safe. -/
theorem fullnessExact_size {n : Nat} (two : 2 ≤ n) (small : n ≤ 4096) :
    (∀ sq : Ring Cmd, sq.qs = n → sq.head < n → sq.tail < n → FullnessExact sq) ↔ n ∣ 2 ^ 16 := by
  constructor
  · intro all
    -- a full ring whose tail has just wrapped
    have head : (ringsAt n 1 0).sq.head < (ringsAt n 1 0).sq.qs := two
    have tail : (ringsAt n 1 0).sq.tail < (ringsAt n 1 0).sq.qs := Nat.zero_lt_of_lt two
    rcases (fullnessExact_iff two small head tail).mp (all _ rfl head tail) with
      ahead | divides | ⟨notOne, _⟩
    · exact absurd ahead (Nat.not_succ_le_zero 0)
    · exact divides
    · exact absurd rfl notOne
  · rintro divides sq rfl head tail
    exact (fullnessExact_iff two small head tail).mpr (.inr (.inl divides))

end Occupancy

theorem refused_unchanged (aqp : AdminRings) (cmd_ : Cmd)
    (refused : (adminEnqueueCommand aqp cmd_).1 = none) :
    (adminEnqueueCommand aqp cmd_).2 = (aqp, cmd_) := by
  rcases adminEnqueueCommand_cases aqp cmd_ with ⟨same, _⟩ | ⟨cid, _, _, accepted⟩
  · rw [same]
  · rw [accepted] at refused
    cases refused

def EnqueueExact (aqp : AdminRings) (cmd_ : Cmd) : Prop :=
  FullnessExact aqp.sq ∧
    ((adminEnqueueCommand aqp cmd_).1 = none → (adminEnqueueCommand aqp cmd_).2 = (aqp, cmd_))

/-- At every size that `admin_init` derives, the test refuses a command exactly if all but one slot
are in use, and a refused call changes nothing, if and only if the casts are harmless there. -/
theorem enqueue_exact_iff (aqp : AdminRings) (cmd_ : Cmd) (cap0 : Dword)
    (size : aqp.sq.qs = initQueueSize cap0) (two : 2 ≤ aqp.sq.qs) (head : aqp.sq.head < aqp.sq.qs)
    (tail : aqp.sq.tail < aqp.sq.qs) : EnqueueExact aqp cmd_ ↔ CastsHarmless aqp.sq := by
  have small : aqp.sq.qs ≤ 4096 := size ▸ (initQueueSize_bounds cap0).2
  rw [← fullnessExact_iff two small head tail]
  exact and_iff_left (refused_unchanged aqp cmd_)

theorem enqueue_exact_five_slots : EnqueueExact (ringsAt 5 4 1) devSelfTestCmd :=
  (enqueue_exact_iff (ringsAt 5 4 1) devSelfTestCmd 4#32 (by decide) (by decide) (by decide)
    (by decide)).mpr (.inr (.inr (by decide)))

/-- Three slots, two of them in use, the tail wrapped: the command is taken and overwrites the
slot that keeps full from looking empty. -/
theorem full_ring_accepts :
    ¬ ∀ (aqp : AdminRings) (cmd_ : Cmd) (cap0 : Dword), aqp.sq.qs = initQueueSize cap0 →
      2 ≤ aqp.sq.qs → aqp.sq.head < aqp.sq.qs → aqp.sq.tail < aqp.sq.qs →
        EnqueueExact aqp cmd_ := by
  intro enqueue_always_exact
  have exact := (enqueue_always_exact (ringsAt 3 1 0) devSelfTestCmd 2#32 (by decide) (by decide)
    (by decide)
    (by decide)).1
  have used : sqUsed (ringsAt 3 1 0).sq = 2 := by decide
  exact absurd (exact.mpr used) (by decide)

end BafsNvme
