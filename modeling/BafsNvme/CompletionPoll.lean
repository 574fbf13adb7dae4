import BafsNvme.CompletionQueue

/-! One `admin_cq_poll` over a window of posted completions that may go on past the end of the
ring. -/

namespace BafsNvme

theorem pollScan_none {cq : Ring Cpl} {cid i left : Nat} (ends : cq.head + i + left + 1 = cq.qs)
    (missed : pollScan cq cid i left = none) :
    ∀ l, cq.head + i ≤ l → l < cq.qs → pollMatches cq cid l = false := by
  induction left generalizing i with
  | zero =>
      intro l above below
      have slot : (cq.head + i) % cq.qs = l := by
        rw [Nat.mod_eq_of_lt (by omega)]
        omega
      simpa only [pollScan, slot, ite_eq_right_iff, reduceCtorEq, imp_false, Bool.not_eq_true]
        using missed
  | succ left ih =>
      have slot : (cq.head + i) % cq.qs = cq.head + i := Nat.mod_eq_of_lt (by omega)
      simp only [pollScan, slot] at missed
      split at missed
      · cases missed
      · next here =>
        intro l above below
        rcases Nat.eq_or_lt_of_le above with rfl | later
        · exact Bool.eq_false_of_not_eq_true here
        · exact ih (by omega) missed l (by omega) below

theorem adminCqPoll_none {aqp : AdminRings} {cid : Nat} (bound : aqp.cq.head < aqp.cq.qs)
    (missed : adminCqPoll aqp cid = none) {l : Nat} (above : aqp.cq.head ≤ l) (below : l < aqp.cq.qs) :
    pollMatches aqp.cq cid l = false :=
  pollScan_none (by omega) missed l above below

namespace Ring

def windowSlot {α : Type} (q : Ring α) (k : Nat) : Nat := (q.head + k) % q.qs

theorem windowSlot_cases {α : Type} {q : Ring α} (bound : q.head < q.qs) {k : Nat}
    (inside : k < q.qs) :
    (q.head + k < q.qs ∧ q.windowSlot k = q.head + k) ∨
      (q.qs ≤ q.head + k ∧ q.windowSlot k + q.qs = q.head + k) := by
  rw [windowSlot]
  rcases Nat.lt_or_ge (q.head + k) q.qs with before | past
  · exact .inl ⟨before, Nat.mod_eq_of_lt before⟩
  · refine .inr ⟨past, ?_⟩
    rw [Nat.mod_eq_sub_mod past, Nat.mod_eq_of_lt (by omega)]
    omega

end Ring

/-- `n` completions posted and not yet retired, from the head on, in a ring whose other slots hold
what was posted there last. -/
structure CqWindow (cq : Ring Cpl) (n : Nat) : Prop where
  size : 2 ≤ cq.qs ∧ cq.qs ≤ 4096
  head : cq.head < cq.qs
  short : n ≤ cq.qs - 1
  apart : ∀ k, k < n → ∀ k', k' < n →
    (cq.addr (cq.windowSlot k)).cid = (cq.addr (cq.windowSlot k')).cid → k = k'
  beforeWrap : ∀ k, k < n → cq.head + k < cq.qs → (cq.addr (cq.windowSlot k)).phase = cq.phase
  afterWrap : ∀ k, k < n → cq.qs ≤ cq.head + k → (cq.addr (cq.windowSlot k)).phase = !cq.phase
  below : ∀ l, l < cq.head → (∀ k, k < n → cq.windowSlot k ≠ l) → (cq.addr l).phase = cq.phase
  above : ∀ l, cq.head ≤ l → l < cq.qs → (∀ k, k < n → cq.windowSlot k ≠ l) →
    (cq.addr l).phase = !cq.phase

def PollExact (aqp : AdminRings) (n cid : Nat) : Prop :=
  (∀ k, k < n → (aqp.cq.addr (aqp.cq.windowSlot k)).cid = cid →
      adminCqPoll aqp cid = some (aqp.cq.windowSlot k)) ∧
    ((∀ k, k < n → (aqp.cq.addr (aqp.cq.windowSlot k)).cid ≠ cid) → adminCqPoll aqp cid = none)

theorem CqWindow.matches_iff {cq : Ring Cpl} {n : Nat} (window : CqWindow cq n) {cid l : Nat}
    (above : cq.head ≤ l) (below : l < cq.qs) :
    pollMatches cq cid l = true ↔
      ∃ k, k < n ∧ cq.head + k = l ∧ (cq.addr (cq.windowSlot k)).cid = cid := by
  have head := window.head
  have short := window.short
  simp only [pollMatches, Bool.and_eq_true, beq_iff_eq]
  by_cases inside : l - cq.head < n
  · have place : cq.head + (l - cq.head) = l := Nat.add_sub_cancel' above
    have slot : cq.windowSlot (l - cq.head) = l := by
      rw [Ring.windowSlot, place]
      exact Nat.mod_eq_of_lt below
    have phase := window.beforeWrap (l - cq.head) inside (by omega)
    rw [slot] at phase
    constructor
    · rintro ⟨same, _⟩
      exact ⟨l - cq.head, inside, place, by rw [slot]; exact same⟩
    · rintro ⟨k, _, here, same⟩
      obtain rfl : k = l - cq.head := by omega
      rw [slot] at same
      exact ⟨same, phase⟩
  · have outside : ∀ k, k < n → cq.windowSlot k ≠ l := by
      intro k bound
      rcases Ring.windowSlot_cases head (by omega : k < cq.qs) with ⟨_, slot⟩ | ⟨_, slot⟩
      · omega
      · omega
    have phase := window.above l above below outside
    apply iff_of_false
    · rintro ⟨_, same⟩
      rw [phase] at same
      exact Bool.not_ne_self _ same
    · rintro ⟨k, bound, here, _⟩
      omega

/-- The poll is right about a CID if and only if its completion, if there is one, stands before the
end of the ring. -/
theorem poll_exact_iff (aqp : AdminRings) (n : Nat) (window : CqWindow aqp.cq n) (cid : Nat) :
    PollExact aqp n cid ↔
      ∀ k, k < n → (aqp.cq.addr (aqp.cq.windowSlot k)).cid = cid → aqp.cq.head + k < aqp.cq.qs := by
  have head := window.head
  have short := window.short
  have found {l : Nat} (hit : adminCqPoll aqp cid = some l) :
      ∃ k, k < n ∧ aqp.cq.head + k = l ∧ (aqp.cq.addr (aqp.cq.windowSlot k)).cid = cid := by
    obtain ⟨above, below, same, phase⟩ := adminCqPoll_some head hit
    apply (window.matches_iff above below).mp
    rw [pollMatches, same, phase, beq_self_eq_true, beq_self_eq_true, Bool.and_self]
  constructor
  · rintro ⟨present, _⟩ k bound same
    obtain ⟨above, _⟩ := adminCqPoll_some head (present k bound same)
    rcases Ring.windowSlot_cases head (by omega : k < aqp.cq.qs) with ⟨before, _⟩ | ⟨_, slot⟩
    · exact before
    · omega
  · intro beforeEnd
    constructor
    · intro k bound same
      have before := beforeEnd k bound same
      cases polled : adminCqPoll aqp cid with
      | none =>
          have missed := adminCqPoll_none head polled (Nat.le_add_right _ k) before
          have hit := (window.matches_iff (Nat.le_add_right _ k) before).mpr ⟨k, bound, rfl, same⟩
          rw [missed] at hit
          cases hit
      | some l =>
          obtain ⟨k', bound', here, same'⟩ := found polled
          obtain rfl : k = k' := window.apart k bound k' bound' (same.trans same'.symm)
          rw [← here, Ring.windowSlot, Nat.mod_eq_of_lt before]
    · intro absent
      cases polled : adminCqPoll aqp cid with
      | none => rfl
      | some l =>
          obtain ⟨k, bound, _, same⟩ := found polled
          exact absurd same (absent k bound)

def fourSlots (head : Nat) (entries : Nat → Cpl) : AdminRings :=
  { adminInitRings 4 entries (fun _ => clearCmd) with
    cq := { (adminInitRings 4 entries fun _ => clearCmd).cq with head := head } }

theorem poll_exact_unwrapped :
    PollExact (fourSlots 1 fun l => Cpl.answer l (l != 3) 0) 2 2 := by
  have window : CqWindow (fourSlots 1 fun l => Cpl.answer l (l != 3) 0).cq 2 := by
    constructor <;> decide
  exact (poll_exact_iff _ 2 window 2).mpr (by decide)

/-- Two completions in slots 3 and 0: the second one, posted in the next pass, is not found. -/
theorem wrapped_completion_missed :
    ¬ ∀ (aqp : AdminRings) (n : Nat), CqWindow aqp.cq n → ∀ cid, PollExact aqp n cid := by
  intro poll_always_exact
  let entries : Nat → Cpl := fun l => if l = 0 then Cpl.answer 1 false 0 else Cpl.answer 0 true 0
  have window : CqWindow (fourSlots 3 entries).cq 2 := by
    constructor <;> decide
  have present := (poll_always_exact (fourSlots 3 entries) 2 window 1).1 1 (by decide) (by decide)
  exact absurd present (by decide)

end BafsNvme
