import BafsNvme.AdminRing

/-! Retirement in any order: what a sequence of cleanups leaves behind. -/

namespace BafsNvme

open Window RetireCursor

theorem foldlM_done {α β : Type} {f : β → α → Option β} (P : List α → β → Prop) {Q : α → Prop}
    (step : ∀ done x s, Q x → x ∉ done → P done s → ∃ s', f s x = some s' ∧ P (x :: done) s')
    {xs : List α} (each : ∀ x ∈ xs, Q x) (distinct : xs.Nodup) {done : List α}
    (fresh : ∀ x ∈ xs, x ∉ done) {s : β} (start : P done s) :
    ∃ s', xs.foldlM f s = some s' ∧ P (xs.reverse ++ done) s' := by
  induction xs generalizing done s with
  | nil => exact ⟨s, rfl, start⟩
  | cons x xs ih =>
      obtain ⟨notLater, distinct⟩ := List.nodup_cons.mp distinct
      obtain ⟨s₁, taken, now⟩ :=
        step done x s (each x List.mem_cons_self) (fresh x List.mem_cons_self) start
      have others : ∀ y ∈ xs, y ∉ x :: done := by
        intro y member again
        rcases List.mem_cons.mp again with rfl | before
        · exact notLater member
        · exact fresh y (List.mem_cons_of_mem x member) before
      obtain ⟨s', ran, holds⟩ :=
        ih (fun y member => each y (List.mem_cons_of_mem x member)) distinct others now
      refine ⟨s', ?_, ?_⟩
      · rw [List.foldlM_cons, taken]
        exact ran
      · rwa [List.reverse_cons, List.append_assoc]

theorem takeWhile_range_length {m p : Nat} {q : Nat → Bool} (most : p ≤ m)
    (before : ∀ k, k < p → q k = true) (stops : p < m → q p = false) :
    ((List.range m).takeWhile q).length = p := by
  obtain ⟨rest, rfl⟩ := Nat.exists_eq_add_of_le most
  rw [List.range_add, List.takeWhile_append_of_pos (by simpa using before)]
  cases rest with
  | zero => simp
  | succ rest => simp [List.range_succ_eq_map, stops (by omega)]

theorem passPhase_add {n k p : Nat} (short : p < n) :
    passPhase n (k + p) = if k % n + p < n then passPhase n k else !passPhase n k := by
  have bound := Nat.mod_lt k (Nat.zero_lt_of_lt short)
  have pass : (k + p) / n = (k % n + p) / n + k / n := by
    calc
      (k + p) / n = (k % n + p + n * (k / n)) / n := by
        congr 1
        have split := Nat.mod_add_div k n
        omega
      _ = (k % n + p) / n + k / n := Nat.add_mul_div_left _ _ (Nat.zero_lt_of_lt short)
  split
  · next stays => rw [passPhase, passPhase, pass, Nat.div_eq_of_lt stays, Nat.zero_add]
  · next wraps =>
    have once : (k % n + p) / n = 1 := Nat.div_eq_of_lt_le (by omega) (by omega)
    rw [passPhase, passPhase, pass, once]
    rcases Nat.mod_two_eq_zero_or_one (k / n) with even | odd
    · have next : (1 + k / n) % 2 = 1 := by omega
      simp [even, next]
    · have next : (1 + k / n) % 2 = 0 := by omega
      simp [odd, next]

namespace RetireCursor

theorem at_exists {n : Nat} {c : RetireCursor} (bound : c.head < n) : ∃ low, At n low c := by
  cases phase : c.phase with
  | true => exact ⟨c.head, (Nat.mod_eq_of_lt bound).symm, phase.trans (passPhase_first bound).symm⟩
  | false =>
      refine ⟨c.head + n, ?_, ?_⟩
      · rw [Nat.add_mod_right, Nat.mod_eq_of_lt bound]
      · have second : (c.head + n) / n = 1 := Nat.div_eq_of_lt_le (by omega) (by omega)
        rw [phase, passPhase, second]
        rfl

/-- Of the `m` counters from `low` on those with their slot in `done` are retired, and the first
one that is not is `low + p`. -/
structure Settled (n low m p : Nat) (done : List Nat) (c : RetireCursor) : Prop where
  window : Retiring n (low + p) (low + m) (fun j => j % n ∉ done) c
  before : ∀ k, k < p → (low + k) % n ∈ done
  stops : p < m → (low + p) % n ∉ done

namespace Settled

variable {n low m p : Nat} {done : List Nat} {c c' : RetireCursor}

theorem start (placed : At n low c) (fits : m ≤ n) (clear : ∀ l, l < n → c.mark l = false) :
    Settled n low m 0 [] c where
  window :=
    { placed := placed
      ordered := by omega
      fits := by omega
      owned := by
        intro j above below
        simp [clear _ (Nat.mod_lt j (by omega : 0 < n))]
      only := by
        intro l bound marked
        simp [clear l bound] at marked }
  before := by omega
  stops _ := List.not_mem_nil

theorem most (settled : Settled n low m p done c) : p ≤ m :=
  Nat.add_le_add_iff_left.mp settled.window.ordered

theorem head_lt (settled : Settled n low m p done c) (positive : 0 < n) : c.head < n := by
  rw [settled.window.placed.1]
  exact Nat.mod_lt _ positive

theorem step (settled : Settled n low m p done c) (positive : 0 < n) {k r : Nat} (inside : k < m)
    (fresh : (low + k) % n ∉ done) (moves : Swept n (markAt c ((low + k) % n)) r c') :
    Settled n low m (p + r) ((low + k) % n :: done) c' := by
  have fits := settled.window.fits
  have ahead : p ≤ k := by
    by_contra behind
    exact fresh (settled.before k (by omega))
  have released := settled.window.release (k := low + k) (by omega) (by omega)
  have marked : Retiring n (low + p) (low + m) (fun j => j % n ∉ (low + k) % n :: done)
      (markAt c ((low + k) % n)) := by
    apply released.congr
    intro j above below
    rw [List.mem_cons, not_or, and_comm]
    apply and_congr_left
    intro _
    rw [not_iff_not]
    constructor
    · rintro rfl
      rfl
    · exact slot_inj (low + p) ⟨above, by omega⟩ ⟨by omega, by omega⟩
  obtain ⟨window, gone, stops⟩ := marked.swept positive moves
  rw [Nat.add_assoc] at window gone stops
  constructor
  · exact window
  · intro j below
    by_cases early : j < p
    · exact List.mem_cons_of_mem _ (settled.before j early)
    · exact not_not.mp (gone (low + j) (by omega) (by omega))
  · exact fun room => stops (by omega)

theorem congr (settled : Settled n low m p done c) {done' : List Nat}
    (same : ∀ l, l ∈ done' ↔ l ∈ done) : Settled n low m p done' c where
  window := settled.window.congr _ fun _ _ _ => not_congr (same _).symm
  before k early := (same _).mpr (settled.before k early)
  stops room := mt (same _).mp (settled.stops room)

theorem head_eq_iff {done' : List Nat} {r : Nat} (room : m < n)
    (settled : Settled n low m p done c) (later : Settled n low m (p + r) done' c') :
    c.head = c'.head ↔ r = 0 := by
  have most := later.most
  rw [settled.window.placed.1, later.window.placed.1]
  constructor
  · intro same
    have := slot_inj low ⟨by omega, by omega⟩ ⟨by omega, by omega⟩ same
    omega
  · rintro rfl
    rfl

end Settled

end RetireCursor

structure RetireWindow (qs m : Nat) (c : RetireCursor) (slots : List Nat) : Prop where
  least : 2 ≤ qs
  most : qs ≤ 4096
  head : c.head < qs
  room : m ≤ qs - 1
  clear : ∀ l, l < qs → c.mark l = false
  distinct : slots.Nodup
  inside : ∀ l ∈ slots, ∃ k, k < m ∧ l = (c.head + k) % qs

def retiredPrefix (qs head m : Nat) (slots : List Nat) : Nat :=
  ((List.range m).takeWhile fun k => decide ((head + k) % qs ∈ slots)).length

structure RetiredTo (qs m : Nat) (slots : List Nat) (c c' : RetireCursor) : Prop where
  head : c'.head = (c.head + retiredPrefix qs c.head m slots) % qs
  phase : c'.phase = if c.head + retiredPrefix qs c.head m slots < qs then c.phase else !c.phase
  marks : ∀ l, l < qs → (c'.mark l = true ↔
    l ∈ slots ∧ ∀ k, k < retiredPrefix qs c.head m slots → (c.head + k) % qs ≠ l)

namespace RetireWindow

variable {qs m low p : Nat} {slots : List Nat} {c c' : RetireCursor}

theorem slot_of (window : RetireWindow qs m c slots) (placed : At qs low c) :
    ∀ l ∈ slots, ∃ k, k < m ∧ l = (low + k) % qs := by
  intro l member
  obtain ⟨k, inside, slot⟩ := window.inside l member
  exact ⟨k, inside, by rw [slot, placed.1, Nat.mod_add_mod]⟩

theorem start (window : RetireWindow qs m c slots) (placed : At qs low c) :
    Settled qs low m 0 [] c :=
  .start placed (window.room.trans (Nat.sub_le qs 1)) window.clear

theorem prefix_eq (placed : At qs low c) (settled : Settled qs low m p slots c') :
    retiredPrefix qs c.head m slots = p := by
  apply takeWhile_range_length settled.most
  · intro k early
    rw [placed.1, Nat.mod_add_mod]
    exact decide_eq_true (settled.before k early)
  · intro room
    rw [placed.1, Nat.mod_add_mod]
    exact decide_eq_false (settled.stops room)

theorem retiredTo (window : RetireWindow qs m c slots) (placed : At qs low c)
    (settled : Settled qs low m p slots c') : RetiredTo qs m slots c c' := by
  have most := settled.most
  have room := window.room
  have least := window.least
  have size : low + m ≤ low + p + qs := by omega
  have now := settled.window
  have slots_eq (k : Nat) : (c.head + k) % qs = (low + k) % qs := by
    rw [placed.1, Nat.mod_add_mod]
  constructor
  · rw [prefix_eq placed settled, slots_eq, now.placed.1]
  · rw [prefix_eq placed settled, now.placed.2, placed.1, placed.2]
    exact passPhase_add (by omega)
  · intro l bound
    rw [prefix_eq placed settled]
    constructor
    · intro marked
      obtain ⟨j, above, below, rfl⟩ := now.only l bound marked
      refine ⟨not_not.mp ((now.owned j above below).mp marked), ?_⟩
      intro k early same
      rw [slots_eq] at same
      have := slot_inj low ⟨by omega, by omega⟩ ⟨by omega, by omega⟩ same
      omega
    · rintro ⟨member, beyond⟩
      obtain ⟨k, inside, rfl⟩ := window.slot_of placed l member
      have late : p ≤ k := by
        by_contra early
        exact beyond k (Nat.lt_of_not_le early) (slots_eq k)
      exact (now.owned (low + k) (by omega) (by omega)).mpr (not_not.mpr member)

theorem perm {other : List Nat} (window : RetireWindow qs m c slots) (same : slots.Perm other) :
    RetireWindow qs m c other :=
  { window with
    distinct := same.nodup_iff.mp window.distinct
    inside := fun l member => window.inside l (same.mem_iff.mpr member) }

end RetireWindow

structure RetireCursor.Agree (qs : Nat) (c c' : RetireCursor) : Prop where
  head : c.head = c'.head
  phase : c.phase = c'.phase
  marks : ∀ l, l < qs → c.mark l = c'.mark l

theorem RetiredTo.unique {qs m : Nat} {slots other : List Nat} {c c₁ c₂ : RetireCursor}
    (first : RetiredTo qs m slots c c₁) (second : RetiredTo qs m other c c₂)
    (same : slots.Perm other) : c₁.Agree qs c₂ := by
  have prefixes : retiredPrefix qs c.head m other = retiredPrefix qs c.head m slots := by
    simp only [retiredPrefix, same.mem_iff]
  constructor
  · rw [first.head, second.head, prefixes]
  · rw [first.phase, second.phase, prefixes]
  · intro l bound
    rw [Bool.eq_iff_iff, first.marks l bound, second.marks l bound, prefixes, same.mem_iff]

variable {aqp : AdminRings} {m : Nat} {slots : List Nat}

theorem sq_retires (window : RetireWindow aqp.sq.qs m aqp.sq.toRetireCursor slots) :
    ∃ aqp', slots.foldlM adminSqMarkCleanup aqp = some aqp' ∧
      RetiredTo aqp.sq.qs m slots aqp.sq.toRetireCursor aqp'.sq.toRetireCursor := by
  obtain ⟨low, placed⟩ := at_exists window.head
  have positive : 0 < aqp.sq.qs := Nat.lt_of_lt_of_le Nat.two_pos window.least
  obtain ⟨aqp', ran, p, size, settled⟩ := foldlM_done (f := adminSqMarkCleanup)
    (fun done s => ∃ p, s.sq.qs = aqp.sq.qs ∧
      Settled aqp.sq.qs low m p done s.sq.toRetireCursor)
    (by
      rintro done l s ⟨k, inside, rfl⟩ fresh ⟨p, size, settled⟩
      obtain ⟨r, c, _, moves, ended⟩ := adminSqMarkCleanup_swept s ((low + k) % aqp.sq.qs)
        (size ▸ settled.head_lt positive) (size ▸ window.most)
      rw [size] at moves
      exact ⟨_, ended, p + r, size, settled.step positive inside fresh moves⟩)
    (window.slot_of placed) window.distinct (fun _ _ => List.not_mem_nil)
    ⟨0, rfl, window.start placed⟩
  exact ⟨aqp', ran, window.retiredTo placed (settled.congr (by simp))⟩

theorem cq_retires (window : RetireWindow aqp.cq.qs m aqp.cq.toRetireCursor slots) :
    ∃ aqp', slots.foldlM adminCqMarkCleanup aqp = some aqp' ∧
      RetiredTo aqp.cq.qs m slots aqp.cq.toRetireCursor aqp'.cq.toRetireCursor ∧
      aqp'.cq.db =
        if retiredPrefix aqp.cq.qs aqp.cq.head m slots = 0 then aqp.cq.db
        else some aqp'.cq.head := by
  obtain ⟨low, placed⟩ := at_exists window.head
  have least := window.least
  have room := window.room
  have positive : 0 < aqp.cq.qs := by omega
  obtain ⟨aqp', ran, p, size, settled, db⟩ := foldlM_done (f := adminCqMarkCleanup)
    (fun done s => ∃ p, s.cq.qs = aqp.cq.qs ∧
      Settled aqp.cq.qs low m p done s.cq.toRetireCursor ∧
      s.cq.db = if p = 0 then aqp.cq.db else some s.cq.head)
    (by
      rintro done l s ⟨k, inside, rfl⟩ fresh ⟨p, size, settled, db⟩
      obtain ⟨r, c, _, moves, ended⟩ := adminCqMarkCleanup_swept s ((low + k) % aqp.cq.qs)
        (size ▸ settled.head_lt positive) (size ▸ window.most)
      rw [size] at moves
      have next := settled.step positive inside fresh moves
      have stays := settled.head_eq_iff (by omega) next
      refine ⟨_, ended, p + r, size, next, ?_⟩
      by_cases none_retired : r = 0
      · have same := stays.mpr none_retired
        simp [same, db, none_retired]
      · have moved : s.cq.head ≠ c.head := mt stays.mp none_retired
        simp [moved, none_retired])
    (window.slot_of placed) window.distinct (fun _ _ => List.not_mem_nil)
    ⟨0, rfl, window.start placed, rfl⟩
  have all : Settled aqp.cq.qs low m p slots aqp'.cq.toRetireCursor := settled.congr (by simp)
  refine ⟨aqp', ran, window.retiredTo placed all, ?_⟩
  rw [RetireWindow.prefix_eq placed all]
  exact db

/-- In both rings a sequence of cleanups for distinct slots of a window ends and leaves the closed
form, whatever the order; the completion doorbell follows the head. -/
theorem retired_in_any_order (aqp : AdminRings) (m : Nat) (slots : List Nat) :
    (RetireWindow aqp.sq.qs m aqp.sq.toRetireCursor slots →
      ∃ aqp', slots.foldlM adminSqMarkCleanup aqp = some aqp' ∧
        RetiredTo aqp.sq.qs m slots aqp.sq.toRetireCursor aqp'.sq.toRetireCursor ∧
        ∀ other, slots.Perm other → ∃ aqp'', other.foldlM adminSqMarkCleanup aqp = some aqp'' ∧
          aqp'.sq.toRetireCursor.Agree aqp.sq.qs aqp''.sq.toRetireCursor) ∧
    (RetireWindow aqp.cq.qs m aqp.cq.toRetireCursor slots →
      ∃ aqp', slots.foldlM adminCqMarkCleanup aqp = some aqp' ∧
        RetiredTo aqp.cq.qs m slots aqp.cq.toRetireCursor aqp'.cq.toRetireCursor ∧
        aqp'.cq.db =
          (if retiredPrefix aqp.cq.qs aqp.cq.head m slots = 0 then aqp.cq.db
          else some aqp'.cq.head) ∧
        ∀ other, slots.Perm other → ∃ aqp'', other.foldlM adminCqMarkCleanup aqp = some aqp'' ∧
          aqp'.cq.toRetireCursor.Agree aqp.cq.qs aqp''.cq.toRetireCursor) := by
  constructor
  · intro window
    obtain ⟨aqp', ran, closed⟩ := sq_retires window
    refine ⟨aqp', ran, closed, ?_⟩
    intro other same
    obtain ⟨aqp'', ran', closed'⟩ := sq_retires (window.perm same)
    exact ⟨aqp'', ran', closed.unique closed' same⟩
  · intro window
    obtain ⟨aqp', ran, closed, db⟩ := cq_retires window
    refine ⟨aqp', ran, closed, db, ?_⟩
    intro other same
    obtain ⟨aqp'', ran', closed', _⟩ := cq_retires (window.perm same)
    exact ⟨aqp'', ran', closed.unique closed' same⟩

def fiveFromThree : AdminRings :=
  let rings := adminInitRings 5 (fun _ => .zero) fun _ => clearCmd
  { cq := { rings.cq with head := 3 }, sq := { rings.sq with head := 3 } }

/-- Slots 1, 4 and 3 in this order: slots 3 and 4 are retired at the last call, across the wrap,
and slot 1 stays marked. -/
theorem retired_across_the_wrap :
    ∃ sq cq, [1, 4, 3].foldlM adminSqMarkCleanup fiveFromThree = some sq ∧
      [1, 4, 3].foldlM adminCqMarkCleanup fiveFromThree = some cq ∧
      RetiredTo 5 4 [1, 4, 3] fiveFromThree.sq.toRetireCursor sq.sq.toRetireCursor ∧
      RetiredTo 5 4 [1, 4, 3] fiveFromThree.cq.toRetireCursor cq.cq.toRetireCursor ∧
      retiredPrefix 5 3 4 [1, 4, 3] = 2 ∧ cq.cq.db = some cq.cq.head := by
  have sqWindow : RetireWindow 5 4 fiveFromThree.sq.toRetireCursor [1, 4, 3] := by
    constructor <;> decide
  have cqWindow : RetireWindow 5 4 fiveFromThree.cq.toRetireCursor [1, 4, 3] := by
    constructor <;> decide
  obtain ⟨sq, sqRan, sqClosed, _⟩ :=
    (retired_in_any_order fiveFromThree 4 [1, 4, 3]).1 sqWindow
  obtain ⟨cq, cqRan, cqClosed, db, _⟩ :=
    (retired_in_any_order fiveFromThree 4 [1, 4, 3]).2 cqWindow
  exact ⟨sq, cq, sqRan, cqRan, sqClosed, cqClosed, by decide, db⟩

end BafsNvme
