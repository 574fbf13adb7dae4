import Mathlib.Data.List.Chain
import Mathlib.Data.List.Nodup
import Mathlib.Tactic

/-! Circular doubly linked lists with a sentinel: a heap of `next` and `prev` links, the
sequence it represents, and what linking a node in before the sentinel and unlinking one do
to that sequence. -/

namespace BafsNvme

structure Links (α : Type) where
  next : α → Option α
  prev : α → Option α

namespace Links

variable {α : Type}

def Edge (k : Links α) (x y : α) : Prop := k.next x = some y ∧ k.prev y = some x

/-- Following `next` from the sentinel `h` leads through `xs` and back, and `prev` leads the
other way. -/
structure Ring (k : Links α) (h : α) (xs : List α) : Prop where
  distinct : (h :: xs).Nodup
  edges : List.IsChain k.Edge (h :: (xs ++ [h]))

def Visits (f : α → Option α) : α → List α → Prop
  | a, [] => f a = none
  | a, x :: xs => f a = some x ∧ Visits f x xs

theorem edges_congr {k k' : Links α} {x : α} {rest : List α}
    (edges : List.IsChain k.Edge (x :: rest))
    (nexts : ∀ y ∈ (x :: rest).dropLast, k'.next y = k.next y)
    (prevs : ∀ y ∈ rest, k'.prev y = k.prev y) : List.IsChain k'.Edge (x :: rest) := by
  induction rest generalizing x with
  | nil => exact .singleton x
  | cons y rest ih =>
      rw [List.isChain_cons_cons] at edges ⊢
      obtain ⟨⟨forward, backward⟩, later⟩ := edges
      refine ⟨⟨?_, ?_⟩, ?_⟩
      · rw [nexts x (by simp), forward]
      · rw [prevs y List.mem_cons_self, backward]
      · apply ih later
        · intro z member
          exact nexts z (by simp [member])
        · exact fun z member => prevs z (List.mem_cons_of_mem y member)

theorem Ring.congr {k k' : Links α} {h : α} {xs : List α} (ring : k.Ring h xs)
    (same : ∀ x ∈ h :: xs, k'.next x = k.next x ∧ k'.prev x = k.prev x) : k'.Ring h xs := by
  refine ⟨ring.distinct, edges_congr ring.edges ?_ ?_⟩
  · intro y member
    have front : (h :: (xs ++ [h])).dropLast = h :: xs := by
      rw [← List.cons_append, List.dropLast_concat]
    rw [front] at member
    exact (same y member).1
  · intro y member
    apply (same y _).2
    rcases List.mem_append.mp member with inside | last
    · exact List.mem_cons_of_mem h inside
    · rw [List.mem_singleton.mp last]
      exact List.mem_cons_self

theorem Ring.empty {k : Links α} {h : α} (forward : k.next h = some h)
    (backward : k.prev h = some h) : k.Ring h [] := by
  refine ⟨List.nodup_singleton h, ?_⟩
  rw [List.nil_append, List.isChain_pair]
  exact ⟨forward, backward⟩

theorem Ring.reverse {k : Links α} {h : α} {xs : List α} (ring : k.Ring h xs) :
    Ring ⟨k.prev, k.next⟩ h xs.reverse := by
  obtain ⟨distinct, edges⟩ := ring
  rw [List.nodup_cons] at distinct
  constructor
  · rw [List.nodup_cons, List.mem_reverse, List.nodup_reverse]
    exact distinct
  · have turned : h :: (xs.reverse ++ [h]) = (h :: (xs ++ [h])).reverse := by simp
    rw [turned, List.isChain_reverse]
    exact edges.imp fun x y edge => ⟨edge.2, edge.1⟩

theorem Ring.visits {k : Links α} {h : α} {xs : List α} (ring : k.Ring h xs) {f : α → Option α}
    (ends : ∀ x ∈ h :: xs, k.next x = some h → f x = none)
    (follows : ∀ x ∈ h :: xs, k.next x ≠ some h → f x = k.next x) : Visits f h xs := by
  have from_node : ∀ (ys : List α) (a : α), List.IsChain k.Edge (a :: (ys ++ [h])) →
      (∀ x ∈ a :: ys, x ∈ h :: xs) → h ∉ ys → Visits f a ys := by
    intro ys
    induction ys with
    | nil =>
        intro a edges inside _
        rw [List.nil_append, List.isChain_pair] at edges
        exact ends a (inside a List.mem_cons_self) edges.1
    | cons y ys ih =>
        intro a edges inside fresh
        rw [List.cons_append, List.isChain_cons_cons] at edges
        obtain ⟨⟨forward, _⟩, later⟩ := edges
        have other : k.next a ≠ some h := by
          rw [forward]
          intro same
          exact fresh (Option.some.inj same ▸ List.mem_cons_self)
        refine ⟨(follows a (inside a List.mem_cons_self) other).trans forward, ?_⟩
        apply ih y later
        · exact fun x member => inside x (List.mem_cons_of_mem a member)
        · exact fun member => fresh (List.mem_cons_of_mem y member)
  exact from_node xs h ring.edges (fun _ member => member) (List.nodup_cons.mp ring.distinct).1

variable [DecidableEq α]

def linkLast (k : Links α) (h last e : α) : Links α where
  next := Function.update (Function.update k.next last (some e)) e (some h)
  prev := Function.update (Function.update k.prev e (some last)) h (some e)

def unlink (k : Links α) (a e b : α) : Links α where
  next := Function.update (Function.update k.next a (some b)) e none
  prev := Function.update (Function.update k.prev b (some a)) e none

theorem Ring.linkLast {k : Links α} {h e : α} {xs : List α} (ring : k.Ring h xs)
    (fresh : e ∉ h :: xs) : ∃ last, k.prev h = some last ∧ last ∈ h :: xs ∧
      (k.linkLast h last e).Ring h (xs ++ [e]) := by
  obtain ⟨front, last, split⟩ : ∃ front last, h :: xs = front ++ [last] :=
    ⟨(h :: xs).dropLast, (h :: xs).getLast (List.cons_ne_nil h xs),
      (List.dropLast_append_getLast (List.cons_ne_nil h xs)).symm⟩
  obtain ⟨distinct, edges⟩ := ring
  have whole : h :: (xs ++ [h]) = front ++ last :: [h] := by
    rw [← List.cons_append, split, List.append_assoc, List.singleton_append]
  rw [whole, List.isChain_append_cons_cons] at edges
  obtain ⟨before, ⟨_, backward⟩, _⟩ := edges
  have member : last ∈ h :: xs := by rw [split]; simp
  have lastFresh : last ≠ e := fun same => fresh (same ▸ member)
  have headFresh : h ≠ e := fun same => fresh (same ▸ List.mem_cons_self)
  have notFront : last ∉ front := by
    rw [split, List.nodup_append] at distinct
    exact fun inside => distinct.2.2 last inside last (List.mem_singleton_self last) rfl
  refine ⟨last, backward, member, ?_, ?_⟩
  · rw [← List.cons_append, List.nodup_append]
    refine ⟨distinct, List.nodup_singleton e, ?_⟩
    rintro x inside y single rfl
    exact fresh (List.mem_singleton.mp single ▸ inside)
  · have grown : h :: (xs ++ [e] ++ [h]) = front ++ last :: e :: [h] := by
      rw [List.append_assoc, ← List.cons_append, split, List.append_assoc]
      rfl
    rw [grown, List.isChain_append_cons_cons]
    refine ⟨?_, ⟨?_, ?_⟩, ?_⟩
    · rw [← split] at before ⊢
      apply edges_congr before
      · intro y inside
        rw [split, List.dropLast_concat] at inside
        have notLast : y ≠ last := fun same => notFront (same ▸ inside)
        have notNew : y ≠ e := by
          rintro rfl
          exact fresh (by rw [split]; simp [inside])
        simp [Links.linkLast, notLast, notNew]
      · intro y inside
        have notHead : y ≠ h := fun same => (List.nodup_cons.mp distinct).1 (same ▸ inside)
        have notNew : y ≠ e := fun same => fresh (same ▸ List.mem_cons_of_mem h inside)
        simp [Links.linkLast, notHead, notNew]
    · simp [Links.linkLast, lastFresh]
    · simp [Links.linkLast, headFresh.symm]
    · rw [List.isChain_pair]
      simp [Edge, Links.linkLast]

/-- Stretches of a ring that neither leave `a` nor come to `b` keep their edges when `e` goes. -/
theorem edges_unlink {k : Links α} {a e b x : α} {rest : List α}
    (edges : List.IsChain k.Edge (x :: rest))
    (nexts : ∀ y ∈ (x :: rest).dropLast, y ≠ a ∧ y ≠ e) (prevs : ∀ y ∈ rest, y ≠ b ∧ y ≠ e) :
    List.IsChain (k.unlink a e b).Edge (x :: rest) := by
  apply edges_congr edges
  · intro y inside
    obtain ⟨notA, notE⟩ := nexts y inside
    simp [Links.unlink, notA, notE]
  · intro y inside
    obtain ⟨notB, notE⟩ := prevs y inside
    simp [Links.unlink, notB, notE]

omit [DecidableEq α] in
theorem split_apart {h e : α} {ys zs : List α} (distinct : (h :: (ys ++ e :: zs)).Nodup) :
    (∀ x ∈ h :: ys, x ≠ e ∧ x ∉ zs) ∧ (zs ++ [h]).Nodup ∧ e ∉ zs ++ [h] := by
  have spread : (h :: ys ++ e :: zs).Nodup := by simpa using distinct
  have sides := List.nodup_append.mp spread
  have turned : (e :: (zs ++ [h])).Nodup := by
    rw [← List.cons_append, List.nodup_append]
    refine ⟨sides.2.1, List.nodup_singleton h, ?_⟩
    rintro x inside y single rfl
    rw [List.mem_singleton.mp single] at inside
    exact sides.2.2 h List.mem_cons_self h inside rfl
  refine ⟨?_, (List.nodup_cons.mp turned).2, (List.nodup_cons.mp turned).1⟩
  intro x inside
  exact ⟨fun same => sides.2.2 x inside e List.mem_cons_self same,
    fun again => sides.2.2 x inside x (List.mem_cons_of_mem e again) rfl⟩

theorem Ring.unlink {k : Links α} {h e : α} {ys zs : List α} (ring : k.Ring h (ys ++ e :: zs)) :
    ∃ a b, k.prev e = some a ∧ k.next e = some b ∧ a ∈ h :: (ys ++ e :: zs) ∧
      b ∈ h :: (ys ++ e :: zs) ∧ a ≠ e ∧ (k.unlink a e b).Ring h (ys ++ zs) := by
  obtain ⟨front, a, left⟩ : ∃ front a, h :: ys = front ++ [a] :=
    ⟨(h :: ys).dropLast, (h :: ys).getLast (List.cons_ne_nil h ys),
      (List.dropLast_append_getLast (List.cons_ne_nil h ys)).symm⟩
  obtain ⟨b, back, right⟩ : ∃ b back, zs ++ [h] = b :: back :=
    List.exists_cons_of_ne_nil (by simp)
  obtain ⟨distinct, edges⟩ := ring
  have whole : h :: (ys ++ e :: zs ++ [h]) = front ++ a :: e :: b :: back := by
    rw [List.append_assoc, ← List.cons_append, left, List.cons_append, right, List.append_assoc]
    rfl
  rw [whole, List.isChain_append_cons_cons, List.isChain_cons_cons] at edges
  obtain ⟨before, ⟨_, backward⟩, ⟨forward, _⟩, after⟩ := edges
  have aInside : a ∈ h :: ys := by rw [left]; simp
  have bInside : b ∈ zs ++ [h] := by rw [right]; simp
  obtain ⟨apart, around, notLater⟩ := split_apart distinct
  have aNotE := (apart a aInside).1
  have bNotE : b ≠ e := fun same => notLater (same ▸ bInside)
  have aRing : a ∈ h :: (ys ++ e :: zs) := List.mem_append_left (e :: zs) aInside
  have bRing : b ∈ h :: (ys ++ e :: zs) := by
    rcases List.mem_append.mp bInside with later | sentinel
    · exact List.mem_append_right (h :: ys) (List.mem_cons_of_mem e later)
    · exact List.mem_singleton.mp sentinel ▸ List.mem_cons_self
  refine ⟨a, b, backward, forward, aRing, bRing, aNotE, ?_, ?_⟩
  · have shorter : List.Sublist (h :: (ys ++ zs)) (h :: (ys ++ e :: zs)) := by simp
    exact distinct.sublist shorter
  · have kept : h :: (ys ++ zs ++ [h]) = front ++ a :: b :: back := by
      rw [List.append_assoc, ← List.cons_append, left, right, List.append_assoc]
      rfl
    rw [kept, List.isChain_append_cons_cons]
    refine ⟨?_, ⟨?_, ?_⟩, ?_⟩
    · rw [← left] at before ⊢
      apply edges_unlink before
      · intro y inside
        rw [left, List.dropLast_concat] at inside
        have member : y ∈ h :: ys := by rw [left]; simp [inside]
        refine ⟨?_, (apart y member).1⟩
        rintro rfl
        have spread : (front ++ [y]).Nodup := by
          rw [← left]
          exact distinct.sublist (by simp)
        rw [List.nodup_append] at spread
        exact spread.2.2 y inside y (List.mem_singleton_self y) rfl
      · intro y inside
        have member : y ∈ h :: ys := List.mem_cons_of_mem h inside
        refine ⟨?_, (apart y member).1⟩
        rintro rfl
        rcases List.mem_append.mp bInside with later | sentinel
        · exact (apart y member).2 later
        · rw [List.mem_singleton.mp sentinel] at inside
          exact (List.nodup_cons.mp distinct).1 (List.mem_append_left _ inside)
    · simp [Links.unlink, aNotE]
    · simp [Links.unlink, bNotE]
    · apply edges_unlink after
      · intro y inside
        rw [← right, List.dropLast_concat] at inside
        exact ⟨fun same => (apart a aInside).2 (same ▸ inside),
          fun same => notLater (same ▸ List.mem_append_left _ inside)⟩
      · intro y inside
        have member : y ∈ zs ++ [h] := by rw [right]; exact List.mem_cons_of_mem b inside
        rw [right, List.nodup_cons] at around
        exact ⟨fun same => around.1 (same ▸ inside), fun same => notLater (same ▸ member)⟩

theorem linkLast_other {k : Links α} {h last e x : α} (notHead : x ≠ h) (notLast : x ≠ last)
    (notNew : x ≠ e) :
    (k.linkLast h last e).next x = k.next x ∧ (k.linkLast h last e).prev x = k.prev x := by
  simp [Links.linkLast, notHead, notLast, notNew]

theorem unlink_other {k : Links α} {a e b x : α} (notA : x ≠ a) (notE : x ≠ e) (notB : x ≠ b) :
    (k.unlink a e b).next x = k.next x ∧ (k.unlink a e b).prev x = k.prev x := by
  simp [Links.unlink, notA, notE, notB]

end Links

end BafsNvme
