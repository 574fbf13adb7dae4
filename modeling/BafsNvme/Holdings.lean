import Mathlib.Tactic

/-! Items that are obtained, held and given back: that nothing is given back twice, lost or held
twice. First items that are numbered as they are obtained, each with a label. -/

namespace BafsNvme

@[ext]
structure Holdings (O β : Type) where
  obtained : List β
  returned : List (Nat × β)
  holds : O → Option (Nat × β)

namespace Holdings

variable {O β : Type}

def nothing : Holdings O β := ⟨[], [], fun _ => none⟩

def acquire [DecidableEq O] (l : Holdings O β) (o : O) (b : β) : Holdings O β where
  obtained := l.obtained ++ [b]
  returned := l.returned
  holds := Function.update l.holds o (some (l.obtained.length, b))

def giveBack [DecidableEq O] (l : Holdings O β) (o : O) (item : Nat × β) : Holdings O β where
  obtained := l.obtained
  returned := l.returned ++ [item]
  holds := Function.update l.holds o none

inductive Moves [DecidableEq O] (l : Holdings O β) : Holdings O β → Prop where
  | refl : Moves l l
  | acquire {l' : Holdings O β} (o : O) (b : β) : Moves l l' → l'.holds o = none →
      Moves l (l'.acquire o b)
  | giveBack {l' : Holdings O β} (o : O) {item : Nat × β} : Moves l l' → l'.holds o = some item →
      Moves l (l'.giveBack o item)

/-- Every item obtained is either held, by one holder, or has been given back, once; and always
with its own label. -/
structure Exact (l : Holdings O β) : Prop where
  held : ∀ o n b, l.holds o = some (n, b) → l.obtained[n]? = some b
  back : ∀ n b, (n, b) ∈ l.returned → l.obtained[n]? = some b
  once : (l.returned.map Prod.fst).Nodup
  alone : ∀ o o' n b b', l.holds o = some (n, b) → l.holds o' = some (n, b') → o = o'
  kept : ∀ o n b, l.holds o = some (n, b) → n ∉ l.returned.map Prod.fst
  found : ∀ n, n < l.obtained.length → n ∈ l.returned.map Prod.fst ∨ ∃ o b, l.holds o = some (n, b)

namespace Exact

variable {l l' : Holdings O β}

theorem nothing : (nothing : Holdings O β).Exact where
  held _ _ _ holds := nomatch holds
  back _ _ member := nomatch member
  once := .nil
  alone _ _ _ _ _ holds := nomatch holds
  kept _ _ _ holds := nomatch holds
  found n bound := absurd bound (Nat.not_lt_zero n)

theorem held_lt (exact : l.Exact) {o : O} {n : Nat} {b : β} (holds : l.holds o = some (n, b)) :
    n < l.obtained.length :=
  (List.getElem?_eq_some_iff.mp (exact.held o n b holds)).1

theorem back_lt (exact : l.Exact) {n : Nat} (member : n ∈ l.returned.map Prod.fst) :
    n < l.obtained.length := by
  obtain ⟨⟨_, b⟩, item, rfl⟩ := List.mem_map.mp member
  exact (List.getElem?_eq_some_iff.mp (exact.back _ b item)).1

theorem all_back (exact : l.Exact) (nobody : ∀ o, l.holds o = none) :
    (l.returned.map Prod.fst).Perm (List.range l.obtained.length) := by
  rw [List.perm_ext_iff_of_nodup exact.once List.nodup_range]
  intro n
  rw [List.mem_range]
  constructor
  · exact exact.back_lt
  · intro bound
    rcases exact.found n bound with back | ⟨o, b, holds⟩
    · exact back
    · rw [nobody o] at holds
      cases holds

variable [DecidableEq O]

theorem acquire (exact : l.Exact) {o : O} (free : l.holds o = none) (b : β) :
    (l.acquire o b).Exact := by
  have grown {n : Nat} {c : β} (old : l.obtained[n]? = some c) :
      (l.obtained ++ [b])[n]? = some c := by
    rw [List.getElem?_append_left (List.getElem?_eq_some_iff.mp old).1]
    exact old
  -- a holder in the new state is the new one or an old one
  have cases_holds {p : O} {n : Nat} {c : β} (holds : (l.acquire o b).holds p = some (n, c)) :
      (p = o ∧ n = l.obtained.length ∧ c = b) ∨ (p ≠ o ∧ l.holds p = some (n, c)) := by
    by_cases new : p = o
    · subst new
      simp only [Holdings.acquire, Function.update_self, Option.some.injEq, Prod.mk.injEq] at holds
      exact .inl ⟨rfl, holds.1.symm, holds.2.symm⟩
    · simp only [Holdings.acquire, Function.update_of_ne new] at holds
      exact .inr ⟨new, holds⟩
  constructor
  · intro p n c holds
    rcases cases_holds holds with ⟨rfl, rfl, rfl⟩ | ⟨_, old⟩
    · simp [Holdings.acquire]
    · exact grown (exact.held p n c old)
  · intro n c member
    exact grown (exact.back n c member)
  · exact exact.once
  · intro p q n c d first second
    rcases cases_holds first with ⟨rfl, rfl, rfl⟩ | ⟨_, oldP⟩ <;>
      rcases cases_holds second with ⟨rfl, same, rfl⟩ | ⟨_, oldQ⟩
    · rfl
    · exact absurd (exact.held_lt oldQ) (Nat.lt_irrefl _)
    · exact absurd (same ▸ exact.held_lt oldP) (Nat.lt_irrefl _)
    · exact exact.alone p q n c d oldP oldQ
  · intro p n c holds
    rcases cases_holds holds with ⟨rfl, rfl, rfl⟩ | ⟨_, old⟩
    · exact fun member => Nat.lt_irrefl _ (exact.back_lt member)
    · exact exact.kept p n c old
  · intro n bound
    simp only [Holdings.acquire, List.length_append, List.length_singleton] at bound
    by_cases new : n = l.obtained.length
    · exact .inr ⟨o, b, by simp [Holdings.acquire, new]⟩
    · rcases exact.found n (by omega) with back | ⟨p, c, holds⟩
      · exact .inl back
      · have other : p ≠ o := by
          rintro rfl
          rw [free] at holds
          cases holds
        exact .inr ⟨p, c, by simpa [Holdings.acquire, other] using holds⟩

theorem giveBack (exact : l.Exact) {o : O} {item : Nat × β} (holds : l.holds o = some item) :
    (l.giveBack o item).Exact := by
  obtain ⟨m, c⟩ := item
  have old {p : O} {n : Nat} {b : β} (now : (l.giveBack o (m, c)).holds p = some (n, b)) :
      p ≠ o ∧ l.holds p = some (n, b) := by
    by_cases mine : p = o
    · simp [Holdings.giveBack, mine] at now
    · exact ⟨mine, by simpa [Holdings.giveBack, mine] using now⟩
  have names : (l.giveBack o (m, c)).returned.map Prod.fst = l.returned.map Prod.fst ++ [m] := by
    simp [Holdings.giveBack]
  constructor
  · exact fun p n b now => exact.held p n b (old now).2
  · intro n b member
    rcases List.mem_append.mp member with before | last
    · exact exact.back n b before
    · obtain ⟨rfl, rfl⟩ := Prod.mk.inj (List.mem_singleton.mp last)
      exact exact.held o n b holds
  · rw [names]
    exact exact.once.append (List.nodup_singleton m) fun n before last =>
      exact.kept o m c holds (List.mem_singleton.mp last ▸ before)
  · exact fun p q n b d first second => exact.alone p q n b d (old first).2 (old second).2
  · intro p n b now
    obtain ⟨other, before⟩ := old now
    rw [names, List.mem_append, List.mem_singleton, not_or]
    refine ⟨exact.kept p n b before, ?_⟩
    rintro rfl
    exact other (exact.alone p o n b c before holds)
  · intro n bound
    rw [names]
    rcases exact.found n bound with back | ⟨p, b, before⟩
    · exact .inl (List.mem_append_left _ back)
    · by_cases mine : p = o
      · subst mine
        rw [holds, Option.some.injEq, Prod.mk.injEq] at before
        exact .inl (List.mem_append_right _ (List.mem_singleton.mpr before.1.symm))
      · exact .inr ⟨p, b, by simpa [Holdings.giveBack, mine] using before⟩

theorem moves (exact : l.Exact) (moved : l.Moves l') : l'.Exact := by
  induction moved with
  | refl => exact exact
  | acquire o b _ free ih => exact ih.acquire free b
  | giveBack o _ holds ih => exact ih.giveBack holds

end Exact

end Holdings

/-- Items without numbers, which are obtained and given back in bundles. -/
@[ext]
structure Account (O β : Type) where
  obtained : List β
  returned : List β
  holders : List O
  bundle : O → List β

namespace Account

variable {O β : Type}

def Settled (a : Account O β) : Prop := a.obtained.Perm (a.returned ++ a.holders.flatMap a.bundle)

def gain [DecidableEq O] (a : Account O β) (o : O) (items : List β) : Account O β where
  obtained := a.obtained ++ items
  returned := a.returned
  holders := a.holders ++ [o]
  bundle := Function.update a.bundle o items

def settle [DecidableEq O] (a : Account O β) (o : O) : Account O β where
  obtained := a.obtained
  returned := a.returned ++ a.bundle o
  holders := a.holders.erase o
  bundle := a.bundle

def pass (a : Account O β) (obtained returned : List β) : Account O β where
  obtained := a.obtained ++ obtained
  returned := a.returned ++ returned
  holders := a.holders
  bundle := a.bundle

variable {a : Account O β}

theorem settled_pass (settled : a.Settled) (obtained returned : List β) :
    (a.pass obtained returned).Settled ↔ obtained.Perm returned := by
  have rest : (a.returned ++ returned ++ a.holders.flatMap a.bundle).Perm
      (a.obtained ++ returned) := by
    rw [List.append_assoc]
    refine (List.perm_append_comm.append_left _).trans ?_
    rw [← List.append_assoc]
    exact settled.symm.append_right _
  constructor
  · intro after
    exact (List.perm_append_left_iff _).mp (after.trans rest)
  · intro same
    exact (same.append_left _).trans rest.symm

variable [DecidableEq O]

theorem settled_gain {o : O} (away : o ∉ a.holders) (items : List β) :
    (a.gain o items).Settled ↔ a.Settled := by
  have others : a.holders.flatMap (Function.update a.bundle o items) =
      a.holders.flatMap a.bundle := by
    refine List.flatMap_congr fun p member => ?_
    rw [Function.update_of_ne (ne_of_mem_of_not_mem member away)]
  simp only [Settled, gain, List.flatMap_append, others, List.flatMap_singleton,
    Function.update_self, ← List.append_assoc]
  exact List.perm_append_right_iff _

theorem settled_settle {o : O} (member : o ∈ a.holders) : (a.settle o).Settled ↔ a.Settled := by
  have split : (a.holders.flatMap a.bundle).Perm
      (a.bundle o ++ (a.holders.erase o).flatMap a.bundle) :=
    (List.perm_cons_erase member).flatMap_right a.bundle
  simp only [Settled, settle, List.append_assoc]
  exact ⟨fun after => after.trans (split.symm.append_left _),
    fun before => before.trans (split.append_left _)⟩

end Account

end BafsNvme
