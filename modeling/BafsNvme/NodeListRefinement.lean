import BafsNvme.NodeList

/-! Memory refines the sequences: every list is a ring through its head, `list_next` walks it in
insertion order, and the searches return the first member that meets their test. -/

namespace BafsNvme

open Machine Links

namespace ListSpec

variable {L N : Type}

def ringOf (s : ListSpec L N) (l : L) : List (NodePtr L N) := .head l :: (s.seq l).map .node

@[simp] theorem head_mem_ringOf {s : ListSpec L N} {l m : L} :
    NodePtr.head m ∈ s.ringOf l ↔ m = l := by
  simp [ringOf]

@[simp] theorem node_mem_ringOf {s : ListSpec L N} {l : L} {n : N} :
    NodePtr.node n ∈ s.ringOf l ↔ n ∈ s.seq l := by
  simp [ringOf]

variable [DecidableEq L] [DecidableEq N] {s : ListSpec L N} {l : L} {n : N}

theorem placed_insert (placed : ∀ m k, s.place m = some k ↔ m ∈ s.seq k) (away : s.place n = none)
    (m : N) (k : L) :
    (s.apply (.insert l n)).place m = some k ↔ m ∈ (s.apply (.insert l n)).seq k := by
  by_cases newNode : m = n
  · subst newNode
    by_cases own : k = l
    · simp [apply, own]
    · have outside : m ∉ s.seq k := fun inside => nomatch away.symm.trans ((placed m k).mpr inside)
      simpa [apply, own, Ne.symm own] using outside
  · by_cases own : k = l
    · subst own
      simpa [apply, newNode] using placed m k
    · simpa [apply, newNode, own] using placed m k

theorem placed_remove (placed : ∀ m k, s.place m = some k ↔ m ∈ s.seq k)
    (place : s.place n = some l) (distinct : (s.seq l).Nodup) (m : N) (k : L) :
    (s.apply (.remove (some (.node n)))).place m = some k ↔
      m ∈ (s.apply (.remove (some (.node n)))).seq k := by
  by_cases gone : m = n
  · subst gone
    by_cases own : k = l
    · subst own
      have outside : m ∉ (s.seq k).erase m := distinct.not_mem_erase
      simpa [apply, place] using outside
    · have outside : m ∉ s.seq k := fun inside =>
        own (Option.some.inj (((placed m k).mpr inside).symm.trans place))
      simpa [apply, place, own] using outside
  · by_cases own : k = l
    · subst own
      have kept : m ∈ (s.seq k).erase n ↔ m ∈ s.seq k := List.mem_erase_of_ne gone
      simpa [apply, place, gone, kept] using placed m k
    · simpa [apply, place, gone, own] using placed m k

end ListSpec

namespace ListHeap

variable {L N : Type} [DecidableEq L] [DecidableEq N] {h : ListHeap L N} {l : L}
  {e a b last : NodePtr L N}

theorem listInsert_eq (found : h.prev (.head l) = some last) :
    h.listInsert l e =
      some ⟨h.toLinks.linkLast (.head l) last e, Function.update h.list e (some l)⟩ := by
  rw [listInsert, found]
  rfl

theorem listRemove_member (named : h.list e = some l) (notHead : e ≠ .head l)
    (before : h.prev e = some a) (after : h.next e = some b) (distinct : a ≠ e) :
    h.listRemove (some e) = some ⟨h.toLinks.unlink a e b, Function.update h.list e none⟩ := by
  have reread : Function.update h.next a (some b) e = some b := by
    rw [Function.update_of_ne distinct.symm, after]
  simp only [listRemove, named, notHead, ↓reduceIte, before, after, Option.bind_some, reread,
    Option.map_some]
  rfl

theorem listRemove_unlisted (unlisted : h.list e = none) : h.listRemove (some e) = some h := by
  simp [listRemove, unlisted]

theorem listRemove_head (own : h.list (.head l) = some l) :
    h.listRemove (some (.head l)) = some h := by
  simp [listRemove, own]

end ListHeap

namespace ListSystem

variable {L N : Type}

structure Represents (h : ListHeap L N) (s : ListSpec L N) : Prop where
  rings : ∀ l, s.live l = true → h.Ring (.head l) ((s.seq l).map .node)
  heads : ∀ l, s.live l = true → h.list (.head l) = some l
  placed : ∀ n l, s.place n = some l ↔ n ∈ s.seq l
  named : ∀ n l, s.place n = some l → h.list (.node n) = some l
  alive : ∀ n l, s.place n = some l → s.live l = true
  cleared : ∀ n, s.known n = true → s.place n = none →
    h.list (.node n) = none ∧ h.next (.node n) = none ∧ h.prev (.node n) = none

def OthersKept (h h' : ListHeap L N) (s : ListSpec L N) (target : Option L) : Prop :=
  ∀ m, target ≠ some m → ∀ x ∈ s.ringOf m, h'.next x = h.next x ∧ h'.prev x = h.prev x

namespace Represents

variable {h h' : ListHeap L N} {s : ListSpec L N}

theorem unplaced (rep : Represents h s) {n : N} (away : s.place n = none) (l : L) :
    n ∉ s.seq l := by
  intro member
  rw [(rep.placed n l).mpr member] at away
  cases away

theorem apart (rep : Represents h s) {l m : L} {x : NodePtr L N} (here : x ∈ s.ringOf l)
    (there : x ∈ s.ringOf m) : l = m := by
  cases x with
  | head k =>
      rw [ListSpec.head_mem_ringOf] at here there
      exact here.symm.trans there
  | node n =>
      rw [ListSpec.node_mem_ringOf, ← rep.placed] at here there
      exact Option.some.inj (here.symm.trans there)

theorem seq_nodup (rep : Represents h s) {l : L} (live : s.live l = true) :
    (s.seq l).Nodup :=
  (List.nodup_cons.mp (rep.rings l live).distinct).2.of_map NodePtr.node

theorem dead_empty (rep : Represents h s) {l : L} (dead : s.live l = false) : s.seq l = [] := by
  apply List.eq_nil_iff_forall_not_mem.mpr
  intro n member
  have live := rep.alive n l ((rep.placed n l).mpr member)
  rw [dead] at live
  cases live

theorem list_field (rep : Represents h s) {l : L} (live : s.live l = true) {x : NodePtr L N}
    (member : x ∈ s.ringOf l) : h.list x = some l := by
  cases x with
  | head m =>
      rw [ListSpec.head_mem_ringOf] at member
      exact member ▸ rep.heads m (member ▸ live)
  | node n =>
      rw [ListSpec.node_mem_ringOf, ← rep.placed] at member
      exact rep.named n l member

theorem ring_kept (rep : Represents h s) {target : Option L} (kept : OthersKept h h' s target)
    {l : L} (other : target ≠ some l) (live : s.live l = true) :
    h'.Ring (.head l) ((s.seq l).map .node) :=
  (rep.rings l live).congr (kept l other)

variable [DecidableEq L] [DecidableEq N]

theorem init_other (h : ListHeap L N) (l : L) {x : NodePtr L N} (other : x ≠ .head l) :
    (h.listInit l).list x = h.list x ∧ (h.listInit l).next x = h.next x ∧
      (h.listInit l).prev x = h.prev x := by
  simp [ListHeap.listInit, other]

theorem init_kept (h : ListHeap L N) (s : ListSpec L N) (l : L) :
    OthersKept h (h.listInit l) s (some l) := by
  intro m own x member
  have other : x ≠ .head l := by
    rintro rfl
    exact own (congrArg some (ListSpec.head_mem_ringOf.mp member))
  exact (init_other h l other).2

theorem init (rep : Represents h s) {l : L} (empty : s.seq l = []) :
    Represents (h.listInit l) (s.apply (.init l)) := by
  have keptLive : ∀ m, m ≠ l → (s.apply (.init l)).live m = true → s.live m = true := by
    intro m other live
    simpa [ListSpec.apply, other] using live
  constructor
  · intro m live
    by_cases own : m = l
    · subst own
      have sequence : (s.apply (.init m)).seq m = [] := empty
      rw [sequence]
      exact Ring.empty (by simp [ListHeap.listInit]) (by simp [ListHeap.listInit])
    · exact rep.ring_kept (init_kept h s l) (by simpa using Ne.symm own) (keptLive m own live)
  · intro m live
    by_cases own : m = l
    · subst own
      simp [ListHeap.listInit]
    · rw [(init_other h l (by simpa using own)).1]
      exact rep.heads m (keptLive m own live)
  · exact rep.placed
  · intro n m place
    rw [(init_other h l (by simp)).1]
    exact rep.named n m place
  · intro n m place
    by_cases own : m = l
    · simp [ListSpec.apply, own]
    · simpa [ListSpec.apply, own] using rep.alive n m place
  · intro n known place
    have same := init_other h l (x := .node n) (by simp)
    rw [same.1, same.2.1, same.2.2]
    exact rep.cleared n known place

theorem nodeInit_other (h : ListHeap L N) {x e : NodePtr L N} (other : x ≠ e) :
    (h.listNodeInit e).list x = h.list x ∧ (h.listNodeInit e).next x = h.next x ∧
      (h.listNodeInit e).prev x = h.prev x := by
  simp [ListHeap.listNodeInit, other]

theorem nodeInit_kept (rep : Represents h s) {n : N} (away : s.place n = none) :
    OthersKept h (h.listNodeInit (.node n)) s none := by
  intro l _ x member
  have other : x ≠ .node n := by
    rintro rfl
    exact rep.unplaced away l (ListSpec.node_mem_ringOf.mp member)
  exact (nodeInit_other h other).2

theorem nodeInit (rep : Represents h s) {n : N} (away : s.place n = none) :
    Represents (h.listNodeInit (.node n)) (s.apply (.nodeInit n)) := by
  constructor
  · exact fun l live => rep.ring_kept (rep.nodeInit_kept away) (by simp) live
  · intro l live
    rw [(nodeInit_other h (by simp)).1]
    exact rep.heads l live
  · exact rep.placed
  · intro m l place
    have other : m ≠ n := by
      rintro rfl
      exact nomatch away.symm.trans place
    rw [(nodeInit_other h (by simpa using other)).1]
    exact rep.named m l place
  · exact rep.alive
  · intro m known place
    by_cases own : m = n
    · subst own
      simp [ListHeap.listNodeInit]
    · have same := nodeInit_other h (e := .node n) (x := .node m) (by simpa using own)
      rw [same.1, same.2.1, same.2.2]
      apply rep.cleared m _ place
      simpa [ListSpec.apply, own] using known

theorem insert (rep : Represents h s) {l : L} {n : N} (live : s.live l = true)
    (away : s.place n = none) :
    ∃ h', h.listInsert l (.node n) = some h' ∧ Represents h' (s.apply (.insert l n)) ∧
      OthersKept h h' s (some l) := by
  have fresh : NodePtr.node n ∉ s.ringOf l := by
    rw [ListSpec.node_mem_ringOf]
    exact rep.unplaced away l
  obtain ⟨last, found, inside, grown⟩ := (rep.rings l live).linkLast fresh
  have frame : OthersKept h ⟨h.toLinks.linkLast (.head l) last (.node n),
      Function.update h.list (.node n) (some l)⟩ s (some l) := by
    intro m other x member
    apply linkLast_other
    · rintro rfl
      exact other (congrArg some (ListSpec.head_mem_ringOf.mp member))
    · rintro rfl
      exact other (congrArg some (rep.apart inside member))
    · rintro rfl
      exact rep.unplaced away m (ListSpec.node_mem_ringOf.mp member)
  refine ⟨_, ListHeap.listInsert_eq found, ?_, frame⟩
  constructor
  · intro m liveM
    by_cases own : m = l
    · subst own
      simpa [ListSpec.apply] using grown
    · have sequence : (s.apply (.insert l n)).seq m = s.seq m := by simp [ListSpec.apply, own]
      rw [sequence]
      exact rep.ring_kept frame (by simpa using Ne.symm own) liveM
  · intro m liveM
    simpa using rep.heads m liveM
  · exact ListSpec.placed_insert rep.placed away
  · intro m k place
    by_cases newNode : m = n
    · subst newNode
      simpa [ListSpec.apply] using place
    · have before : s.place m = some k := by simpa [ListSpec.apply, newNode] using place
      simpa [newNode] using rep.named m k before
  · intro m k place
    by_cases newNode : m = n
    · subst newNode
      have own : l = k := by simpa [ListSpec.apply] using place
      exact own ▸ live
    · exact rep.alive m k (by simpa [ListSpec.apply, newNode] using place)
  · intro m known place
    have newNode : m ≠ n := by
      rintro rfl
      simp [ListSpec.apply] at place
    have unplaced : s.place m = none := by simpa [ListSpec.apply, newNode] using place
    have outside : NodePtr.node m ≠ last := by
      rintro rfl
      exact rep.unplaced unplaced l (ListSpec.node_mem_ringOf.mp inside)
    have links := linkLast_other (k := h.toLinks) (h := .head l) (x := .node m) (by simp)
      outside (show NodePtr.node m ≠ .node n by simpa using newNode)
    have wasKnown : s.known m = true := by simpa [ListSpec.apply, newNode] using known
    have clear := rep.cleared m wasKnown unplaced
    have unlisted : Function.update h.list (.node n) (some l) (.node m) = h.list (.node m) := by
      simp [newNode]
    exact ⟨unlisted.trans clear.1, links.1.trans clear.2.1, links.2.trans clear.2.2⟩

theorem removeMember (rep : Represents h s) {l : L} {n : N} (place : s.place n = some l) :
    ∃ h', h.listRemove (some (.node n)) = some h' ∧
      Represents h' (s.apply (.remove (some (.node n)))) ∧ OthersKept h h' s (some l) := by
  have live := rep.alive n l place
  have member := (rep.placed n l).mp place
  obtain ⟨ys, zs, split⟩ := List.append_of_mem member
  have distinct := rep.seq_nodup live
  have ring := rep.rings l live
  rw [split, List.map_append, List.map_cons] at ring
  obtain ⟨a, b, before, after, aRing, bRing, apartA, shorter⟩ := ring.unlink
  have nodes : s.ringOf l = .head l :: (ys.map .node ++ .node n :: zs.map .node) := by
    rw [ListSpec.ringOf, split, List.map_append, List.map_cons]
  rw [← nodes] at aRing bRing
  have erased : (s.seq l).erase n = ys ++ zs := by
    rw [split] at distinct ⊢
    have notFront : n ∉ ys := fun inFront =>
      (List.nodup_append.mp distinct).2.2 n inFront n List.mem_cons_self rfl
    rw [List.erase_append_right _ notFront, List.erase_cons_head]
  have frame : OthersKept h ⟨h.toLinks.unlink a (.node n) b,
      Function.update h.list (.node n) none⟩ s (some l) := by
    intro m other x inside
    apply unlink_other
    · rintro rfl
      exact other (congrArg some (rep.apart aRing inside))
    · rintro rfl
      exact other (congrArg some (rep.apart (ListSpec.node_mem_ringOf.mpr member) inside))
    · rintro rfl
      exact other (congrArg some (rep.apart bRing inside))
  have seq : (s.apply (.remove (some (.node n)))).seq = Function.update s.seq l (ys ++ zs) := by
    simp [ListSpec.apply, place, erased]
  have places : (s.apply (.remove (some (.node n)))).place = Function.update s.place n none := by
    simp [ListSpec.apply, place]
  have lives : (s.apply (.remove (some (.node n)))).live = s.live := by
    simp [ListSpec.apply, place]
  have knows : (s.apply (.remove (some (.node n)))).known = s.known := by
    simp [ListSpec.apply, place]
  refine ⟨_, ListHeap.listRemove_member (rep.named n l place) (by simp) before after apartA,
    ?_, frame⟩
  constructor
  · intro m liveM
    rw [lives] at liveM
    rw [seq]
    by_cases own : m = l
    · subst own
      simpa using shorter
    · have other : some l ≠ some m := by simpa using Ne.symm own
      simpa [own] using rep.ring_kept frame other liveM
  · intro m liveM
    rw [lives] at liveM
    simpa using rep.heads m liveM
  · exact ListSpec.placed_remove rep.placed place distinct
  · intro m k placeM
    rw [places] at placeM
    have other : m ≠ n := by
      rintro rfl
      simp at placeM
    simpa [other] using rep.named m k (by simpa [other] using placeM)
  · intro m k placeM
    rw [places] at placeM
    rw [lives]
    have other : m ≠ n := by
      rintro rfl
      simp at placeM
    exact rep.alive m k (by simpa [other] using placeM)
  · intro m known placeM
    rw [knows] at known
    rw [places] at placeM
    by_cases gone : m = n
    · subst gone
      simp [Links.unlink]
    · have unplaced : s.place m = none := by simpa [gone] using placeM
      have outside : NodePtr.node m ∉ s.ringOf l := by
        rw [ListSpec.node_mem_ringOf]
        exact rep.unplaced unplaced l
      have links := unlink_other (k := h.toLinks) (a := a) (b := b) (x := .node m)
        (fun same => outside (same ▸ aRing)) (show NodePtr.node m ≠ .node n by simpa using gone)
        (fun same => outside (same ▸ bRing))
      have unlisted : Function.update h.list (.node n) none (.node m) = h.list (.node m) := by
        simp [gone]
      have clear := rep.cleared m known unplaced
      exact ⟨unlisted.trans clear.1, links.1.trans clear.2.1, links.2.trans clear.2.2⟩

theorem event (rep : Represents h s) {e : ListEvent L N} (permitted : s.permits e = true) :
    ∃ h', effect h e = some h' ∧ Represents h' (s.apply e) ∧ OthersKept h h' s (s.target e) := by
  cases e with
  | init l =>
      have dead : s.live l = false := by simpa [ListSpec.permits] using permitted
      exact ⟨_, rfl, rep.init (rep.dead_empty dead), init_kept h s l⟩
  | nodeInit n =>
      have away : s.place n = none := by simpa [ListSpec.permits] using permitted
      exact ⟨_, rfl, rep.nodeInit away, rep.nodeInit_kept away⟩
  | insert l n =>
      simp only [ListSpec.permits, Bool.and_eq_true, beq_iff_eq] at permitted
      exact rep.insert permitted.1 permitted.2
  | remove e =>
      rcases e with _ | l | n
      · exact ⟨h, rfl, rep, fun _ _ _ _ => ⟨rfl, rfl⟩⟩
      · exact ⟨h, ListHeap.listRemove_head (rep.heads l permitted), rep,
          fun _ _ _ _ => ⟨rfl, rfl⟩⟩
      · cases place : s.place n with
        | none =>
            have same : s.apply (.remove (some (.node n))) = s := by
              simp [ListSpec.apply, place]
            rw [same]
            exact ⟨h, ListHeap.listRemove_unlisted (rep.cleared n permitted place).1, rep,
              fun _ _ _ _ => ⟨rfl, rfl⟩⟩
        | some l =>
            have target : s.target (.remove (some (.node n))) = some l := place
            rw [target]
            exact rep.removeMember place

theorem remove_unchanged (rep : Represents h s) {e : Option (NodePtr L N)}
    (permitted : s.permits (.remove e) = true) (aimless : s.target (.remove e) = none) :
    h.listRemove e = some h := by
  rcases e with _ | l | n
  · rfl
  · exact ListHeap.listRemove_head (rep.heads l permitted)
  · exact ListHeap.listRemove_unlisted (rep.cleared n permitted aimless).1

theorem forward (rep : Represents h s) {l : L} (live : s.live l = true) :
    Visits h.listNext (.head l) ((s.seq l).map .node) := by
  apply (rep.rings l live).visits
  · intro x member last
    simp [ListHeap.listNext, rep.list_field live member, last]
  · intro x member other
    simp [ListHeap.listNext, rep.list_field live member, other]

theorem backward (rep : Represents h s) {l : L} (live : s.live l = true) :
    Visits (fun x => if h.prev x = some (.head l) then none else h.prev x) (.head l)
      ((s.seq l).map .node).reverse := by
  apply (rep.rings l live).reverse.visits
  · exact fun x _ first => if_pos first
  · exact fun x _ other => if_neg other

end Represents

variable [DecidableEq L] [DecidableEq N]

theorem represents_reachable {s : ListSystem L N}
    (reached : Reachable (machine L N) anyEvent s) : Represents s.heap s.spec := by
  apply reached.invariant (P := fun s => Represents s.heap s.spec)
  · intro s initial
    have spec : s.spec = ⟨fun _ => false, fun _ => [], fun _ => none, fun _ => false⟩ := initial
    rw [spec]
    constructor <;> simp
  · intro s e s' rep _ taken
    have step : (machine L N).step s e = s.step e := rfl
    rw [step, ListSystem.step] at taken
    split at taken
    · next permitted =>
      obtain ⟨h', ran, represents, _⟩ := rep.event permitted
      rw [ran, Option.map_some, Option.some.injEq] at taken
      exact taken ▸ represents
    · cases taken

end ListSystem

namespace ListHeap

variable {L N : Type} [DecidableEq L] [DecidableEq N]

theorem findLoop_visits {h : ListHeap L N} (test : N → Bool) (ns : List N) (a : NodePtr L N)
    (fuel : Nat) (visits : Visits h.listNext a (ns.map .node)) (enough : ns.length < fuel) :
    h.findLoop test fuel (h.listNext a) = some (ns.find? test) := by
  induction ns generalizing a fuel with
  | nil =>
      have ended : h.listNext a = none := visits
      obtain ⟨fuel, rfl⟩ := Nat.exists_eq_succ_of_ne_zero (Nat.ne_of_gt enough)
      rw [ended]
      rfl
  | cons n rest ih =>
      obtain ⟨found, later⟩ := visits
      obtain ⟨fuel, rfl⟩ := Nat.exists_eq_succ_of_ne_zero (Nat.ne_of_gt (Nat.zero_lt_of_lt enough))
      rw [found, findLoop]
      by_cases meets : test n = true
      · rw [if_pos meets, List.find?_cons_of_pos meets]
      · rw [if_neg meets, List.find?_cons_of_neg meets]
        exact ih (.node n) fuel later (Nat.lt_of_succ_lt_succ enough)

end ListHeap

namespace ListSystem

variable {L N : Type} [DecidableEq L] [DecidableEq N]

structure ListsHold (s : ListSystem L N) : Prop where
  forward : ∀ l, s.spec.live l = true →
    Visits s.heap.listNext (.head l) ((s.spec.seq l).map .node)
  backward : ∀ l, s.spec.live l = true →
    Visits (fun x => if s.heap.prev x = some (.head l) then none else s.heap.prev x) (.head l)
      ((s.spec.seq l).map .node).reverse
  once : ∀ l, (s.spec.seq l).Nodup
  single : ∀ l m n, n ∈ s.spec.seq l → n ∈ s.spec.seq m → l = m
  named : ∀ l n, n ∈ s.spec.seq l → s.heap.list (.node n) = some l
  cleared : ∀ n, s.spec.known n = true → (∀ l, n ∉ s.spec.seq l) →
    s.heap.list (.node n) = none ∧ s.heap.next (.node n) = none ∧ s.heap.prev (.node n) = none
  succeeds : ∀ e, s.spec.permits e = true → ∃ s', s.step e = some s'
  unchanged : ∀ e, s.spec.permits (.remove e) = true → s.spec.target (.remove e) = none →
    s.step (.remove e) = some s
  frame : ∀ e s' l, s.step e = some s' → s.spec.target e ≠ some l → s.spec.live l = true →
    s'.spec.seq l = s.spec.seq l ∧
      Visits s'.heap.listNext (.head l) ((s.spec.seq l).map .node) ∧
      ∀ x ∈ s.spec.ringOf l, s'.heap.next x = s.heap.next x ∧ s'.heap.prev x = s.heap.prev x
  findByPciDev : ∀ {P C : Type} [DecidableEq P] (ctrl : N → CtrlFields P C) (fuel : Nat) (l : L)
    (pdev : P), s.spec.live l = true → (s.spec.seq l).length < fuel →
    s.heap.ctrlFindByPciDev ctrl fuel l pdev =
      some ((s.spec.seq l).find? fun c => (ctrl c).pdev == pdev)
  findByInode : ∀ {P C : Type} [DecidableEq C] (ctrl : N → CtrlFields P C) (fuel : Nat) (l : L)
    (iCdev : C), s.spec.live l = true → (s.spec.seq l).length < fuel →
    s.heap.ctrlFindByInode ctrl fuel l iCdev =
      some ((s.spec.seq l).find? fun c => (ctrl c).cdev == iCdev)
  findIobuf : ∀ {T : Type} [DecidableEq T] (iobuf : N → IobufFields T) (current : T) (fuel : Nat)
    (l : L) (vaddr : BitVec 64), s.spec.live l = true → (s.spec.seq l).length < fuel →
    s.heap.iobufFind iobuf current fuel l vaddr =
      some ((s.spec.seq l).find? fun m => ListHeap.iobufMatches current vaddr (iobuf m))

theorem seq_kept {s : ListSpec L N} {e : ListEvent L N} {l : L} (other : s.target e ≠ some l) :
    (s.apply e).seq l = s.seq l := by
  cases e with
  | init m => rfl
  | nodeInit n => rfl
  | insert m n =>
      have apart : l ≠ m := fun same => other (congrArg some same.symm)
      simp [ListSpec.apply, apart]
  | remove e =>
      rcases e with _ | m | n
      · rfl
      · rfl
      · cases place : s.place n with
        | none => simp [ListSpec.apply, place]
        | some m =>
            have apart : l ≠ m := fun same => other (place.trans (congrArg some same.symm))
            simp [ListSpec.apply, place, apart]

theorem live_kept {s : ListSpec L N} {e : ListEvent L N} {l : L} (live : s.live l = true) :
    (s.apply e).live l = true := by
  cases e with
  | init m => by_cases same : l = m <;> simp [ListSpec.apply, same, live]
  | nodeInit n => exact live
  | insert m n => exact live
  | remove e =>
      rcases e with _ | m | n
      · exact live
      · exact live
      · cases place : s.place n <;> simp [ListSpec.apply, place, live]

/-- In every run memory represents the sequences of inserted and not removed nodes. -/
theorem lists_hold {s : ListSystem L N} (reached : Reachable (machine L N) anyEvent s) :
    ListsHold s := by
  have rep := represents_reachable reached
  have find : ∀ (test : N → Bool) (fuel : Nat) (l : L), s.spec.live l = true →
      (s.spec.seq l).length < fuel →
      s.heap.findLoop test fuel (s.heap.listNext (.head l)) = some ((s.spec.seq l).find? test) :=
    fun test fuel l live enough =>
      ListHeap.findLoop_visits test _ _ fuel (rep.forward live) enough
  have alive : ∀ l n, n ∈ s.spec.seq l → s.spec.live l = true :=
    fun l n member => rep.alive n l ((rep.placed n l).mpr member)
  constructor
  · exact fun l live => rep.forward live
  · exact fun l live => rep.backward live
  · intro l
    cases live : s.spec.live l with
    | false =>
        rw [rep.dead_empty live]
        exact List.nodup_nil
    | true => exact rep.seq_nodup live
  · exact fun l m n here there => rep.apart (ListSpec.node_mem_ringOf.mpr here)
      (ListSpec.node_mem_ringOf.mpr there)
  · exact fun l n member => rep.named n l ((rep.placed n l).mpr member)
  · intro n known nowhere
    apply rep.cleared n known
    cases place : s.spec.place n with
    | none => rfl
    | some l => exact absurd ((rep.placed n l).mp place) (nowhere l)
  · intro e permitted
    obtain ⟨h', ran, _⟩ := rep.event permitted
    exact ⟨⟨h', s.spec.apply e⟩, by rw [step, if_pos permitted, ran, Option.map_some]⟩
  · intro e permitted aimless
    have ran : effect s.heap (.remove e) = some s.heap := rep.remove_unchanged permitted aimless
    have spec : s.spec.apply (.remove e) = s.spec := by
      rcases e with _ | l | n
      · rfl
      · rfl
      · have place : s.spec.place n = none := aimless
        simp [ListSpec.apply, place]
    rw [step, if_pos permitted, ran, Option.map_some, spec]
  · intro e s' l taken other live
    rw [step] at taken
    split at taken
    · next permitted =>
      obtain ⟨h', ran, after, kept⟩ := rep.event permitted
      rw [ran, Option.map_some, Option.some.injEq] at taken
      subst taken
      refine ⟨seq_kept other, ?_, kept l other⟩
      have walk := after.forward (live_kept (e := e) live)
      rw [seq_kept other] at walk
      exact walk
    · cases taken
  · exact fun ctrl fuel l pdev live enough => find _ fuel l live enough
  · exact fun ctrl fuel l iCdev live enough => find _ fuel l live enough
  · exact fun iobuf current fuel l vaddr live enough => find _ fuel l live enough

theorem lists_hold_two_lists :
    ∃ s : ListSystem Bool Nat, s.spec.seq false = [0, 2] ∧ s.spec.seq true = [3] ∧
      s.heap.listNext (.node 0) = some (.node 2) ∧ s.heap.list (.node 1) = none ∧ ListsHold s := by
  have begins : Reachable (machine Bool Nat) anyEvent
      ⟨⟨⟨fun _ => none, fun _ => none⟩, fun _ => some true⟩,
        ⟨fun _ => false, fun _ => [], fun _ => none, fun _ => false⟩⟩ := .start rfl
  have ended : ((machine Bool Nat).run
      ⟨⟨⟨fun _ => none, fun _ => none⟩, fun _ => some true⟩,
        ⟨fun _ => false, fun _ => [], fun _ => none, fun _ => false⟩⟩
      [.init false, .init true, .nodeInit 1, .insert false 0, .insert false 1, .insert true 3,
        .insert false 2, .remove (some (.node 1)), .remove (some (.node 1)),
        .remove (some (.head true)), .remove none]).map (fun s =>
          (s.spec.seq false, s.spec.seq true, s.heap.listNext (.node 0), s.heap.list (.node 1))) =
      some ([0, 2], [3], some (.node 2), none) := by
    decide +kernel
  obtain ⟨s, _, reached, facts⟩ := begins.computed ended
  simp only [Prod.mk.injEq] at facts
  obtain ⟨first, second, walk, gone⟩ := facts
  exact ⟨s, first, second, walk, gone, lists_hold reached⟩

end ListSystem

end BafsNvme
