import BafsNvme.Execution
import BafsNvme.AdminRing

/-! Clients and the device on the admin submission ring. Each client is between an
accepted `admin_enqueue_command` and its `admin_sq_mark_cleanup`, or before the next
enqueue; every call is one step. -/

namespace BafsNvme

open Window RetireCursor

/-- What a client holds from its accepted enqueue on: the command it passed, `cmd_` as the
call left it, the returned slot, and the command's serial number among all accepted ones. -/
structure Held where
  submitted : FreshCmd
  cmd_ : Cmd
  loc : Nat
  serial : Nat

def Held.cid (h : Held) : Nat := h.cmd_.cid

/-- `enqueued`, `fetched` and `tag` record history: the accepted commands, the fetched ones
with their serial numbers, and the serial number last stored in each slot. -/
structure SqSystem (ι : Type) where
  aqp : AdminRings
  held : ι → Option Held
  devHead : Nat
  enqueued : List Cmd
  fetched : List (Cmd × Nat)
  tag : Nat → Nat

inductive SqEvent (ι : Type) where
  | enqueue (t : ι) (cmd : FreshCmd)
  | sqCleanup (t : ι)
  | fetch

namespace SqSystem

variable {ι : Type} [DecidableEq ι]

def accept (s : SqSystem ι) (t : ι) (cmd : FreshCmd) (loc : Nat) (aqp : AdminRings)
    (cmd_ : Cmd) : SqSystem ι :=
  { s with
    aqp := aqp
    held := Function.update s.held t (some ⟨cmd, cmd_, loc, s.enqueued.length⟩)
    enqueued := s.enqueued ++ [cmd_]
    tag := Function.update s.tag loc s.enqueued.length }

def release (s : SqSystem ι) (t : ι) (aqp : AdminRings) : SqSystem ι :=
  { s with aqp := aqp, held := Function.update s.held t none }

def fetchOne (s : SqSystem ι) : SqSystem ι :=
  { s with
    devHead := (s.devHead + 1) % s.aqp.sq.qs
    fetched := s.fetched ++ [(s.aqp.sq.addr s.devHead, s.tag s.devHead)] }

/-- The tail the device knows: the last doorbell value, 0 before the first. -/
def devTail (s : SqSystem ι) : Nat := s.aqp.sq.db.getD 0

def step (s : SqSystem ι) : SqEvent ι → Option (SqSystem ι)
  | .enqueue t cmd =>
      if (s.held t).isSome then none
      else
        match adminEnqueueCommand s.aqp cmd with
        | (none, aqp, _) => some { s with aqp := aqp }
        | (some loc, aqp, cmd_) => some (s.accept t cmd loc aqp cmd_)
  | .sqCleanup t =>
      match s.held t with
      | none => none
      | some h => (adminSqMarkCleanup s.aqp h.loc).map (s.release t)
  | .fetch => if s.devHead = s.devTail then none else some s.fetchOne

def Fetched (s : SqSystem ι) (serial : Nat) : Prop := ∃ cmd, (cmd, serial) ∈ s.fetched

def afterFetch (s : SqSystem ι) : SqEvent ι → Prop
  | .sqCleanup t => ∀ h, s.held t = some h → s.Fetched h.serial
  | _ => True

instance (s : SqSystem ι) (serial : Nat) : Decidable (s.Fetched serial) :=
  decidable_of_iff (∃ entry ∈ s.fetched, entry.2 = serial) (by simp [Fetched])

instance (s : SqSystem ι) (e : SqEvent ι) : Decidable (s.afterFetch e) :=
  match e with
  | .sqCleanup t => decidable_of_iff ((s.held t).all fun h => decide (s.Fetched h.serial))
      (by simp [afterFetch, Option.all_eq_true])
  | .enqueue _ _ | .fetch => .isTrue trivial

def start (aqp : AdminRings) : SqSystem ι where
  aqp := aqp
  held := fun _ => none
  devHead := 0
  enqueued := []
  fetched := []
  tag := fun _ => 0

/-- The machine over the rings of `admin_init`, whatever the memory held before. -/
def machine (ι : Type) [DecidableEq ι] (queueSize : Nat) : Machine (SqSystem ι) (SqEvent ι) where
  init s := ∃ cqAddr sqAddr, s = start (adminInitRings queueSize cqAddr sqAddr)
  step := step

def Pending (s : SqSystem ι) (serial : Nat) : Prop := ∃ t h, s.held t = some h ∧ h.serial = serial

/-- The ring between the counters `low` of retired and `enqueued.length` of accepted
commands, the CID table and what the clients hold agree. -/
structure RingInv (n low : Nat) (s : SqSystem ι) : Prop where
  size : s.aqp.sq.qs = n
  retiring : Retiring n low s.enqueued.length s.Pending s.aqp.sq.toRetireCursor
  atRest : low < s.enqueued.length → s.Pending low
  room : s.enqueued.length < low + n
  tail : s.aqp.sq.tail = s.enqueued.length % n
  door : s.aqp.sq.db = if s.enqueued.length = 0 then none else some (s.enqueued.length % n)
  stored : ∀ j, low ≤ j → j < s.enqueued.length →
    s.enqueued[j]? = some (s.aqp.sq.addr (j % n)) ∧ s.tag (j % n) = j
  held : ∀ t h, s.held t = some h → low ≤ h.serial ∧ h.serial < s.enqueued.length ∧
    h.loc = h.serial % n ∧ s.enqueued[h.serial]? = some h.cmd_ ∧
    h.cmd_ = h.submitted.1.withCid h.cid ∧ h.cid < MAX_CMD
  serials : ∀ t t' h h', s.held t = some h → s.held t' = some h' → h.serial = h'.serial → t = t'
  cids : ∀ t t' h h', s.held t = some h → s.held t' = some h' → h.cid = h'.cid → t = t'
  table : ∀ c, s.aqp.sq.cid c = true ↔ ∃ t h, s.held t = some h ∧ h.cid = c

theorem held_update {α : Type} {held : ι → Option α} {t t' : ι} {mine h : α}
    (now : Function.update held t (some mine) t' = some h) :
    (t' = t ∧ h = mine) ∨ (t' ≠ t ∧ held t' = some h) := by
  by_cases same : t' = t
  · subst same
    simp only [Function.update_self, Option.some.injEq] at now
    exact .inl ⟨rfl, now.symm⟩
  · rw [Function.update_of_ne same] at now
    exact .inr ⟨same, now⟩

theorem held_drop {α : Type} {held : ι → Option α} {t t' : ι} {h : α}
    (now : Function.update held t none t' = some h) : t' ≠ t ∧ held t' = some h := by
  by_cases same : t' = t
  · subst same
    simp at now
  · rw [Function.update_of_ne same] at now
    exact ⟨same, now⟩

theorem held_apart {α : Type} {held : ι → Option α} {t : ι} {mine : α} (key : α → Nat)
    (apart : ∀ t t' h h', held t = some h → held t' = some h' → key h = key h' → t = t')
    (own : ∀ t' h, held t' = some h → key h ≠ key mine) {t₁ t₂ : ι} {h₁ h₂ : α}
    (first : Function.update held t (some mine) t₁ = some h₁)
    (second : Function.update held t (some mine) t₂ = some h₂) (same : key h₁ = key h₂) : t₁ = t₂ := by
  rcases held_update first with ⟨at₁, rfl⟩ | ⟨_, old₁⟩ <;>
    rcases held_update second with ⟨at₂, rfl⟩ | ⟨_, old₂⟩
  · rw [at₁, at₂]
  · exact absurd same.symm (own t₂ h₂ old₂)
  · exact absurd same (own t₁ h₁ old₁)
  · exact apart t₁ t₂ h₁ h₂ old₁ old₂ same

theorem held_beside {held : ι → Option Held} {t t' : ι} {mine h : Held} (idle : held t = none)
    (now : held t' = some h) : Function.update held t (some mine) t' = some h := by
  have other : t' ≠ t := by
    rintro rfl
    exact nomatch idle.symm.trans now
  rw [Function.update_of_ne other]
  exact now

namespace RingInv

variable {n low : Nat} {s : SqSystem ι}

omit [DecidableEq ι] in
theorem head_lt (positive : 0 < n) (inv : RingInv n low s) : s.aqp.sq.head < n := by
  rw [inv.retiring.placed.1]
  exact Nat.mod_lt low positive

omit [DecidableEq ι] in
theorem start (n : Nat) (positive : 0 < n) (cqAddr : Nat → Cpl) (sqAddr : Nat → Cmd) :
    RingInv n 0 (SqSystem.start (ι := ι) (adminInitRings n cqAddr sqAddr)) where
  size := rfl
  retiring := Retiring.empty n _ ⟨by simp [SqSystem.start, adminInitRings],
    by simp [SqSystem.start, adminInitRings, passPhase_zero]⟩ fun _ _ => rfl
  atRest := by simp [SqSystem.start]
  room := by simpa [SqSystem.start] using positive
  tail := by simp [SqSystem.start, adminInitRings]
  door := rfl
  stored := by simp [SqSystem.start]
  held := by simp [SqSystem.start]
  serials := by simp [SqSystem.start]
  cids := by simp [SqSystem.start]
  table := by simp [SqSystem.start, adminInitRings]

omit [DecidableEq ι] in
theorem slot_room (inv : RingInv n low s) (free : SlotFree s.aqp.sq) :
    s.enqueued.length + 1 < low + n := by
  have ordered := inv.retiring.ordered
  have room := inv.room
  rw [SlotFree, inv.size, inv.tail, inv.retiring.placed.1, slot_offset ⟨ordered, room⟩] at free
  omega

theorem accept_pending {t : ι} {cmd : FreshCmd} {loc : Nat} {aqp : AdminRings} {cmd_ : Cmd}
    (idle : s.held t = none) {j : Nat} (below : j < s.enqueued.length) :
    s.Pending j ↔ (s.accept t cmd loc aqp cmd_).Pending j := by
  constructor
  · rintro ⟨t', h, now, serial⟩
    exact ⟨t', h, held_beside idle now, serial⟩
  · rintro ⟨t', h, now, serial⟩
    rcases held_update now with ⟨_, rfl⟩ | ⟨_, old⟩
    · simp only at serial
      omega
    · exact ⟨t', h, old, serial⟩

theorem accept_table (inv : RingInv n low s) {t : ι} {cmd : FreshCmd} {loc : Nat}
    {cid : Nat} {sq : Ring Cmd} (idle : s.held t = none) (ownCid : (cmd.1.withCid cid).cid = cid)
    (sqCid : sq.cid = Function.update s.aqp.sq.cid cid true) (c : Nat) :
    sq.cid c = true ↔ ∃ t' h,
      (s.accept t cmd loc { s.aqp with sq := sq } (cmd.1.withCid cid)).held t' = some h ∧
        h.cid = c := by
  rw [sqCid]
  by_cases mine : c = cid
  · subst mine
    simp only [Function.update_self, true_iff]
    exact ⟨t, _, Function.update_self .., ownCid⟩
  · rw [Function.update_of_ne mine, inv.table c]
    constructor
    · rintro ⟨t', h, now, same⟩
      exact ⟨t', h, held_beside idle now, same⟩
    · rintro ⟨t', h, now, same⟩
      rcases held_update now with ⟨_, rfl⟩ | ⟨_, old⟩
      · simp only [Held.cid, ownCid] at same
        exact absurd same.symm mine
      · exact ⟨t', h, old, same⟩

theorem accept (small : n ≤ 4096) (inv : RingInv n low s) {t : ι} {cmd : FreshCmd} {cid : Nat}
    (idle : s.held t = none) (free : SlotFree s.aqp.sq) (found : nextCid s.aqp.sq = some cid) :
    RingInv n low (s.accept t cmd (s.aqp.sq.tail % 2 ^ 16)
      { s.aqp with sq := sqPush s.aqp.sq cid cmd } (cmd.1.withCid cid)) := by
  have room := inv.slot_room free
  have ordered := inv.retiring.ordered
  have positive : 0 < n := by omega
  have tailBound := Nat.mod_lt s.enqueued.length positive
  have loc : s.aqp.sq.tail % 2 ^ 16 = s.enqueued.length % n := by
    rw [inv.tail]
    exact Nat.mod_eq_of_lt (by omega)
  obtain ⟨_, cidBound, cidFree, _⟩ := firstFree_some found
  rw [Nat.zero_add] at cidBound
  have ownCid : (cmd.1.withCid cid).cid = cid := Cmd.withCid_cid cmd.2 cidBound
  rw [loc]
  constructor
  · exact inv.size
  · have enters : (s.accept t cmd (s.enqueued.length % n)
        { s.aqp with sq := sqPush s.aqp.sq cid cmd } (cmd.1.withCid cid)).Pending
          s.enqueued.length :=
      ⟨t, _, Function.update_self .., rfl⟩
    have kept := inv.retiring.congr ((s.accept t cmd (s.enqueued.length % n)
        { s.aqp with sq := sqPush s.aqp.sq cid cmd } (cmd.1.withCid cid)).Pending)
      fun j _ below => accept_pending idle below
    simpa [SqSystem.accept, sqPush] using kept.extend (by omega) enters
  · intro _
    rcases Nat.eq_or_lt_of_le ordered with atTail | before
    · exact ⟨t, _, Function.update_self .., atTail.symm⟩
    · exact (accept_pending idle before).mp (inv.atRest before)
  · simpa [SqSystem.accept] using room
  · simp [SqSystem.accept, sqPush, inv.tail, inv.size]
  · simp [SqSystem.accept, sqPush, inv.tail, inv.size]
  · intro j above below
    simp only [SqSystem.accept, List.length_append, List.length_singleton] at below
    simp only [SqSystem.accept, sqPush, loc]
    rcases Nat.lt_succ_iff_lt_or_eq.mp below with earlier | rfl
    · have other : j % n ≠ s.enqueued.length % n := by
        intro same
        have := slot_inj low ⟨above, by omega⟩ ⟨ordered, by omega⟩ same
        omega
      simpa [other, List.getElem?_append_left earlier] using inv.stored j above earlier
    · simp
  · intro t' h now
    simp only [SqSystem.accept, List.length_append, List.length_singleton]
    rcases held_update now with ⟨_, rfl⟩ | ⟨_, old⟩
    · refine ⟨ordered, by simp, rfl, by simp, ?_, ?_⟩
      · simp only [Held.cid, ownCid]
      · simpa only [Held.cid, ownCid] using cidBound
    · obtain ⟨above, below, slot, stored, built, bound⟩ := inv.held t' h old
      refine ⟨above, by omega, slot, ?_, built, bound⟩
      rwa [List.getElem?_append_left below]
  · intro t₁ t₂ h₁ h₂
    apply held_apart Held.serial inv.serials
    intro t' h old
    exact (inv.held t' h old).2.1.ne
  · intro t₁ t₂ h₁ h₂
    apply held_apart Held.cid inv.cids
    intro t' h old clash
    have used := (inv.table cid).mpr ⟨t', h, old, clash.trans ownCid⟩
    simp [cidFree] at used
  · exact inv.accept_table idle ownCid rfl

omit [DecidableEq ι] in
theorem held_cid (inv : RingInv n low s) {t : ι} {h : Held} (mine : s.held t = some h) :
    s.aqp.sq.addr h.loc = h.cmd_ ∧ (s.aqp.sq.addr h.loc).cid = h.cid := by
  obtain ⟨above, below, slot, stored, _, _⟩ := inv.held t h mine
  have entry := (inv.stored h.serial above below).1
  rw [stored, ← slot, Option.some.injEq] at entry
  exact ⟨entry.symm, by rw [← entry]; rfl⟩

omit [DecidableEq ι] in
theorem held_beyond (inv : RingInv n low s) {t t' : ι} {h h' : Held} (mine : s.held t = some h)
    (old : s.held t' = some h') (other : t' ≠ t) : h'.serial ≠ h.serial ∧ h'.cid ≠ h.cid := by
  constructor
  · intro same
    exact other (inv.serials _ _ _ _ old mine same)
  · intro same
    exact other (inv.cids _ _ _ _ old mine same)

theorem release_pending (inv : RingInv n low s) {t : ι} {h : Held} (mine : s.held t = some h)
    (aqp : AdminRings) (j : Nat) : (s.release t aqp).Pending j ↔ s.Pending j ∧ j ≠ h.serial := by
  constructor
  · rintro ⟨t', h', now, rfl⟩
    obtain ⟨other, old⟩ := held_drop now
    exact ⟨⟨t', h', old, rfl⟩, (inv.held_beyond mine old other).1⟩
  · rintro ⟨⟨t', h', old, serial⟩, different⟩
    have other : t' ≠ t := by
      rintro rfl
      rw [mine, Option.some.injEq] at old
      exact different (old ▸ serial.symm)
    exact ⟨t', h', by rw [← old]; exact Function.update_of_ne other .., serial⟩

theorem release_table (inv : RingInv n low s) {t : ι} {h : Held} (mine : s.held t = some h)
    {aqp : AdminRings} (sqCid : aqp.sq.cid = Function.update s.aqp.sq.cid h.cid false) (c : Nat) :
    aqp.sq.cid c = true ↔ ∃ t' h', (s.release t aqp).held t' = some h' ∧ h'.cid = c := by
  rw [sqCid]
  by_cases own : c = h.cid
  · subst own
    simp only [Function.update_self, Bool.false_eq_true, false_iff]
    rintro ⟨t', h', now, same⟩
    obtain ⟨other, old⟩ := held_drop now
    exact (inv.held_beyond mine old other).2 same
  · rw [Function.update_of_ne own, inv.table c]
    constructor
    · rintro ⟨t', h', old, same⟩
      have other : t' ≠ t := by
        rintro rfl
        rw [mine, Option.some.injEq] at old
        exact own (old ▸ same.symm)
      exact ⟨t', h', by rw [← old]; exact Function.update_of_ne other .., same⟩
    · rintro ⟨t', h', now, same⟩
      exact ⟨t', h', (held_drop now).2, same⟩

/-- A cleanup by the holder of a slot ends, frees the holder's own CID and retires every
counter up to the first one still held. -/
theorem release (positive : 0 < n) (small : n ≤ 4096) (inv : RingInv n low s) {t : ι}
    {h : Held} (mine : s.held t = some h) :
    ∃ aqp r, adminSqMarkCleanup s.aqp h.loc = some aqp ∧
      aqp.sq.cid = Function.update s.aqp.sq.cid h.cid false ∧ aqp.cq = s.aqp.cq ∧
      RingInv n (low + r) (s.release t aqp) ∧
      ∀ j, low ≤ j → j < low + r → ¬ (s.release t aqp).Pending j := by
  obtain ⟨above, below, slot, _, _, _⟩ := inv.held t h mine
  obtain ⟨r, c, _, moves, ended⟩ := adminSqMarkCleanup_swept s.aqp h.loc
    (by rw [inv.size]; exact inv.head_lt positive) (by rw [inv.size]; exact small)
  rw [(inv.held_cid mine).2] at ended
  rw [inv.size, slot] at moves
  refine ⟨_, r, ended, rfl, rfl, ?_⟩
  have released := (inv.retiring.release above below).swept positive moves
  obtain ⟨window, before, stops⟩ := released
  have stillAbove : ∀ j, low ≤ j → s.Pending j → j ≠ h.serial → low + r ≤ j := by
    intro j lowest pending different
    by_contra inside
    exact before j lowest (by omega) ⟨pending, different⟩
  constructor
  · constructor
    · exact inv.size
    · exact window.congr _ fun j _ _ => (inv.release_pending mine _ j).symm
    · intro nonempty
      exact (inv.release_pending mine _ _).mpr (stops nonempty)
    · have room := inv.room
      simp only [SqSystem.release]
      omega
    · exact inv.tail
    · exact inv.door
    · intro j lowest highest
      exact inv.stored j (by omega) highest
    · intro t' h' now
      obtain ⟨other, old⟩ := held_drop now
      obtain ⟨lowest, highest, rest⟩ := inv.held t' h' old
      refine ⟨?_, highest, rest⟩
      exact stillAbove h'.serial lowest ⟨t', h', old, rfl⟩ (inv.held_beyond mine old other).1
    · intro t₁ t₂ h₁ h₂ now₁ now₂ same
      exact inv.serials _ _ _ _ (held_drop now₁).2 (held_drop now₂).2 same
    · intro t₁ t₂ h₁ h₂ now₁ now₂ same
      exact inv.cids _ _ _ _ (held_drop now₁).2 (held_drop now₂).2 same
    · exact inv.release_table mine rfl
  · intro j lowest highest pending
    exact before j lowest highest ((inv.release_pending mine _ j).mp pending)

omit [DecidableEq ι] in
theorem cid_available (small : n ≤ 4096) (inv : RingInv n low s) :
    ∃ cid, nextCid s.aqp.sq = some cid := by
  by_contra none_found
  have taken : ∀ c, c < MAX_CMD →
      ∃ serial, ∃ t h, s.held t = some h ∧ h.cid = c ∧ h.serial = serial := by
    intro c bound
    have used : s.aqp.sq.cid c = true := by
      by_contra free
      exact none_found (firstFree_exists bound (by simpa using free))
    obtain ⟨t, h, now, same⟩ := (inv.table c).mp used
    exact ⟨h.serial, t, h, now, same, rfl⟩
  choose! serial holder using taken
  have inside : ∀ c ∈ Finset.range MAX_CMD, serial c ∈ Finset.Ico low s.enqueued.length := by
    intro c member
    obtain ⟨t, h, now, _, atSerial⟩ := holder c (Finset.mem_range.mp member)
    obtain ⟨above, below, _⟩ := inv.held t h now
    exact Finset.mem_Ico.mpr ⟨by omega, by omega⟩
  have injective : Set.InjOn serial (Finset.range MAX_CMD) := by
    intro c memberC d memberD serials
    obtain ⟨t, h, now, cid, atSerial⟩ := holder c (by simpa using memberC)
    obtain ⟨t', h', now', cid', atSerial'⟩ := holder d (by simpa using memberD)
    have clients : t = t' := inv.serials _ _ _ _ now now' (by rw [atSerial, atSerial', serials])
    rw [clients, now', Option.some.injEq] at now
    rw [← cid, ← cid', now]
  have counted := Finset.card_le_card_of_injOn _ inside injective
  rw [Finset.card_range, Nat.card_Ico] at counted
  have room := inv.room
  simp only [MAX_CMD] at counted
  omega

end RingInv

end SqSystem

end BafsNvme
