import BafsNvme.Queue

/-! The admin rings of `kernel/nvme/admin.c`: set-up, submission, polling and the two
cleanups. A call runs under `aqp->lock` and is one atomic function of the rings. -/

namespace BafsNvme

open Window RetireCursor

/-- CAP.MQES, the low 16 bits of the capability register. -/
def mqes (cap0 : Dword) : Nat := cap0.toNat % 2 ^ 16

/-- `queue_size` of `admin_init`, from the first half of CAP. -/
def initQueueSize (cap0 : Dword) : Nat :=
  let queueSize := ((rdBits (cap0.setWidth 64) 15 0 + 1#64).setWidth 32).toNat
  if queueSize > 4096 then 4096 else queueSize

def adminInitRings (queueSize : Nat) (cqAddr : Nat → Cpl) (sqAddr : Nat → Cmd) : AdminRings where
  cq :=
    { es := 16, qs := queueSize, head := 0, tail := 0, phase := true, db := none,
      addr := cqAddr, mark := fun _ => false, cid := fun _ => false }
  sq :=
    { es := 64, qs := queueSize, head := 0, tail := 0, phase := true, db := none,
      addr := sqAddr, mark := fun _ => false, cid := fun _ => false }

/-- `((u16) (tail - head) % qs) == (qs - 1)`, with the 64-bit subtraction and the cast. -/
def sqFull (sq : Ring Cmd) : Bool :=
  (sq.tail + 2 ^ 64 - sq.head) % 2 ^ 64 % 2 ^ 16 % sq.qs == sq.qs - 1

/-- The slot and the CID the call uses, and the command as it stands in the caller's
`cmd_` afterwards. -/
def adminEnqueueCommand (aqp : AdminRings) (cmd_ : Cmd) : Option Nat × AdminRings × Cmd :=
  if sqFull aqp.sq then (none, aqp, cmd_)
  else
    let loc := aqp.sq.tail % 2 ^ 16
    match firstFree aqp.sq.cid 0 MAX_CMD with
    | none => (none, aqp, cmd_)
    | some cid =>
        let cmd_ := cmd_.withCid cid
        let tail := (aqp.sq.tail + 1) % aqp.sq.qs
        (some loc,
          { aqp with
            sq :=
              { aqp.sq with
                cid := Function.update aqp.sq.cid cid true
                addr := Function.update aqp.sq.addr loc cmd_
                tail := tail
                db := some tail } },
          cmd_)

/-- The loop of both cleanups, `for (i = 0; true; i++)`, for at most `fuel` iterations. -/
def markSweep {α : Type} (oldHead : Nat) : Nat → Nat → Ring α → Option (Ring α)
  | 0, _, _ => none
  | fuel + 1, i, q =>
      let l := (oldHead + i) % q.qs % 2 ^ 16
      if q.mark l then
        let q := { q with mark := Function.update q.mark l false, head := q.head + 1 }
        let q := if q.head = q.qs then { q with head := 0, phase := !q.phase } else q
        markSweep oldHead fuel ((i + 1) % 2 ^ 16) q
      else some q

/-- `none` is a loop that has not ended after `qs + 1` iterations. -/
def adminSqMarkCleanup (aqp : AdminRings) (loc : Nat) : Option AdminRings :=
  let cid := (aqp.sq.addr loc).cid
  let sq :=
    { aqp.sq with
      cid := Function.update aqp.sq.cid cid false
      mark := Function.update aqp.sq.mark loc true }
  let oldHead := aqp.sq.head
  (markSweep oldHead (sq.qs + 1) 0 sq).map fun sq => { aqp with sq := sq }

def adminCqMarkCleanup (aqp : AdminRings) (loc : Nat) : Option AdminRings :=
  let cq := { aqp.cq with mark := Function.update aqp.cq.mark loc true }
  let oldHead := aqp.cq.head
  (markSweep oldHead (cq.qs + 1) 0 cq).map fun cq =>
    { aqp with cq := if oldHead ≠ cq.head then { cq with db := some cq.head } else cq }

def pollMatches (cq : Ring Cpl) (cid l : Nat) : Bool :=
  (cq.addr l).cid == cid && (cq.addr l).phase == cq.phase

/-- The scan of `admin_cq_poll` from iteration `i` on; `left` iterations remain before
`cur_head + i + 1 >= qs` ends it. -/
def pollScan (cq : Ring Cpl) (cid i : Nat) : Nat → Option Nat
  | 0 =>
      let l := (cq.head + i) % cq.qs
      if pollMatches cq cid l then some l else none
  | left + 1 =>
      let l := (cq.head + i) % cq.qs
      if pollMatches cq cid l then some l else pollScan cq cid (i + 1) left

/-- `none` is the return value -1. -/
def adminCqPoll (aqp : AdminRings) (cid : Nat) : Option Nat :=
  pollScan aqp.cq cid 0 (aqp.cq.qs - (aqp.cq.head + 1))

theorem rdBits_mqes (cap0 : Dword) : (rdBits (cap0.setWidth 64) 15 0).toNat = mqes cap0 := by
  have wide : cap0.toNat % 2 ^ 64 = cap0.toNat :=
    Nat.mod_eq_of_lt (lt_trans cap0.isLt (by norm_num))
  rw [rdBits_toNat _ (by norm_num) (by norm_num), BitVec.toNat_setWidth, wide, Nat.pow_zero,
    Nat.div_one, mqes]

theorem initQueueSize_eq (cap0 : Dword) : initQueueSize cap0 = min (mqes cap0 + 1) 4096 := by
  have field := rdBits_mqes cap0
  have bound : mqes cap0 < 2 ^ 16 := Nat.mod_lt _ (by norm_num)
  simp only [initQueueSize, BitVec.toNat_setWidth, BitVec.toNat_add, field, BitVec.toNat_ofNat]
  split <;> omega

theorem initQueueSize_bounds (cap0 : Dword) :
    0 < initQueueSize cap0 ∧ initQueueSize cap0 ≤ 4096 := by
  rw [initQueueSize_eq]
  omega

def sqPush (sq : Ring Cmd) (cid : Nat) (cmd : Cmd) : Ring Cmd :=
  { sq with
    cid := Function.update sq.cid cid true
    addr := Function.update sq.addr (sq.tail % 2 ^ 16) (cmd.withCid cid)
    tail := (sq.tail + 1) % sq.qs
    db := some ((sq.tail + 1) % sq.qs) }

def nextCid (sq : Ring Cmd) : Option Nat := firstFree sq.cid 0 MAX_CMD

theorem adminEnqueueCommand_cases (aqp : AdminRings) (cmd_ : Cmd) :
    (adminEnqueueCommand aqp cmd_ = (none, aqp, cmd_) ∧
        (sqFull aqp.sq = true ∨ nextCid aqp.sq = none)) ∨
      ∃ cid, sqFull aqp.sq = false ∧ nextCid aqp.sq = some cid ∧
        adminEnqueueCommand aqp cmd_ =
          (some (aqp.sq.tail % 2 ^ 16), { aqp with sq := sqPush aqp.sq cid cmd_ },
            cmd_.withCid cid) := by
  cases full : sqFull aqp.sq with
  | true => exact .inl ⟨by simp [adminEnqueueCommand, full], .inl rfl⟩
  | false =>
      cases next : nextCid aqp.sq with
      | none =>
          rw [nextCid] at next
          exact .inl ⟨by simp [adminEnqueueCommand, full, next], .inr rfl⟩
      | some cid =>
          have found := next
          rw [nextCid] at found
          exact .inr ⟨cid, rfl, rfl, by simp [adminEnqueueCommand, full, found, sqPush]⟩

theorem markSweep_swept {α : Type} {n oldHead fuel i r : Nat} {q : Ring α}
    {start c : RetireCursor} (moves : Swept n start r c) (cursor : q.toRetireCursor = start)
    (size : q.qs = n) (small : n ≤ 2 ^ 16) (bound : start.head < n)
    (here : (oldHead + i) % n = start.head) (enough : r < fuel) (counter : i + r < 2 ^ 16) :
    markSweep oldHead fuel i q = some { q with toRetireCursor := c } := by
  induction moves generalizing q fuel i with
  | @stop start clear =>
      obtain ⟨fuel, rfl⟩ : ∃ k, fuel = k + 1 := ⟨fuel - 1, by omega⟩
      subst cursor
      subst size
      have slot : (oldHead + i) % q.qs % 2 ^ 16 = q.head := by
        rw [here]
        exact Nat.mod_eq_of_lt (by omega)
      rw [markSweep]
      simp only [slot, clear]
      rfl
  | @retire start c r marked _ ih =>
      obtain ⟨fuel, rfl⟩ : ∃ k, fuel = k + 1 := ⟨fuel - 1, by omega⟩
      subst cursor
      subst size
      have slot : (oldHead + i) % q.qs % 2 ^ 16 = q.head := by
        rw [here]
        exact Nat.mod_eq_of_lt (by omega)
      have next : (i + 1) % 2 ^ 16 = i + 1 := Nat.mod_eq_of_lt (by omega)
      have moved : (oldHead + (i + 1)) % q.qs = (q.toRetireCursor.retireHead q.qs).head := by
        have positive : 0 < q.qs := by omega
        rw [← Nat.add_assoc, slot_next positive, here]
        simp only [retireHead]
      have step : markSweep oldHead fuel (i + 1)
          { q with toRetireCursor := q.toRetireCursor.retireHead q.qs } =
          some { q with toRetireCursor := c } :=
        ih rfl rfl (retireHead_head_lt bound) moved (by omega) (by omega)
      rw [markSweep]
      simp only [slot, marked, next, if_true]
      rw [← step]
      congr 1
      by_cases wraps : q.head + 1 = q.qs
      · simp [retireHead, wraps]
      · simp [retireHead, wraps]

theorem markSweep_ends {α : Type} (q : Ring α) (bound : q.head < q.qs) (small : q.qs ≤ 4096) :
    ∃ r c, r ≤ q.qs ∧ Swept q.qs q.toRetireCursor r c ∧
      markSweep q.head (q.qs + 1) 0 q = some { q with toRetireCursor := c } := by
  obtain ⟨r, c, moves⟩ := swept_exists bound
  have used := moves.setCount bound
  have most := setCount_le q.mark q.qs
  refine ⟨r, c, by omega, moves, ?_⟩
  apply markSweep_swept moves rfl rfl (by omega) bound _ (by omega) (by omega)
  rw [Nat.add_zero]
  exact Nat.mod_eq_of_lt bound

def markAt (c : RetireCursor) (loc : Nat) : RetireCursor :=
  { c with mark := Function.update c.mark loc true }

theorem adminSqMarkCleanup_swept (aqp : AdminRings) (loc : Nat) (bound : aqp.sq.head < aqp.sq.qs)
    (small : aqp.sq.qs ≤ 4096) :
    ∃ r c, r ≤ aqp.sq.qs ∧ Swept aqp.sq.qs (markAt aqp.sq.toRetireCursor loc) r c ∧
      adminSqMarkCleanup aqp loc = some { aqp with
        sq := { aqp.sq with
          cid := Function.update aqp.sq.cid (aqp.sq.addr loc).cid false
          toRetireCursor := c } } := by
  obtain ⟨r, c, most, moves, ended⟩ := markSweep_ends
    { aqp.sq with
      cid := Function.update aqp.sq.cid (aqp.sq.addr loc).cid false
      mark := Function.update aqp.sq.mark loc true } bound small
  refine ⟨r, c, most, moves, ?_⟩
  simp only [adminSqMarkCleanup]
  rw [ended]
  rfl

theorem adminCqMarkCleanup_swept (aqp : AdminRings) (loc : Nat) (bound : aqp.cq.head < aqp.cq.qs)
    (small : aqp.cq.qs ≤ 4096) :
    ∃ r c, r ≤ aqp.cq.qs ∧ Swept aqp.cq.qs (markAt aqp.cq.toRetireCursor loc) r c ∧
      adminCqMarkCleanup aqp loc = some { aqp with
        cq := { aqp.cq with
          toRetireCursor := c
          db := if aqp.cq.head ≠ c.head then some c.head else aqp.cq.db } } := by
  obtain ⟨r, c, most, moves, ended⟩ := markSweep_ends
    { aqp.cq with mark := Function.update aqp.cq.mark loc true } bound small
  refine ⟨r, c, most, moves, ?_⟩
  simp only [adminCqMarkCleanup]
  rw [ended]
  by_cases moved : aqp.cq.head = c.head
  · simp [moved]
  · simp [moved]

/-- The ring has a slot left besides the one that keeps full from looking empty. -/
def SlotFree (sq : Ring Cmd) : Prop := (sq.tail + sq.qs - sq.head) % sq.qs ≠ sq.qs - 1

/-- Where the ring size divides the 16-bit range the casts of the fullness test are exact. -/
theorem sqFull_exact {sq : Ring Cmd} (divides : sq.qs ∣ 2 ^ 16) (bound : sq.head < sq.qs) :
    sqFull sq = true ↔ ¬ SlotFree sq := by
  have wide : sq.qs ∣ 2 ^ 64 := divides.trans (by norm_num)
  have small : sq.qs ≤ 2 ^ 16 := Nat.le_of_dvd (by norm_num) divides
  have rings : (sq.tail + 2 ^ 64 - sq.head) % sq.qs = (sq.tail + sq.qs - sq.head) % sq.qs := by
    obtain ⟨laps, size⟩ := wide
    have positive : 0 < laps := by
      rcases Nat.eq_zero_or_pos laps with rfl | positive
      · simp at size
      · exact positive
    obtain ⟨more, rfl⟩ : ∃ k, laps = k + 1 := ⟨laps - 1, by omega⟩
    have lap : sq.tail + 2 ^ 64 - sq.head = sq.tail + sq.qs - sq.head + sq.qs * more := by
      rw [Nat.mul_add, Nat.mul_one] at size
      omega
    rw [lap, Nat.add_mul_mod_self_left]
  simp only [sqFull, SlotFree, beq_iff_eq, not_not, Nat.mod_mod_of_dvd _ wide,
    Nat.mod_mod_of_dvd _ divides]
  rw [rings]

end BafsNvme
