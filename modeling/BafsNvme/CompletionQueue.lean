import BafsNvme.SubmissionSafety

/-! Clients, the driver's two rings and the device together: each client enqueues, polls
until its CID hits, cleans up the SQ slot and then the CQ slot; the device fetches and posts
completions at its own tail. -/

namespace BafsNvme

open Window RetireCursor Machine

/-- What a client keeps between the hit of its poll and its CQ cleanup: the slot the poll
returned, and the serial number of the command it polled for. -/
structure Seen where
  slot : Nat
  serial : Nat

/-- `inflight` are the fetched commands without a completion, with their serial numbers.
`posted`, `cqTag` and `cqPassed` record history: every completion with the serial number of
the command it answers, which of them each CQ slot holds, and how many slots the driver's
CQ head has passed. -/
structure AdminSystem (ι : Type) where
  sub : SqSystem ι
  seen : ι → Option Seen
  inflight : List (Cmd × Nat)
  cqTail : Nat
  cqPhase : Bool
  posted : List (Cpl × Nat)
  cqTag : Nat → Option Nat
  cqPassed : Nat

inductive AdminEvent (ι : Type) where
  | enqueue (t : ι) (cmd : FreshCmd)
  | poll (t : ι)
  | sqCleanup (t : ι)
  | cqCleanup (t : ι)
  | fetch
  | post (k : Nat) (cpl : Cpl)

def headMoves (before after : RetireCursor) (n : Nat) : Nat :=
  after.head + (if after.phase = before.phase then 0 else n) - before.head

namespace AdminSystem

variable {ι : Type}

def withRings (s : AdminSystem ι) (aqp : AdminRings) : AdminSystem ι :=
  { s with sub := { s.sub with aqp := aqp } }

def postOne (s : AdminSystem ι) (k serial : Nat) (cpl : Cpl) : AdminSystem ι :=
  { s.withRings { s.sub.aqp with
      cq := { s.sub.aqp.cq with addr := Function.update s.sub.aqp.cq.addr s.cqTail cpl } } with
    inflight := s.inflight.eraseIdx k
    cqTail := if s.cqTail + 1 = s.sub.aqp.cq.qs then 0 else s.cqTail + 1
    cqPhase := if s.cqTail + 1 = s.sub.aqp.cq.qs then !s.cqPhase else s.cqPhase
    posted := s.posted ++ [(cpl, serial)]
    cqTag := Function.update s.cqTag s.cqTail (some s.posted.length) }

def Posted (s : AdminSystem ι) (serial : Nat) : Prop := ∃ cpl, (cpl, serial) ∈ s.posted

def Answers (s : AdminSystem ι) (l serial : Nat) : Prop :=
  ∃ p, s.cqTag l = some p ∧ s.posted[p]? = some (s.sub.aqp.cq.addr l, serial)

variable [DecidableEq ι]

def retire (s : AdminSystem ι) (t : ι) (aqp : AdminRings) : AdminSystem ι :=
  { s.withRings aqp with
    seen := Function.update s.seen t none
    cqPassed := s.cqPassed + headMoves s.sub.aqp.cq.toRetireCursor aqp.cq.toRetireCursor
      s.sub.aqp.cq.qs }

def step (s : AdminSystem ι) : AdminEvent ι → Option (AdminSystem ι)
  | .enqueue t cmd =>
      if (s.seen t).isSome then none
      else (s.sub.step (.enqueue t cmd)).map fun sub => { s with sub := sub }
  | .poll t =>
      match s.sub.held t, s.seen t with
      | some h, none =>
          match adminCqPoll s.sub.aqp h.cid with
          | none => some s
          | some l => some { s with seen := Function.update s.seen t (some ⟨l, h.serial⟩) }
      | _, _ => none
  | .sqCleanup t =>
      if (s.seen t).isSome then
        (s.sub.step (.sqCleanup t)).map fun sub => { s with sub := sub }
      else none
  | .cqCleanup t =>
      match s.sub.held t, s.seen t with
      | none, some v => (adminCqMarkCleanup s.sub.aqp v.slot).map (s.retire t)
      | _, _ => none
  | .fetch =>
      (s.sub.step .fetch).map fun sub =>
        { s with
          sub := sub
          inflight := s.inflight ++ [(s.sub.aqp.sq.addr s.sub.devHead, s.sub.tag s.sub.devHead)] }
  | .post k cpl =>
      match s.inflight[k]? with
      | none => none
      | some (cmd, serial) =>
          if cpl.cid = cmd.cid ∧ cpl.phase = s.cqPhase then some (s.postOne k serial cpl) else none

def start (aqp : AdminRings) : AdminSystem ι where
  sub := SqSystem.start aqp
  seen := fun _ => none
  inflight := []
  cqTail := 0
  cqPhase := true
  posted := []
  cqTag := fun _ => none
  cqPassed := 0

/-- No entry of the CQ memory carries the phase tag of the first pass. `dma_alloc_coherent`
returns such memory where it fills it with zeroes; `admin_init` itself never clears it. -/
def PhasesClear (queueSize : Nat) (cqAddr : Nat → Cpl) : Prop :=
  ∀ l, l < queueSize → (cqAddr l).phase = false

def machine (ι : Type) [DecidableEq ι] (queueSize : Nat) :
    Machine (AdminSystem ι) (AdminEvent ι) where
  init s := ∃ cqAddr sqAddr, PhasesClear queueSize cqAddr ∧
    s = start (adminInitRings queueSize cqAddr sqAddr)
  step := step

theorem phasesClear_zero (queueSize : Nat) : PhasesClear queueSize fun _ => Cpl.zero :=
  fun _ _ => Cpl.zero_phase

theorem machine_init (queueSize : Nat) (sqAddr : Nat → Cmd) :
    (machine ι queueSize).init (start (adminInitRings queueSize (fun _ => Cpl.zero) sqAddr)) :=
  ⟨_, sqAddr, phasesClear_zero queueSize, rfl⟩

end AdminSystem

/-! ### The scan of a poll -/

theorem pollScan_some {cq : Ring Cpl} {cid i left l : Nat}
    (ends : cq.head + i + left + 1 = cq.qs) (hit : pollScan cq cid i left = some l) :
    cq.head + i ≤ l ∧ l < cq.qs ∧ pollMatches cq cid l = true := by
  induction left generalizing i with
  | zero =>
      have slot : (cq.head + i) % cq.qs = cq.head + i := Nat.mod_eq_of_lt (by omega)
      simp only [pollScan, slot] at hit
      split at hit
      · next found =>
        simp only [Option.some.injEq] at hit
        subst hit
        exact ⟨le_rfl, by omega, found⟩
      · cases hit
  | succ left ih =>
      have slot : (cq.head + i) % cq.qs = cq.head + i := Nat.mod_eq_of_lt (by omega)
      simp only [pollScan, slot] at hit
      split at hit
      · next found =>
        simp only [Option.some.injEq] at hit
        subst hit
        exact ⟨le_rfl, by omega, found⟩
      · obtain ⟨above, below, found⟩ := ih (by omega) hit
        exact ⟨by omega, below, found⟩

theorem adminCqPoll_some {aqp : AdminRings} {cid l : Nat} (bound : aqp.cq.head < aqp.cq.qs)
    (hit : adminCqPoll aqp cid = some l) :
    aqp.cq.head ≤ l ∧ l < aqp.cq.qs ∧ (aqp.cq.addr l).cid = cid ∧
      (aqp.cq.addr l).phase = aqp.cq.phase := by
  obtain ⟨above, below, found⟩ := pollScan_some (by omega) hit
  simp only [pollMatches, Bool.and_eq_true, beq_iff_eq] at found
  exact ⟨above, below, found.1, found.2⟩

theorem adminCqPoll_head {aqp : AdminRings} {cid : Nat} (bound : aqp.cq.head < aqp.cq.qs)
    (found : pollMatches aqp.cq cid aqp.cq.head = true) :
    adminCqPoll aqp cid = some aqp.cq.head := by
  have slot : (aqp.cq.head + 0) % aqp.cq.qs = aqp.cq.head := Nat.mod_eq_of_lt bound
  unfold adminCqPoll
  cases aqp.cq.qs - (aqp.cq.head + 1) with
  | zero => simp only [pollScan, slot, found, if_true]
  | succ left => simp only [pollScan, slot, found, if_true]

theorem headMoves_eq {n count r : Nat} {before after : RetireCursor} (positive : 0 < n)
    (start : At n count before) (finish : At n (count + r) after) (short : r ≤ n) :
    headMoves before after n = r := by
  have split := Nat.div_add_mod count n
  have bound := Nat.mod_lt count positive
  rw [headMoves, start.1, start.2, finish.1, finish.2]
  by_cases wraps : count % n + r < n
  · have quotient : (count + r) / n = count / n := by
      rw [Nat.div_eq_iff positive]
      constructor <;> [rw [Nat.mul_comm]; rw [Nat.mul_comm]] <;> omega
    have remainder := Nat.div_add_mod (count + r) n
    rw [quotient] at remainder
    simp only [passPhase, quotient, if_true]
    omega
  · have quotient : (count + r) / n = count / n + 1 := by
      rw [Nat.div_eq_iff positive, Nat.add_mul, Nat.mul_comm]
      omega
    have remainder := Nat.div_add_mod (count + r) n
    rw [quotient, Nat.mul_add] at remainder
    have flips : ¬ passPhase n (count + r) = passPhase n count := by
      rw [passPhase, passPhase, quotient]
      rcases Nat.mod_two_eq_zero_or_one (count / n) with h | h <;> simp <;> omega
    rw [if_neg flips]
    omega

end BafsNvme
