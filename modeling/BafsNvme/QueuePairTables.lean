import BafsNvme.DmaSizes
import BafsNvme.QueuePairAccess

/-! The four arrays that `admin_init` allocates for the queue pairs, and the bound that the later
operations of `kernel/nvme/admin.c` use for them. -/

namespace BafsNvme

open Machine

def fpgaConfigCmd : Cmd :=
  ((clearCmd.set 0 0xF0#32).set 1 0x2E5457E3#32).set 2 0xBADA55F1#32

/-- The completion is not read. -/
def adminDevSelfTest (s : IoState) (status : Nat) : IoState := s.submit devSelfTestCmd status

/-- The answer sets the number of pairs, as the one to Set Features did. -/
def adminFpgaConfig (s : IoState) (cpl : Cpl) : IoState :=
  let s := s.submit fpgaConfigCmd cpl.status
  { s with aqp := { s.aqp with numIoQueuePairsSupported := numQueuesSupported cpl } }

/-- The tables and the length that the four arrays were allocated with; `up` until
`admin_clean`. -/
structure TableSystem where
  io : IoState
  allocated : Nat
  up : Bool

inductive TableCall where
  | devSelfTest (status : Nat)
  | fpgaConfig (cpl : Cpl)
  | create (cqAddr sqAddr : BitVec 64) (cqStatus sqStatus : Nat)
  | delete (i sqStatus cqStatus : Nat)
  | clean (statuses : Nat → Nat × Nat)

def TableCall.keepsUp : TableCall → Bool
  | .clean _ => false
  | _ => true

namespace TableSystem

def call (io : IoState) : TableCall → Option IoState
  | .devSelfTest status => some (adminDevSelfTest io status)
  | .fpgaConfig cpl => some (adminFpgaConfig io cpl)
  | .create cqAddr sqAddr cqStatus sqStatus =>
      some (adminCreateIoQueuePair io cqAddr sqAddr cqStatus sqStatus).2
  | .delete i sqStatus cqStatus =>
      if i < io.aqp.numIoQueuePairsSupported then adminDeleteIoQueuePair io i sqStatus cqStatus
      else none
  | .clean statuses => DriverState.deletePairs statuses io io.aqp.numIoQueuePairsSupported

def step (s : TableSystem) (e : TableCall) : Option TableSystem :=
  if s.up then (call s.io e).map fun io => { s with io := io, up := e.keepsUp } else none

def machine (input : InitInput) : Machine TableSystem TableCall where
  init s := ∃ before : DriverState Unit,
    s = ⟨(before.adminInit input).io, numQueuesSupported input.cpl, true⟩
  step := step

def TablesFit (s : TableSystem) : Prop := s.io.aqp.numIoQueuePairsSupported = s.allocated

/-- The indices of the arrays that a call uses (`call_writes`, `call_reads`). A create looks at
the marks up to the first free one, and takes that one. -/
def Uses (s : TableSystem) : TableCall → Nat → Prop
  | .devSelfTest _, _ => False
  | .fpgaConfig _, _ => False
  | .create .., k => s.io.aqp.numIoQueuePairsUsed ≠ s.io.aqp.numIoQueuePairsSupported ∧
      k < s.io.aqp.numIoQueuePairsSupported ∧ ∀ j, j < k → s.io.aqp.queueUseMark j = true
  | .delete i .., k => k = i
  | .clean _, k => k < s.io.aqp.numIoQueuePairsSupported

def InsideTables (s : TableSystem) (e : TableCall) : Prop := ∀ k, s.Uses e k → k < s.allocated

def RepeatsGrant (s : TableSystem) : TableCall → Prop
  | .fpgaConfig cpl => numQueuesSupported cpl = s.allocated
  | _ => True

end TableSystem

theorem create_supported (s : IoState) (cqAddr sqAddr : BitVec 64) (cqStatus sqStatus : Nat) :
    (adminCreateIoQueuePair s cqAddr sqAddr cqStatus sqStatus).2.aqp.numIoQueuePairsSupported =
      s.aqp.numIoQueuePairsSupported := by
  obtain ⟨_, _, _, _, _, tables⟩ := s.create_tables cqAddr sqAddr cqStatus sqStatus
  rw [tables]

theorem delete_supported {s s' : IoState} {i sqStatus cqStatus : Nat}
    (returned : adminDeleteIoQueuePair s i sqStatus cqStatus = some s') :
    s'.aqp.numIoQueuePairsSupported = s.aqp.numIoQueuePairsSupported := by
  obtain ⟨_, tables⟩ := IoState.delete_tables returned
  rw [tables]

theorem deletePairs_supported {s s' : IoState} {statuses : Nat → Nat × Nat} {n : Nat}
    (returned : DriverState.deletePairs statuses s n = some s') :
    s'.aqp.numIoQueuePairsSupported = s.aqp.numIoQueuePairsSupported := by
  induction n generalizing s' with
  | zero =>
      cases returned
      rfl
  | succ n ih =>
      obtain ⟨before, earlier, last⟩ := Option.bind_eq_some_iff.mp returned
      exact (delete_supported last).trans (ih earlier)

namespace TableSystem

variable {input : InitInput} {s s' : TableSystem} {e : TableCall}

theorem tablesFit_start (initial : (machine input).init s) : TablesFit s := by
  obtain ⟨before, rfl⟩ := initial
  exact create_supported ..

theorem tablesFit_step (fits : TablesFit s) (taken : (machine input).step s e = some s') :
    TablesFit s' ↔ RepeatsGrant s e := by
  simp only [machine, step, Option.ite_none_right_eq_some, Option.map_eq_some_iff] at taken
  obtain ⟨_, io, called, rfl⟩ := taken
  have kept (same : io.aqp.numIoQueuePairsSupported = s.io.aqp.numIoQueuePairsSupported) :
      TablesFit { s with io := io, up := e.keepsUp } := same.trans fits
  cases e with
  | devSelfTest status =>
      cases called
      exact iff_of_true (kept rfl) trivial
  | fpgaConfig cpl =>
      cases called
      exact Iff.rfl
  | create cqAddr sqAddr cqStatus sqStatus =>
      cases called
      exact iff_of_true (kept (create_supported ..)) trivial
  | delete i sqStatus cqStatus =>
      rw [call, Option.ite_none_right_eq_some] at called
      exact iff_of_true (kept (delete_supported called.2)) trivial
  | clean statuses => exact iff_of_true (kept (deletePairs_supported called)) trivial

theorem insideTables_of_fit (fits : TablesFit s) (taken : (machine input).step s e = some s') :
    InsideTables s e := by
  simp only [machine, step, Option.ite_none_right_eq_some, Option.map_eq_some_iff] at taken
  obtain ⟨_, io, called, _⟩ := taken
  intro k uses
  rw [← fits]
  cases e with
  | devSelfTest status => exact uses.elim
  | fpgaConfig cpl => exact uses.elim
  | create cqAddr sqAddr cqStatus sqStatus => exact uses.2.1
  | delete i sqStatus cqStatus =>
      rw [call, Option.ite_none_right_eq_some] at called
      exact uses.trans_lt called.1
  | clean statuses => exact uses

theorem call_writes {io : IoState} (called : call s.io e = some io) {k : Nat}
    (unused : ¬ s.Uses e k) : io.arrays.entry k = s.io.arrays.entry k := by
  cases e with
  | devSelfTest status =>
      cases called
      rfl
  | fpgaConfig cpl =>
      cases called
      rfl
  | create cqAddr sqAddr cqStatus sqStatus =>
      cases called
      exact IoState.create_writes cqAddr sqAddr cqStatus sqStatus unused
  | delete i sqStatus cqStatus =>
      rw [call, Option.ite_none_right_eq_some] at called
      exact IoState.delete_writes called.2 unused
  | clean statuses => exact IoState.deletePairs_writes called unused

theorem call_reads {io t : IoState} (called : call s.io e = some io) {used : Nat → Prop}
    (covers : ∀ k, s.Uses e k → used k) (same : s.io.SameAt used t) :
    ∃ io', call t e = some io' ∧ io.SameAt used io' := by
  cases e with
  | devSelfTest status =>
      cases called
      exact ⟨_, rfl, same.submit devSelfTestCmd status⟩
  | fpgaConfig cpl =>
      cases called
      obtain ⟨a, rfl, agree⟩ := same
      exact ⟨_, rfl, a, rfl, agree⟩
  | create cqAddr sqAddr cqStatus sqStatus =>
      cases called
      exact ⟨_, rfl, same.create covers cqAddr sqAddr cqStatus sqStatus⟩
  | delete i sqStatus cqStatus =>
      rw [call, Option.ite_none_right_eq_some] at called
      rw [call, same.supported, if_pos called.1]
      exact same.delete (covers i rfl) called.2
  | clean statuses =>
      rw [call, same.supported]
      exact same.deletePairs covers called

/-- As long as every answer repeats the grant, what lies behind the arrays is neither written
nor read. -/
theorem behind_tables (fits : TablesFit s) {calls : List TableCall} {last : TableSystem}
    (repeats : RunMeets (machine input) RepeatsGrant s calls)
    (ended : (machine input).run s calls = some last) :
    (∀ k, s.allocated ≤ k → last.io.arrays.entry k = s.io.arrays.entry k) ∧
      ∀ t, s.io.SameAt (· < s.allocated) t → ∃ t',
        (machine input).run { s with io := t } calls = some { last with io := t' } ∧
          last.io.SameAt (· < s.allocated) t' := by
  induction calls generalizing s with
  | nil =>
      obtain rfl := Option.some.inj ended
      exact ⟨fun _ _ => rfl, fun t same => ⟨t, rfl, same⟩⟩
  | cons e rest ih =>
      obtain ⟨s₁, taken, remaining⟩ := Option.bind_eq_some_iff.mp ended
      have fits₁ := (tablesFit_step fits taken).mpr repeats.1
      have inside := insideTables_of_fit fits taken
      obtain ⟨writes, reads⟩ := ih fits₁ (repeats.2 s₁ taken) remaining
      obtain ⟨up, io, called, rfl⟩ : s.up = true ∧ ∃ io, call s.io e = some io ∧
          { s with io := io, up := e.keepsUp } = s₁ := by
        simpa only [machine, step, Option.ite_none_right_eq_some, Option.map_eq_some_iff] using taken
      constructor
      · intro k beyond
        have unused : ¬ s.Uses e k := fun uses => absurd (inside k uses) (by omega)
        exact (writes k beyond).trans (call_writes called unused)
      · intro t same
        obtain ⟨io', called', same'⟩ := call_reads called inside same
        obtain ⟨t', ran, agree⟩ := reads io' same'
        refine ⟨t', ?_, agree⟩
        have taken' : (machine input).step { s with io := t } e =
            some { s with io := io', up := e.keepsUp } := by
          simp only [machine, step, up, if_true, called', Option.map_some]
        rw [run, taken']
        exact ran

/-- In a run of calls after `admin_init` the bound stays the length of the arrays and every index
used lies inside them, if and only if every answer to `admin_fpga_config` repeats the number of
pairs that was granted first. -/
theorem tables_fit_iff (input : InitInput) (s last : TableSystem)
    (initial : (machine input).init s) (calls : List TableCall)
    (ended : (machine input).run s calls = some last) :
    (RunHolds (machine input) TablesFit s calls ∧ RunMeets (machine input) InsideTables s calls) ↔
      RunMeets (machine input) RepeatsGrant s calls := by
  have fit : RunHolds (machine input) TablesFit s calls ↔
      RunMeets (machine input) RepeatsGrant s calls :=
    runHolds_iff (fun _ => True) (fun _ _ _ _ _ _ => trivial)
      (fun _ _ _ _ fits _ taken => tablesFit_step fits taken) calls trivial
      (tablesFit_start initial) (anyEvent_runMeets _ calls s) ended
  constructor
  · intro both
    exact fit.mp both.1
  · intro repeats
    have fits := fit.mpr repeats
    exact ⟨fits, fits.meets ended fun _ _ _ fits taken => insideTables_of_fit fits taken⟩

def answered (word : Dword) : Cpl := ⟨Function.update (fun _ => 0#32) 0 word⟩

def oneGranted : TableSystem :=
  ⟨(DriverState.blank.adminInit DriverState.smallInit).io,
    numQueuesSupported DriverState.smallInit.cpl, true⟩

instance (s : TableSystem) (e : TableCall) : Decidable (RepeatsGrant s e) :=
  match e with
  | .fpgaConfig cpl => inferInstanceAs (Decidable (numQueuesSupported cpl = s.allocated))
  | .devSelfTest _ | .create .. | .delete .. | .clean _ => inferInstanceAs (Decidable True)

theorem tables_fit_whole_life :
    RunHolds (machine DriverState.smallInit) TablesFit oneGranted
        [.devSelfTest 0, .fpgaConfig (answered 0#32), .delete 0 0 0, .clean fun _ => (0, 0)] ∧
      RunMeets (machine DriverState.smallInit) InsideTables oneGranted
        [.devSelfTest 0, .fpgaConfig (answered 0#32), .delete 0 0 0, .clean fun _ => (0, 0)] := by
  have ended : (runAllowed (machine DriverState.smallInit) RepeatsGrant oneGranted
      [.devSelfTest 0, .fpgaConfig (answered 0#32), .delete 0 0 0,
        .clean fun _ => (0, 0)]).isSome = true := by
    decide +kernel
  obtain ⟨last, ran⟩ := Option.isSome_iff_exists.mp ended
  obtain ⟨meets, reached⟩ := runAllowed_meets ran
  exact (tables_fit_iff DriverState.smallInit oneGranted last ⟨_, rfl⟩ _ reached).mpr meets

/-- An answer of `admin_fpga_config` with 3 in its upper half: four pairs over arrays of one. -/
theorem bound_past_tables :
    ¬ ∀ (input : InitInput) (s last : TableSystem) (calls : List TableCall),
      (machine input).init s → (machine input).run s calls = some last →
        RunHolds (machine input) TablesFit s calls ∧
          RunMeets (machine input) InsideTables s calls := by
  intro calls_always_inside
  have ended : ((machine DriverState.smallInit).run oneGranted
      [.fpgaConfig (answered 0x30000#32), .delete 3 0 0]).map (fun s =>
        (s.io.aqp.numIoQueuePairsSupported, s.allocated)) = some (4, 1) := by
    decide +kernel
  obtain ⟨last, ran, facts⟩ := Option.map_eq_some_iff.mp ended
  have fits := (calls_always_inside _ oneGranted last _ ⟨_, rfl⟩ ran).1.last ran
  simp only [Prod.mk.injEq] at facts
  rw [TablesFit, facts.1, facts.2] at fits
  exact absurd fits (by decide)

end TableSystem

end BafsNvme
