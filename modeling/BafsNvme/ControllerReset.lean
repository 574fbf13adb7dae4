import BafsNvme.Handshake
import BafsNvme.InitRegisters

/-! How `admin_init` resets and restarts the controller: its register writes and wait loops one
by one, beside a controller that follows CC.EN with CSTS.RDY in its own time. -/

namespace BafsNvme

open Machine Handshake

/-- The lines of `admin_init` that touch CC, CSTS and the admin queue registers. -/
inductive InitPoint
  | reset
  | waitOff
  | aqa
  | acqLow
  | acqHigh
  | asqLow
  | asqHigh
  | enable
  | waitOn
  | intms
  | intmc
  | finished
  deriving DecidableEq

structure InitValues where
  cap : BitVec 64
  cqDmaAddr : BitVec 64
  sqDmaAddr : BitVec 64
  cqAddr : Nat → Cpl
  sqAddr : Nat → Cmd

namespace InitValues

def aqp (v : InitValues) : AdminRings :=
  adminInitRings (initQueueSize (capWords v.cap 0)) v.cqAddr v.sqAddr

def written (v : InitValues) (regs : NvmeRegs) : NvmeRegs :=
  adminInitRegs (capWords v.cap 1) v.aqp v.cqDmaAddr v.sqDmaAddr regs

def Decoded (v : InitValues) (regs : NvmeRegs) : Prop :=
  QueuesDecode v.cap v.aqp v.cqDmaAddr v.sqDmaAddr regs ∧
    ConfigDecodes v.cap v.aqp (adminInitFields (capWords v.cap 0) (capWords v.cap 1)) regs

end InitValues

namespace InitPoint

def next : InitPoint → InitPoint
  | .reset => .waitOff
  | .waitOff => .aqa
  | .aqa => .acqLow
  | .acqLow => .acqHigh
  | .acqHigh => .asqLow
  | .asqLow => .asqHigh
  | .asqHigh => .enable
  | .enable => .waitOn
  | .waitOn => .intms
  | .intms => .intmc
  | .intmc | .finished => .finished

def store (v : InitValues) (regs : NvmeRegs) : InitPoint → NvmeRegs
  | .reset => { regs with cc := regs.cc &&& ~~~1#32 }
  | .aqa => { regs with aqa := packDword (v.aqp.sq.qs - 1) (v.aqp.sq.qs - 1) }
  | .acqLow => { regs with acq := Function.update regs.acq 0 (v.cqDmaAddr.setWidth 32) }
  | .acqHigh => { regs with acq := Function.update regs.acq 1 ((v.cqDmaAddr >>> 32).setWidth 32) }
  | .asqLow => { regs with asq := Function.update regs.asq 0 (v.sqDmaAddr.setWidth 32) }
  | .asqHigh => { regs with asq := Function.update regs.asq 1 ((v.sqDmaAddr >>> 32).setWidth 32) }
  | .enable =>
      { regs with
        cc := ilog2 v.aqp.cq.es <<< 20 ||| ilog2 v.aqp.sq.es <<< 16 |||
          mpsmin (capWords v.cap 1) <<< 7 ||| 0x0001#32 }
  | .intms => { regs with intms := 0xffffffff#32 }
  | .intmc => { regs with intmc := 0x0#32 }
  | .waitOff | .waitOn | .finished => regs

def above (p : InitPoint) : List InitPoint :=
  [.reset, .waitOff, .aqa, .acqLow, .acqHigh, .asqLow, .asqHigh, .enable, .waitOn, .intms,
    .intmc].takeWhile fun line => line ≠ p

def before (v : InitValues) (regs : NvmeRegs) (p : InitPoint) : NvmeRegs :=
  p.above.foldl (store v) regs

def programs : InitPoint → Bool
  | .aqa | .acqLow | .acqHigh | .asqLow | .asqHigh | .enable => true
  | _ => false

def running : InitPoint → Bool
  | .intms | .intmc | .finished => true
  | _ => false

end InitPoint

/-- `admin_init` and the controller. `taken` are the registers as the controller found them
when it last began to start. -/
structure ResetSystem where
  point : InitPoint
  regs : NvmeRegs
  csts : Dword
  acting : Bool
  taken : NvmeRegs
  ctl : IoController

inductive ResetEvent
  | line
  | controller (r : Response)
  | status (csts : Dword)

namespace ResetSystem

def link (s : ResetSystem) : Handshake Bool :=
  ⟨s.regs.cc.getLsbD 0, s.acting, s.csts.getLsbD 0⟩

def line (v : InitValues) (s : ResetSystem) : Option ResetSystem :=
  let goOn := { s with regs := s.point.store v s.regs, point := s.point.next }
  match s.point with
  | .waitOff => some (if s.csts &&& 0x01#32 ≠ 0#32 then s else goOn)
  | .waitOn => some (if s.csts &&& 0x01#32 ≠ 1#32 then s else goOn)
  | .finished => none
  | _ => some goOn

/-- The controller's side after a response. Where it begins to start, it takes the registers
over and has no I/O queues. -/
def follow (s : ResetSystem) (h : Handshake Bool) : ResetSystem :=
  let begins := h.acting && !s.acting
  { s with
    csts := s.csts &&& ~~~1#32 ||| (BitVec.ofBool h.ack).setWidth 32
    acting := h.acting
    taken := if begins then s.regs else s.taken
    ctl := if begins then .empty else s.ctl }

def step (v : InitValues) (s : ResetSystem) : ResetEvent → Option ResetSystem
  | .line => s.line v
  | .controller r => (s.link.respond r).map s.follow
  | .status csts =>
      if csts.getLsbD 0 = s.csts.getLsbD 0 then some { s with csts := csts } else none

def machine (v : InitValues) (first : ResetSystem) : Machine ResetSystem ResetEvent where
  init s := s = first
  step := step v

def start (regs : NvmeRegs) (csts : Dword) (acting : Bool) (taken : NvmeRegs)
    (ctl : IoController) : ResetSystem := ⟨.reset, regs, csts, acting, taken, ctl⟩

/-- The admin queue is programmed only while the controller is off, and after the second loop
the controller runs with exactly the driver's queues. -/
structure HandedOver (v : InitValues) (regs : NvmeRegs) (s : ResetSystem) : Prop where
  off : s.point.programs = true → s.link.Rests false
  on : s.point.running = true → s.link.Rests true ∧ v.Decoded s.taken ∧ s.ctl = .empty
  written : s.point = .finished → s.regs = v.written regs

end ResetSystem

namespace InitPoint

variable (v : InitValues) (regs : NvmeRegs)

theorem above_next (p : InitPoint) (more : p ≠ .finished) : p.next.above = p.above ++ [p] := by
  cases p <;> first | exact absurd rfl more | decide

theorem before_next (p : InitPoint) (more : p ≠ .finished) :
    before v regs p.next = store v (before v regs p) p := by
  rw [before, above_next p more, List.foldl_append]
  rfl

theorem halves_stored (old : Fin 2 → Dword) (low high : Dword) :
    Function.update (Function.update old 0 low) 1 high = ![low, high] := by
  funext i
  fin_cases i <;> rfl

theorem before_finished : before v regs .finished = v.written regs := by
  simp [before, above, store, halves_stored]
  rfl

/-- With the interrupt masks still as they were, the registers decode already. -/
theorem before_waitOn_decoded : v.Decoded (before v regs .waitOn) := by
  obtain ⟨queues, config⟩ :=
    registers_decode v.cap v.cqDmaAddr v.sqDmaAddr v.cqAddr v.sqAddr regs
  have same : before v regs .waitOn =
      { v.written regs with intms := regs.intms, intmc := regs.intmc } := by
    simp [before, above, store, halves_stored]
    exact ⟨rfl, rfl, rfl, rfl⟩
  rw [same]
  exact ⟨⟨queues.size, queues.asqs, queues.acqs, queues.reserved, queues.asq, queues.acq⟩,
    ⟨config.iosqes, config.iocqes, config.mps, config.mpsmin, config.en, config.css, config.ams,
      config.shn, config.reserved⟩⟩

theorem store_reset_en : (store v regs .reset).cc.getLsbD 0 = false := by simp [store]

theorem store_enable_en : (store v regs .enable).cc.getLsbD 0 = true := by simp [store]

theorem store_cc {p : InitPoint} (notReset : p ≠ .reset) (notEnable : p ≠ .enable) :
    (store v regs p).cc = regs.cc := by
  cases p with
  | reset => exact absurd rfl notReset
  | enable => exact absurd rfl notEnable
  | _ => rfl

end InitPoint

namespace ResetSystem

variable {v : InitValues} {regs : NvmeRegs} {first s s' : ResetSystem}

theorem look (csts : Dword) : csts &&& 0x01#32 = if csts.getLsbD 0 then 1#32 else 0#32 := by
  have bit : csts &&& 1#32 = (BitVec.ofBool (csts.getLsbD 0)).setWidth 32 :=
    BitVec.and_one_eq_setWidth_ofBool_getLsbD
  rw [bit]
  cases csts.getLsbD 0 <;> rfl

def advance (v : InitValues) (s : ResetSystem) : ResetSystem :=
  { s with regs := s.point.store v s.regs, point := s.point.next }

theorem line_cases (taken : s.line v = some s') :
    s' = s ∨ (s.point ≠ .finished ∧ (s.point = .waitOff → s.link.ack = false) ∧
      (s.point = .waitOn → s.link.ack = true) ∧ s' = s.advance v) := by
  cases here : s.point with
  | waitOff =>
      simp only [line, here, look, Option.some.injEq] at taken
      cases ready : s.csts.getLsbD 0 with
      | true =>
          rw [ready] at taken
          exact .inl taken.symm
      | false =>
          refine .inr ⟨nofun, fun _ => ready, nofun, ?_⟩
          rw [ready] at taken
          rw [← taken, ResetSystem.advance, here]
          rfl
  | waitOn =>
      simp only [line, here, look, Option.some.injEq] at taken
      cases ready : s.csts.getLsbD 0 with
      | true =>
          refine .inr ⟨nofun, nofun, fun _ => ready, ?_⟩
          rw [ready] at taken
          rw [← taken, ResetSystem.advance, here]
          rfl
      | false =>
          rw [ready] at taken
          exact .inl taken.symm
  | finished =>
      rw [line, here] at taken
      cases taken
  | _ =>
      refine .inr ⟨nofun, nofun, nofun, ?_⟩
      simp only [line, here, Option.some.injEq] at taken
      rw [← taken, ResetSystem.advance, here]

theorem line_taken (more : s.point ≠ .finished) (off : s.point = .waitOff → s.link.ack = false)
    (on : s.point = .waitOn → s.link.ack = true) : s.line v = some (s.advance v) := by
  cases here : s.point with
  | waitOff =>
      have ready : s.csts.getLsbD 0 = false := off here
      simp only [line, here, look, ready, ResetSystem.advance]
      rfl
  | waitOn =>
      have ready : s.csts.getLsbD 0 = true := on here
      simp only [line, here, look, ready, ResetSystem.advance]
      rfl
  | finished => exact absurd here more
  | _ => simp [line, here, ResetSystem.advance]

theorem follow_link {h : Handshake Bool} (asked : h.req = s.link.req) :
    (s.follow h).link = h := by
  have bit : (s.csts &&& ~~~1#32 ||| (BitVec.ofBool h.ack).setWidth 32).getLsbD 0 = h.ack := by
    cases h.ack <;> simp
  obtain ⟨req, acting, ack⟩ := h
  simp only [follow, link, Handshake.mk.injEq, true_and]
  exact ⟨asked.symm, bit⟩

theorem advance_link (notReset : s.point ≠ .reset) (notEnable : s.point ≠ .enable) :
    (s.advance v).link = s.link := by
  simp only [advance, link, InitPoint.store_cc v s.regs notReset notEnable]

theorem advance_registers (more : s.point ≠ .finished)
    (registers : s.regs = s.point.before v regs) :
    (s.advance v).regs = (s.advance v).point.before v regs := by
  simp only [advance, registers]
  exact (InitPoint.before_next v regs s.point more).symm

theorem step_registers (registers : s.regs = s.point.before v regs) {e : ResetEvent}
    (taken : s.step v e = some s') : s'.regs = s'.point.before v regs := by
  cases e with
  | line =>
      rcases line_cases taken with rfl | ⟨more, _, _, rfl⟩
      · exact registers
      · exact advance_registers more registers
  | controller r =>
      obtain ⟨h, _, rfl⟩ := Option.map_eq_some_iff.mp taken
      exact registers
  | status csts =>
      obtain ⟨_, rfl⟩ := Option.ite_none_right_eq_some.mp taken |>.imp_right Option.some.inj
      exact registers

def Standing (v : InitValues) (regs : NvmeRegs) (s : ResetSystem) : Prop :=
  match s.point with
  | .reset => s.link.Calm false
  | .waitOff => s.link.Heads false
  | .waitOn => s.link.Heads true ∧
      (s.acting = true → s.taken = InitPoint.before v regs .waitOn ∧ s.ctl = .empty)
  | .intms | .intmc | .finished => s.link.Rests true ∧
      s.taken = InitPoint.before v regs .waitOn ∧ s.ctl = .empty
  | _ => s.link.Rests false

structure ResetInv (v : InitValues) (regs : NvmeRegs) (s : ResetSystem) : Prop where
  registers : s.regs = s.point.before v regs
  standing : s.Standing v regs

namespace ResetInv

theorem advance (inv : ResetInv v regs s) (more : s.point ≠ .finished)
    (off : s.point = .waitOff → s.link.ack = false)
    (on : s.point = .waitOn → s.link.ack = true) : ResetInv v regs (s.advance v) := by
  constructor
  · exact advance_registers more inv.registers
  · have standing := inv.standing
    have next : (s.advance v).point = s.point.next := rfl
    have same := @advance_link v s
    cases here : s.point with
    | reset =>
        simp only [Standing, here, next, InitPoint.next] at standing ⊢
        have asked : (s.advance v).link = s.link.ask false := by
          simp only [ResetSystem.advance, link, here, InitPoint.store_reset_en, ask]
        rw [asked]
        exact standing.ask
    | waitOff =>
        simp only [Standing, here, next, InitPoint.next] at standing ⊢
        rw [same (by simp [here]) (by simp [here])]
        exact standing.rests (off here)
    | enable =>
        simp only [Standing, here, next, InitPoint.next] at standing ⊢
        have asked : (s.advance v).link = s.link.ask true := by
          simp only [ResetSystem.advance, link, here, InitPoint.store_enable_en, ask]
        rw [asked]
        refine ⟨standing.ask (by decide), fun acts => ?_⟩
        cases standing.acting.symm.trans acts
    | waitOn =>
        simp only [Standing, here, next, InitPoint.next] at standing ⊢
        rw [same (by simp [here]) (by simp [here])]
        have rests := standing.1.rests (on here)
        exact ⟨rests, standing.2 rests.acting⟩
    | finished => exact absurd here more
    | _ =>
        simp only [Standing, here, next, InitPoint.next] at standing ⊢
        rw [same (by simp [here]) (by simp [here])]
        exact standing

theorem follow (inv : ResetInv v regs s) {r : Response} {h : Handshake Bool}
    (taken : s.link.respond r = some h) : ResetInv v regs (s.follow h) := by
  have standing := inv.standing
  have there : (s.follow h).link = h := follow_link (respond_req taken)
  have point : (s.follow h).point = s.point := rfl
  constructor
  · exact inv.registers
  · cases here : s.point with
    | reset =>
        simp only [Standing, point, here] at standing ⊢
        rw [there]
        exact standing.respond taken
    | waitOff =>
        simp only [Standing, point, here] at standing ⊢
        rw [there]
        exact standing.respond taken
    | waitOn =>
        simp only [Standing, point, here] at standing ⊢
        rw [there]
        refine ⟨standing.1.respond taken, fun acts => ?_⟩
        have acts : h.acting = true := acts
        cases began : s.acting with
        | true => simpa [ResetSystem.follow, began] using standing.2 began
        | false =>
            have registers := inv.registers
            rw [here] at registers
            simp [ResetSystem.follow, began, acts, registers]
    | intms | intmc | finished =>
        simp only [Standing, here] at standing
        rw [standing.1.quiet r] at taken
        cases taken
    | _ =>
        simp only [Standing, here] at standing
        rw [standing.quiet r] at taken
        cases taken

theorem status (inv : ResetInv v regs s) {csts : Dword}
    (same : csts.getLsbD 0 = s.csts.getLsbD 0) : ResetInv v regs { s with csts := csts } := by
  have link : ({ s with csts := csts } : ResetSystem).link = s.link := by
    simp only [ResetSystem.link, same]
  constructor
  · exact inv.registers
  · have standing := inv.standing
    simp only [Standing, link] at standing ⊢
    exact standing

theorem step (inv : ResetInv v regs s) {e : ResetEvent} (taken : s.step v e = some s') :
    ResetInv v regs s' := by
  cases e with
  | line =>
      rcases line_cases taken with rfl | ⟨more, off, on, rfl⟩
      · exact inv
      · exact inv.advance more off on
  | controller r =>
      obtain ⟨h, answered, rfl⟩ := Option.map_eq_some_iff.mp taken
      exact inv.follow answered
  | status csts =>
      obtain ⟨same, rfl⟩ := Option.ite_none_right_eq_some.mp taken |>.imp_right Option.some.inj
      exact inv.status same

theorem handedOver (inv : ResetInv v regs s) : s.HandedOver v regs := by
  have standing := inv.standing
  constructor
  · intro inside
    cases here : s.point <;> simp only [Standing, here] at standing <;>
      first | exact standing | simp [here, InitPoint.programs] at inside
  · intro past
    have decoded := InitPoint.before_waitOn_decoded v regs
    cases here : s.point <;> simp only [Standing, here] at standing <;>
      first | exact ⟨standing.1, standing.2.1 ▸ decoded, standing.2.2⟩
            | simp [here, InitPoint.running] at past
  · intro done
    rw [inv.registers, done, InitPoint.before_finished]

end ResetInv

theorem responses {s : ResetSystem} {h : Handshake Bool} (rs : List Response)
    (ran : (responder Bool).run s.link rs = some h) :
    ∃ s', (machine v first).run s (rs.map .controller) = some s' ∧ s'.link = h ∧
      s'.point = s.point ∧ s'.regs = s.regs := by
  induction rs generalizing s with
  | nil => exact ⟨s, rfl, Option.some.inj ran, rfl, rfl⟩
  | cons r rest ih =>
      obtain ⟨middle, taken, remaining⟩ := Option.bind_eq_some_iff.mp ran
      have taken : s.link.respond r = some middle := taken
      have there : (s.follow middle).link = middle := follow_link (respond_req taken)
      have answered : (machine v first).step s (.controller r) = some (s.follow middle) := by
        simp only [machine, step, taken, Option.map_some]
      rw [← there] at remaining
      obtain ⟨s', ended, link, kept⟩ := ih remaining
      refine ⟨s', ?_, link, kept⟩
      rw [List.map_cons, Machine.run, answered]
      exact ended

/-- `admin_init` hands the driver's queues over to a controller that may take any time, exactly
when the controller is not about to become ready by an enabling that came before. -/
theorem handed_over_iff (v : InitValues) (regs taken : NvmeRegs) (csts : Dword) (acting : Bool)
    (ctl : IoController) :
    (∀ s, Reachable (machine v (start regs csts acting taken ctl)) anyEvent s →
        s.HandedOver v regs) ↔
      (start regs csts acting taken ctl).link.Calm false := by
  constructor
  · intro always
    rw [calm_iff]
    intro rs h ran shown
    obtain ⟨s, ended, link, point, _⟩ :=
      @responses v (start regs csts acting taken ctl) _ _ rs ran
    have begins : Reachable (machine v (start regs csts acting taken ctl)) anyEvent s :=
      (Reachable.start rfl).extendAny _ ended
    have here : s.point = .reset := point
    have ready : s.link.ack = false := by rw [link, shown]
    have cleared : s.line v = some (s.advance v) :=
      line_taken (by simp [here]) (by simp [here]) (by simp [here])
    have waits : (s.advance v).point = .waitOff := by
      simp only [ResetSystem.advance, here, InitPoint.next]
    have passed : (s.advance v).line v = some ((s.advance v).advance v) :=
      line_taken (by simp [waits]) (fun _ => ready) (by simp [waits])
    have reached : Reachable (machine v (start regs csts acting taken ctl)) anyEvent
        ((s.advance v).advance v) :=
      .next (e := .line) (.next (e := .line) begins trivial cleared) trivial passed
    have programs : ((s.advance v).advance v).point = .aqa := by
      simp only [ResetSystem.advance, here, InitPoint.next]
    have rests := (always _ reached).off (by rw [programs]; rfl)
    have acts : s.acting = false := rests.acting
    rw [← link]
    exact acts
  · intro calm s reached
    have inv : ResetInv v regs s := by
      refine reached.invariant (P := ResetInv v regs) ?_ ?_
      · rintro s rfl
        exact ⟨rfl, calm⟩
      · intro s e s' inv _ taken
        exact inv.step taken
    exact inv.handedOver

-- A controller that runs is calm; one that is still starting is not.
example : (⟨true, true, true⟩ : Handshake Bool).Calm false ∧
    ¬ (⟨true, true, false⟩ : Handshake Bool).Calm false := by decide

theorem goes_on (s : ResetSystem) (more : s.point ≠ .finished)
    (registers : s.regs = s.point.before v regs) :
    ∃ s', (machine v first).Leads anyEvent s s' ∧ s'.point = s.point.next ∧
      s'.regs = s'.point.before v regs := by
  obtain ⟨rs, h, ran, req, ack⟩ := answered s.link
  obtain ⟨s', ended, link, point, kept⟩ := @responses v first _ _ rs ran
  have shown : s'.link.ack = s.regs.cc.getLsbD 0 := by rw [link, ack]; rfl
  have off : s'.point = .waitOff → s'.link.ack = false := by
    intro waits
    have stored : InitPoint.before v regs .waitOff = InitPoint.store v regs .reset :=
      InitPoint.before_next v regs .reset nofun
    rw [shown, registers, point.symm.trans waits, stored]
    exact InitPoint.store_reset_en v _
  have on : s'.point = .waitOn → s'.link.ack = true := by
    intro waits
    have stored : InitPoint.before v regs .waitOn =
        InitPoint.store v (InitPoint.before v regs .enable) .enable :=
      InitPoint.before_next v regs .enable nofun
    rw [shown, registers, point.symm.trans waits, stored]
    exact InitPoint.store_enable_en v _
  have taken : (machine v first).step s' .line = some (s'.advance v) :=
    line_taken (by rwa [point]) off on
  have registers : s'.regs = s'.point.before v regs := by rw [kept, registers, point]
  refine ⟨s'.advance v, (Leads.run _ ended).trans (Leads.one trivial taken), ?_, ?_⟩
  · simp only [ResetSystem.advance, point]
  · exact advance_registers (by rwa [point]) registers

def LinesLeft (v : InitValues) (regs : NvmeRegs) (work : Nat) (s : ResetSystem) : Prop :=
  work + s.point.above.length = InitPoint.finished.above.length ∧ s.regs = s.point.before v regs

theorem above_le (p : InitPoint) : p.above.length ≤ InitPoint.finished.above.length := by
  cases p <;> decide

theorem linesLeft {taken : NvmeRegs} {csts : Dword} {acting : Bool} {ctl : IoController}
    (reached : Reachable (machine v (start regs csts acting taken ctl)) anyEvent s) :
    LinesLeft v regs (InitPoint.finished.above.length - s.point.above.length) s := by
  refine ⟨Nat.sub_add_cancel (above_le s.point), ?_⟩
  refine reached.invariant (P := fun s => s.regs = s.point.before v regs) ?_ ?_
  · rintro s rfl
    rfl
  · intro s e s' before _ taken
    exact step_registers before taken

theorem LinesLeft.progress {work : Nat} {s : ResetSystem} (left : LinesLeft v regs work s) :
    s.point = .finished ∨ ∃ less s', less < work ∧ LinesLeft v regs less s' ∧
      (machine v first).Leads anyEvent s s' := by
  obtain ⟨counted, registers⟩ := left
  by_cases done : s.point = .finished
  · exact .inl done
  · right
    obtain ⟨s', path, point, registers'⟩ := @goes_on v regs first s done registers
    have longer : s'.point.above.length = s.point.above.length + 1 := by
      rw [point, InitPoint.above_next s.point done, List.length_append, List.length_singleton]
    have most := above_le s'.point
    exact ⟨work - 1, s', by omega, ⟨by omega, registers'⟩, path⟩

/-- Neither wait loop keeps `admin_init` for good, whatever the reset found the controller at. -/
theorem admin_init_finishes (v : InitValues) (regs taken : NvmeRegs) (csts : Dword)
    (acting : Bool) (ctl : IoController) (s : ResetSystem)
    (reached : Reachable (machine v (start regs csts acting taken ctl)) anyEvent s) :
    ∃ s', (machine v (start regs csts acting taken ctl)).Leads anyEvent s s' ∧
      s'.point = .finished ∧ s'.regs = v.written regs := by
  obtain ⟨last, rest, done, left, path⟩ := leads_done (LinesLeft v regs)
    (fun last => last.point = .finished) (fun _ _ left => left.progress) (linesLeft reached)
  refine ⟨last, path, done, ?_⟩
  rw [left.2, done, InitPoint.before_finished]

theorem admin_init_finishes_waiting :
    ∃ v first s s', s.point = .waitOff ∧ s.link.ack = true ∧
      (machine v first).Leads anyEvent s s' ∧ s'.point = .finished := by
  let v : InitValues := ⟨1#64, 0#64, 0#64, fun _ => Cpl.zero, fun _ => clearCmd⟩
  let regs : NvmeRegs := ⟨0#32, 0#32, 1#32, 0#32, fun _ => 0#32, fun _ => 0#32⟩
  let first := start regs 1#32 true regs .empty
  have cleared : (machine v first).step first .line = some (first.advance v) := rfl
  obtain ⟨s', path, done, _⟩ := admin_init_finishes v regs regs 1#32 true .empty _
    (.next (e := .line) (.start rfl) trivial cleared)
  have waits : (first.advance v).link.ack = true := by decide
  exact ⟨v, first, _, s', rfl, waits, path, done⟩

end ResetSystem

end BafsNvme
