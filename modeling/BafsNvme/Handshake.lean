import BafsNvme.Execution
import Mathlib.Tactic

/-! A request and an acknowledge between two parties, each written by one of them. The responder
takes its time: it notices a request only when it has settled the last one, and it acts on it
for a while before it shows that it has settled it. -/

namespace BafsNvme

/-- The request, the request that the responder acts on, and the acknowledge. -/
structure Handshake (α : Type) where
  req : α
  acting : α
  ack : α

namespace Handshake

inductive Response
  | notice
  | settle
  deriving DecidableEq

variable {α : Type}

def ask (h : Handshake α) (b : α) : Handshake α := { h with req := b }

def respond [DecidableEq α] (h : Handshake α) : Response → Option (Handshake α)
  | .notice => if h.acting = h.ack ∧ h.req ≠ h.acting then some { h with acting := h.req } else none
  | .settle => if h.acting ≠ h.ack then some { h with ack := h.acting } else none

def responder (α : Type) [DecidableEq α] : Machine (Handshake α) Response :=
  ⟨fun _ => True, respond⟩

structure Rests (b : α) (h : Handshake α) : Prop where
  req : h.req = b
  acting : h.acting = b
  ack : h.ack = b

/-- `b` is asked for, and an acknowledge of it is one that the responder still acts on. -/
structure Heads (b : α) (h : Handshake α) : Prop where
  req : h.req = b
  honest : h.ack = b → h.acting = b

/-- The responder will not show `b` while it acts on something else, as long as nothing more
is asked of it. -/
structure Calm (b : α) (h : Handshake α) : Prop where
  shown : h.ack = b → h.req = b ∧ h.acting = b
  hidden : h.ack ≠ b → h.req ≠ b → h.acting ≠ b

instance [DecidableEq α] (b : α) (h : Handshake α) : Decidable (h.Calm b) :=
  decidable_of_iff ((h.ack = b → h.req = b ∧ h.acting = b) ∧
      (h.ack ≠ b → h.req ≠ b → h.acting ≠ b))
    ⟨fun both => ⟨both.1, both.2⟩, fun calm => ⟨calm.shown, calm.hidden⟩⟩

variable {b c : α} {h h' : Handshake α} {r : Response}

theorem Rests.ask (rests : h.Rests b) (other : c ≠ b) : (h.ask c).Heads c where
  req := rfl
  honest shown := absurd (shown.symm.trans rests.ack) other

theorem Heads.rests (heads : h.Heads b) (shown : h.ack = b) : h.Rests b :=
  ⟨heads.req, heads.honest shown, shown⟩

theorem Calm.honest (calm : h.Calm b) (shown : h.ack = b) : h.acting = b := (calm.shown shown).2

theorem Calm.ask (calm : h.Calm b) : (h.ask b).Heads b := ⟨rfl, calm.honest⟩

variable [DecidableEq α]

theorem respond_cases (taken : h.respond r = some h') :
    (r = .notice ∧ h.acting = h.ack ∧ h.req ≠ h.acting ∧ h' = { h with acting := h.req }) ∨
      (r = .settle ∧ h.acting ≠ h.ack ∧ h' = { h with ack := h.acting }) := by
  cases r with
  | notice =>
      rw [respond, Option.ite_none_right_eq_some] at taken
      exact .inl ⟨rfl, taken.1.1, taken.1.2, (Option.some.inj taken.2).symm⟩
  | settle =>
      rw [respond, Option.ite_none_right_eq_some] at taken
      exact .inr ⟨rfl, taken.1, (Option.some.inj taken.2).symm⟩

theorem respond_req (taken : h.respond r = some h') : h'.req = h.req := by
  rcases respond_cases taken with ⟨_, _, _, rfl⟩ | ⟨_, _, rfl⟩ <;> rfl

theorem Rests.quiet (rests : h.Rests b) (r : Response) : h.respond r = none := by
  cases r with
  | notice => simp [respond, rests.req, rests.acting]
  | settle => simp [respond, rests.acting, rests.ack]

theorem Heads.respond (heads : h.Heads b) (taken : h.respond r = some h') : h'.Heads b := by
  rcases respond_cases taken with ⟨_, same, _, rfl⟩ | ⟨_, _, rfl⟩
  · exact ⟨heads.req, fun _ => heads.req⟩
  · exact ⟨heads.req, fun shown => shown⟩

theorem Calm.respond (calm : h.Calm b) (taken : h.respond r = some h') : h'.Calm b := by
  rcases respond_cases taken with ⟨_, same, other, rfl⟩ | ⟨_, other, rfl⟩
  · constructor
    · intro shown
      obtain ⟨asked, acted⟩ := calm.shown shown
      exact absurd (asked.trans acted.symm) other
    · intro _ asked
      exact asked
  · constructor
    · intro acted
      have hidden : h.ack ≠ b := fun shown => other (acted.trans shown.symm)
      exact ⟨by_contra fun asked => calm.hidden hidden asked acted, acted⟩
    · intro acted _
      exact acted

/-- `Calm` is exactly what a requester needs before it asks for `b`. -/
theorem calm_iff : h.Calm b ↔
    ∀ responses h', (responder α).run h responses = some h' → h'.ack = b → h'.acting = b := by
  constructor
  · intro calm responses
    induction responses generalizing h with
    | nil =>
        intro h' ended
        obtain rfl := Option.some.inj ended
        exact calm.honest
    | cons r rest ih =>
        intro h' ended
        obtain ⟨middle, taken, remaining⟩ := Option.bind_eq_some_iff.mp ended
        exact ih (calm.respond taken) h' remaining
  · intro always
    have honest := always [] h rfl
    constructor
    · intro shown
      refine ⟨?_, honest shown⟩
      by_contra unasked
      -- `b` stands there while the responder has noticed another request.
      have noticed : (responder α).run h [.notice] = some { h with acting := h.req } := by
        simp [Machine.run, responder, Handshake.respond, honest shown, shown, unasked]
      exact unasked (always _ _ noticed shown)
    · intro hidden unasked acted
      have lags : b ≠ h.ack := fun same => hidden same.symm
      have noticed : (responder α).run h [.settle, .notice] =
          some { h with acting := h.req, ack := b } := by
        simp [Machine.run, responder, Handshake.respond, acted, lags, unasked]
      exact unasked (always _ _ noticed rfl)

theorem answered (h : Handshake α) :
    ∃ responses h', (responder α).run h responses = some h' ∧ h'.req = h.req ∧ h'.ack = h.req := by
  have fromIdle (h : Handshake α) (idle : h.acting = h.ack) :
      ∃ responses h', (responder α).run h responses = some h' ∧
        h'.req = h.req ∧ h'.ack = h.req := by
    by_cases shown : h.req = h.ack
    · exact ⟨[], h, rfl, rfl, shown.symm⟩
    · refine ⟨[.notice, .settle], { h with acting := h.req, ack := h.req }, ?_, rfl, rfl⟩
      simp [Machine.run, responder, respond, idle, shown]
  by_cases idle : h.acting = h.ack
  · exact fromIdle h idle
  · obtain ⟨responses, h', ended, req, ack⟩ := fromIdle { h with ack := h.acting } rfl
    refine ⟨.settle :: responses, h', ?_, req, ack⟩
    have taken : (responder α).step h .settle = some { h with ack := h.acting } := if_pos idle
    rw [Machine.run, taken]
    exact ended

end Handshake

end BafsNvme
