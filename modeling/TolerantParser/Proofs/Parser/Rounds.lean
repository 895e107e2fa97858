import TolerantParser.Proofs.Parser.Parallel

/-!
Loops from the middle. A loop that has gone through some rounds goes on as one that begins where they have led, so
that what comes of the second tells what comes of the first. The bounds of the two loops need not agree: what a loop
comes to does not depend on how many rounds it might have made.
-/

namespace TolerantParser.Parser

variable {α β : Type} {body : α → ParseM (ForInStep α)} {p q r : Parser} {a b value : α}

/-- Rounds of a loop, none of which is the last. -/
inductive Rounds (body : α → ParseM (ForInStep α)) : α → Parser → α → Parser → Prop
  | refl (a : α) (p : Parser) : Rounds body a p a p
  | step {a b c : α} {p q r : Parser} (first : body a p = .ok (.yield b) q) (rest : Rounds body b q c r) :
      Rounds body a p c r

/-- A loop that comes to something does so from where its rounds have led. -/
theorem Rounds.onward (rounds : Rounds body a p b q) {bound : Nat} (runs : iterate body bound a p = .ok value r) :
    ∃ bound, iterate body bound b q = .ok value r := by
  induction rounds generalizing bound with
  | refl => exact ⟨bound, runs⟩
  | step first _ ih =>
    cases bound with
    | zero => cases runs
    | succ bound =>
      rw [iterate, TokenStream.bind_ok first] at runs
      exact ih runs

/-- What holds where a round begins, and is kept by every round that is not the last, holds where rounds have led. -/
theorem Rounds.induct (inv : α → Parser → Prop) (rounds : Rounds body a p b q) (start : inv a p)
    (keeps : ∀ {a b p q}, inv a p → body a p = .ok (.yield b) q → inv b q) : inv b q := by
  induction rounds with
  | refl => exact start
  | step first _ ih => exact ih (keeps start first)

theorem Rounds.retained (rounds : Rounds body a p b q) (retains : ∀ value, Retains (body value)) : Retained p q :=
  rounds.induct (fun _ q => Retained p q) (.refl p) fun {a _ q _} before first => by
    have later := retains a q
    rw [first] at later
    exact before.trans later

/-- Two rounds come to the same, but for the values: both are the last, with values related by `ends`, or both are not,
with values related by `goes`. Nothing is claimed where both fail. -/
inductive Concur (ends : α → β → Prop) (goes : α → β → Parser → Prop) :
    EStateM.Result Fault Parser (ForInStep α) → EStateM.Result Fault Parser (ForInStep β) → Prop
  | done {a : α} {b : β} (p : Parser) : ends a b → Concur ends goes (.ok (.done a) p) (.ok (.done b) p)
  | yield {a : α} {b : β} (p : Parser) : goes a b p → Concur ends goes (.ok (.yield a) p) (.ok (.yield b) p)
  | error {fault fault' : Fault} {p q : Parser} : Concur ends goes (.error fault p) (.error fault' q)

/-- Loops whose rounds come to the same come to the same, if their first rounds do, wherever these begin. -/
theorem iterate_concur {body' : β → ParseM (ForInStep β)} {ends : α → β → Prop} {goes : α → β → Parser → Prop}
    (step : ∀ {a b p}, goes a b p → Concur ends goes (body a p) (body' b p)) {bound bound' : Nat} {p' r' : Parser}
    {b value' : β} (first : Concur ends goes (body a p) (body' b p')) (runs : iterate body bound a p = .ok value r)
    (runs' : iterate body' bound' b p' = .ok value' r') : ends value value' ∧ r = r' := by
  induction bound generalizing bound' a b p p' with
  | zero => cases runs
  | succ bound ih =>
    cases bound' with
    | zero => cases runs'
    | succ bound' =>
      rw [iterate] at runs runs'
      obtain ⟨outcome, s, one, runs⟩ := TokenStream.bind_eq_ok runs
      obtain ⟨outcome', t, other, runs'⟩ := TokenStream.bind_eq_ok runs'
      rw [one, other] at first
      cases first with
      | done _ ended =>
        cases runs
        cases runs'
        exact ⟨ended, rfl⟩
      | yield _ onward => exact ih (step onward) runs runs'

end TolerantParser.Parser
