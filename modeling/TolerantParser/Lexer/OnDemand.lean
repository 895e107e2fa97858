import TolerantParser.Lexer.Basic

/-!
A lexer that gives one token at each call. It scans on only when all tokens of the strides before have
been called for, and behind the end of its text it gives the end of the file at every call.

Embeds `Lexer.next_token` with its queue and the end that it remembers.
-/

namespace TolerantParser

/-- How far a lexer has scanned: into its text, or to the end of it, which gave the last token. -/
inductive Progress where
  | within (scan : Scan)
  | past (last : Token)
  deriving Repr

/-- A text that is cut into tokens on demand. `pending` are the tokens cut and not yet called for. -/
structure Lexer where
  dialect : Dialect
  lines : LineIndex
  pending : List Token
  progress : Progress
  deriving Repr

/-- A bound on the strides that are left. -/
def Progress.left : Progress → Nat
  | .within scan => scan.rest.length + 1
  | .past _ => 0

/-- The stride that comes to the end of the text gives the end of the file, whatever else it gives. -/
theorem Scan.step_ne_nil {s : Scan} {d : Dialect} {lines : LineIndex} {tokens : List Token}
    (stepped : s.step d lines = (tokens, none)) : tokens ≠ [] := by
  unfold step at stepped
  dsimp only at stepped
  split at stepped
  · obtain ⟨rfl, -⟩ := Prod.mk.inj stepped
    simp [finish]
  · repeat' split at stepped
    all_goals cases (Prod.mk.inj stepped).2

namespace Lexer

def ofText (d : Dialect) (text : String) : Lexer :=
  { dialect := d, lines := .ofChars text.toList, pending := [],
    progress := .within (.start text.toList) }

/-- Takes a stride, if there is text left. -/
def refill (l : Lexer) : Lexer :=
  match l.progress with
  | .past _ => l
  | .within scan =>
    match stepped : scan.step l.dialect l.lines with
    | (tokens, some next) => { l with pending := l.pending ++ tokens, progress := .within next }
    | (tokens, none) =>
      { l with
        pending := l.pending ++ tokens
        progress := .past (tokens.getLast (Scan.step_ne_nil stepped)) }

theorem left_refill {l : Lexer} {scan : Scan} (within : l.progress = .within scan) :
    l.refill.progress.left < l.progress.left := by
  unfold refill
  split
  next past => cases within.symm.trans past
  next scan' within' =>
    rw [within']
    split
    next stepped => exact Nat.succ_lt_succ (Scan.step_shorter stepped)
    next => exact Nat.succ_pos _

/-- The next token, and the lexer behind it. -/
def next (l : Lexer) : Token × Lexer :=
  match l.pending with
  | token :: pending => (token, { l with pending })
  | [] =>
    match _within : l.progress with
    | .past last => (last, l)
    | .within _ => l.refill.next
  termination_by l.progress.left
  decreasing_by exact left_refill _within

/-- The token that a call gives. Calls are numbered from zero. -/
def answer (l : Lexer) : Nat → Token
  | 0 => l.next.1
  | call + 1 => l.next.2.answer call

end Lexer

end TolerantParser
