import TolerantParser.Token.Basic

/-!
Altered token supplies, to try the parser on sequences that no text gives: one kind of token may be
left out, and one empty token put in.
-/

namespace TolerantParser

/-- One more token of a kind. It stands in front of the `place`-th token, or of the end of the file
if that comes first or no place is given. -/
structure Insertion where
  kind : TokenKind
  place : Option Nat
  deriving DecidableEq, Repr

/-- An empty token at the start of the token it precedes. -/
def Token.emptyBefore (token : Token) (kind : TokenKind) : Token :=
  { kind, text := "", lead := "", range := ⟨token.range.start, token.range.start, by omega⟩,
    first := token.first, last := token.first, startsLine := false, synthetic := false }

/-- Puts a token in. -/
def Insertion.apply (insertion : Insertion) (place : Option Nat) : List Token → List Token
  | [] => []
  | token :: rest =>
    if token.kind == .endOfFile || place == some 0 then
      token.emptyBefore insertion.kind :: token :: rest
    else token :: insertion.apply (place.map (· - 1)) rest

/-- Tokens without those of a kind that is left out, and with one put in. -/
def alterSupply (dropped : Option TokenKind) (insertion : Option Insertion) (tokens : List Token) :
    List Token :=
  let kept := match dropped with
    | some kind => tokens.filter (·.kind != kind)
    | none => tokens
  match insertion with
  | some insertion => insertion.apply insertion.place kept
  | none => kept

end TolerantParser
