import TolerantParser.Lexeme.Character
import TolerantParser.Lexeme.Number
import TolerantParser.Lexeme.StringLiteral

/-!
One significant token at the front of a text: a string literal, a word, a number, an operator, or
else a single character that is an error.

Embeds `_lex_significant`.
-/

namespace TolerantParser

/-- The longest operator at the front, and its length. None is longer than three characters. -/
def longestOperator? (d : Dialect) (text : List Char) : Option (TokenKind × Nat) :=
  [3, 2, 1].findSome? fun length =>
    let spelling := text.take length
    if spelling.length == length then
      (d.operatorKind? (String.ofList spelling)).map fun kind => (kind, length)
    else none

/-- The kind and length of the significant token at the front of a text that is not empty. -/
def scanLexeme (d : Dialect) (text : List Char) : TokenKind × Nat :=
  match stringMarkLength? d text with
  | some marks => scanString marks text
  | none =>
    if text.head?.any (startsName d.features) then
      let length := nameLength d.features text
      (d.wordKind (String.ofList (text.take length)), length)
    else if startsNumber text then scanNumber d.features text
    else (longestOperator? d text).getD (.error, 1)

theorem longestOperator?_pos {d : Dialect} {text : List Char} {kind : TokenKind} {length : Nat}
    (found : longestOperator? d text = some (kind, length)) : 0 < length := by
  obtain ⟨tried, listed, hit⟩ := List.exists_of_findSome?_eq_some found
  dsimp only at hit
  split at hit
  · obtain ⟨_, _, same⟩ := Option.map_eq_some_iff.1 hit
    simp at listed same
    omega
  · simp at hit

/-- Every significant token takes at least one character. -/
theorem scanLexeme_pos (d : Dialect) {text : List Char} (nonempty : text ≠ []) :
    0 < (scanLexeme d text).2 := by
  unfold scanLexeme
  split
  · exact scanString_pos nonempty
  · split
    · exact nameLength_pos _ _
    · split
      next starts => exact scanNumber_pos starts
      · cases found : longestOperator? d text with
        | none => simp
        | some pair =>
          obtain ⟨kind, length⟩ := pair
          exact longestOperator?_pos found

end TolerantParser
