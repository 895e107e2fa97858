import TolerantParser.Proofs.Document.Spacing
import TolerantParser.Proofs.Lexer.LastLine

/-!
A missing end of the last line makes no difference: with a line feed put behind it, a text has the same tokens but for
the text of the last line end, and its document has the same sketch and the same errors at the same tokens.
-/

namespace TolerantParser

variable {tokens others : List Token}

/-- Tokens with the same words match, since only a line end may have another text. -/
theorem SameWords.matches (same : SameWords tokens others) : List.Forall₂ Token.Matches tokens others := by
  obtain ⟨front, ending, ending', back, words, words', -⟩ := same
  let Alike (word other : TokenKind × String) : Prop := word.1 = other.1 ∧ (word.1 ≠ .newline → word.2 = other.2)
  have itself : ∀ words : List (TokenKind × String), List.Forall₂ Alike words words := fun words =>
    List.forall₂_same.2 fun word _ => ⟨rfl, fun _ => rfl⟩
  have alike : List.Forall₂ Alike (tokens.map Token.word) (others.map Token.word) := by
    rw [words, words']
    exact List.rel_append (itself front) (.cons ⟨rfl, absurd rfl⟩ (itself back))
  rwa [List.forall₂_map_left_iff, List.forall₂_map_right_iff] at alike

namespace Document

/-- A missing line end at the end of a text makes no difference. With a line feed behind it the text has the same tokens
but for the text of the last line end, and the documents have the same nodes over the same tokens, and the same errors
at the same tokens. -/
theorem ofText?_lineFeed (limits : Limits) (d : Dialect) (options : ParseOptions) {text : String}
    (lacks : LacksLineEnd d text) :
    SameWords (lex d text) (lex d (text ++ "\n")) ∧
      ∃ document document', ofText? limits d options text = .ok document ∧
        ofText? limits d options (text ++ "\n") = .ok document' ∧
        document.sketch = document'.sketch ∧ document.findings = document'.findings := by
  have same := lacks.sameWords
  obtain ⟨run, parses⟩ := ofTokens?_runs limits options (fun token member => (genuine_lex d text token member).defined)
    (endsOnce_lex d text)
  obtain ⟨run', parses'⟩ := ofTokens?_runs limits options
    (fun token member => (genuine_lex d (text ++ "\n") token member).defined) (endsOnce_lex d (text ++ "\n"))
  exact ⟨same, run.document, run'.document, parses, parses',
    run.same_of_matches run' (significantTokens_matches same.matches)⟩

/-- A block, a bracket and a literal that are all left open. -/
theorem ofText?_lineFeed_unclosed : LacksLineEnd .v26 "if x:\n  f(a, 'b # c" ∧
    SameWords (lex .v26 "if x:\n  f(a, 'b # c") (lex .v26 ("if x:\n  f(a, 'b # c" ++ "\n")) ∧
      ∃ document document', ofText? .usual .v26 .default "if x:\n  f(a, 'b # c" = .ok document ∧
        ofText? .usual .v26 .default ("if x:\n  f(a, 'b # c" ++ "\n") = .ok document' ∧
        document.sketch = document'.sketch ∧ document.findings = document'.findings := by
  have filled : (lex .v26 "if x:\n  f(a, 'b # c").any fun token => token.kind.isInline &&
      ("if x:\n  f(a, 'b # c".toList.drop token.range.stop).all (!isLineEndChar ·) := by
    rw [lex_eq_leaps .v26 rfl]
    decide
  have closed : ∀ token ∈ lex .v26 "if x:\n  f(a, 'b # c", isUnclosedTriple token.kind token.text = false := by
    rw [lex_eq_leaps .v26 rfl]
    decide
  obtain ⟨token, member, here⟩ := List.any_eq_true.1 filled
  obtain ⟨within, inline⟩ := Bool.and_eq_true_iff.1 here
  have lacks : LacksLineEnd .v26 "if x:\n  f(a, 'b # c" :=
    ⟨by decide, ⟨token, member, within, fun c behind => by simpa using List.all_eq_true.1 inline c behind⟩, closed⟩
  exact ⟨lacks, ofText?_lineFeed .usual .v26 .default lacks⟩

end Document

end TolerantParser
