import TolerantParser.Proofs.Lexer.Leaps
import TolerantParser.Proofs.Lexer.Standing

/-!
Brackets and layout. A scan counts the open brackets as its tokens do, and none is open where a logical line begins
(`Unbracketed`). So a line end that is in the text, and the layout of a line, are given outside of all brackets. Only
what the end of the text closes may still have brackets open around it: the line that waits for its end, and the
blocks.
-/

namespace TolerantParser

variable {d : Dialect} {lines : LineIndex} {tokens before after : List Token} {token : Token} {s : Scan}

/-- How many brackets are open behind tokens, with so many open in front of them. A closing bracket that closes none is
of no account. -/
def openBracketsFrom (depth : Nat) (tokens : List Token) : Nat :=
  tokens.foldl (fun depth token =>
    if token.kind.isOpening then depth + 1 else if token.kind.isClosing then depth - 1 else depth) depth

/-- How many brackets are open behind the tokens that a text begins with. -/
def openBrackets (tokens : List Token) : Nat := openBracketsFrom 0 tokens

/-- Tokens that lead from one depth of brackets to another, with no layout and no line end in brackets. -/
inductive Unbracketed : Nat → List Token → Nat → Prop
  | nil (depth : Nat) : Unbracketed depth [] depth
  | cons {depth last : Nat} {token : Token} {tokens : List Token} :
      (token.kind.isLayout ∨ token.kind = .newline → depth = 0) →
      Unbracketed (Scan.depthAfter depth token.kind) tokens last → Unbracketed depth (token :: tokens) last

theorem depthAfter_plain {kind : TokenKind} (plain : kind.isLayout ∨ kind = .newline ∨ kind = .comment) (depth : Nat) :
    Scan.depthAfter depth kind = depth := by
  cases kind <;> first | rfl | simp [TokenKind.isLayout] at plain

namespace Unbracketed

variable {depth middle last : Nat}

theorem single (outside : token.kind.isLayout ∨ token.kind = .newline → depth = 0) :
    Unbracketed depth [token] (Scan.depthAfter depth token.kind) :=
  .cons outside (.nil _)

theorem append {more : List Token} (first : Unbracketed depth tokens middle) (rest : Unbracketed middle more last) :
    Unbracketed depth (tokens ++ more) last := by
  induction first with
  | nil => exact rest
  | cons outside _ ih => exact .cons outside (ih rest)

/-- Outside of all brackets there may be layout. -/
theorem layout (all : ∀ token ∈ tokens, token.kind.isLayout) : Unbracketed 0 tokens 0 := by
  induction tokens with
  | nil => exact .nil 0
  | cons token tokens ih =>
    obtain ⟨here, others⟩ := List.forall_mem_cons.1 all
    refine .cons (fun _ => rfl) ?_
    rw [depthAfter_plain (.inl here)]
    exact ih others

/-- At each token the depth is that of the tokens before it. -/
theorem openBrackets_eq (run : Unbracketed depth (before ++ token :: after) last)
    (breaks : token.kind.isLayout ∨ token.kind = .newline) : openBracketsFrom depth before = 0 := by
  induction before generalizing depth with
  | nil =>
    cases run with
    | cons outside _ => exact outside breaks
  | cons first before ih =>
    cases run with
    | cons _ rest => exact ih rest

end Unbracketed

namespace Scan

theorem unbracketed_layout (ready : s.atLineStart → s.depth = 0) (blanks : List Char) :
    Unbracketed s.depth (s.layout lines blanks).1 (s.layout lines blanks).2.depth := by
  rw [depth_layout]
  cases here : s.atLineStart with
  | true =>
    rw [ready here]
    exact .layout fun token member => (mem_layout member).1
  | false =>
    rw [layout, if_neg (by simp [here])]
    exact .nil s.depth

/-- A stride counts the brackets as its tokens do, and no bracket is open where it comes to a new line. -/
theorem Stride.unbracketed {next : Scan} (stride : Stride d lines s tokens (some next))
    (ready : s.atLineStart → s.depth = 0) :
    Unbracketed s.depth tokens next.depth ∧ (next.atLineStart → next.depth = 0) := by
  cases stride with
  | comment => exact ⟨.single (by simp [cut, TokenKind.isLayout]), ready⟩
  | passed => exact ⟨.nil s.depth, ready⟩
  | newline _ _ _ _ outside => exact ⟨.single fun _ => outside, fun _ => outside⟩
  | @joined blanks =>
    refine ⟨unbracketed_layout ready blanks, fun here => ?_⟩
    cases (s.inLine_layout lines blanks).symm.trans here
  | @lexeme blanks =>
    have word := (isLexeme_scanLexeme (d := d) (s.layout lines blanks).2.rest).1
    refine ⟨(unbracketed_layout ready blanks).append (.single fun breaks => ?_), fun here => ?_⟩
    · -- a lexeme is neither layout nor a line end
      have kind : ((s.layout lines blanks).2.significant d lines).1.kind.isInline := word
      rcases breaks with layout | line
      · rw [TokenKind.plain_of_isInline kind] at layout
        cases layout
      · rw [line] at kind
        cases kind
    · cases (s.inLine_layout lines blanks).symm.trans here

/-- A run is outside of brackets wherever it gives layout or a line end, up to what the end of the text closes. -/
theorem Strides.unbracketed (strides : Strides d lines s tokens) (ready : s.atLineStart → s.depth = 0) :
    ∃ body last depth, tokens = body ++ finish last lines ∧ Unbracketed s.depth body depth := by
  induction strides with
  | @last s _ stride =>
    cases stride with
    | ends => exact ⟨[], _, s.depth, rfl, .nil _⟩
  | step stride _ ih =>
    obtain ⟨here, ready⟩ := stride.unbracketed ready
    obtain ⟨body, last, depth, rfl, later⟩ := ih ready
    exact ⟨_, last, depth, (List.append_assoc ..).symm, here.append later⟩

end Scan

/-- There is no layout inside of brackets. A line end that is in the text, the beginning of a block, and the end of a
block with more of the text behind it than ends of blocks and comments, are given where no bracket is open. -/
theorem lex_unbracketed {d : Dialect} {text : String} {before after : List Token} {token : Token}
    (split : lex d text = before ++ token :: after) :
    (token.kind = .newline → token.text ≠ "" → openBrackets before = 0) ∧
    (token.kind = .indent → openBrackets before = 0) ∧
    (token.kind = .dedent →
      (∃ other ∈ after, other.kind ≠ .dedent ∧ other.kind ≠ .comment ∧ other.kind ≠ .endOfFile) →
      openBrackets before = 0) := by
  obtain ⟨body, last, depth, whole, run⟩ := (lex_strides d text).unbracketed fun _ => rfl
  rcases Scan.split_append (whole.symm.trans split) with ⟨more, rfl⟩ | ⟨front, -, closing⟩
  · have outside (breaks : token.kind.isLayout ∨ token.kind = .newline) : openBrackets before = 0 :=
      run.openBrackets_eq breaks
    exact ⟨fun line _ => outside (.inr line), fun opens => outside (.inl (by simp [opens, TokenKind.isLayout])),
      fun closes _ => outside (.inl (by simp [closes, TokenKind.isLayout]))⟩
  · obtain ⟨goesOn, bare, alone⟩ := Scan.split_finish closing
    refine ⟨fun line filled => absurd (bare line).2.2 filled, fun opens => absurd opens goesOn, ?_⟩
    rintro closes ⟨other, member, notDedent, -, more⟩
    exact ((alone closes other member).elim notDedent more).elim

/-- A block ends behind brackets that have been closed. -/
theorem lex_unbracketed_block : ∃ before token after, lex .v26 "if (\na):\n b\nc\n" = before ++ token :: after ∧
    token.kind = .dedent ∧
    (∃ other ∈ after, other.kind ≠ .dedent ∧ other.kind ≠ .comment ∧ other.kind ≠ .endOfFile) ∧
    openBrackets before = 0 := by
  have kinds : (lex .v26 "if (\na):\n b\nc\n").map (·.kind) =
      [.kwIf, .leftParen, .name, .rightParen, .colon, .newline, .indent, .name, .newline] ++
        .dedent :: [.name, .newline, .endOfFile] := by
    rw [lex_eq_leaps .v26 rfl]
    decide
  obtain ⟨before, rest, split, -, behind⟩ := List.map_eq_append_iff.1 kinds
  obtain ⟨token, after, rfl, closes, later⟩ := List.map_eq_cons_iff.1 behind
  obtain ⟨name, last, rfl, named, -⟩ := List.map_eq_cons_iff.1 later
  have more : ∃ other ∈ name :: last, other.kind ≠ .dedent ∧ other.kind ≠ .comment ∧ other.kind ≠ .endOfFile :=
    ⟨name, List.mem_cons_self, by simp [named]⟩
  exact ⟨before, token, _, split, closes, more, (lex_unbracketed split).2.2 closes more⟩

end TolerantParser
