import Mathlib.Data.List.Forall2
import TolerantParser.Proofs.Lexeme.Respelled
import TolerantParser.Proofs.Lexer.Standing

/-!
The tokens of a text whose line ends are written in another way. Two scans over the two texts go on side by side:
whatever one of them takes, the other one takes too, with its line ends written in the other way (`Alongside`).
So the tokens are of the same kinds, stand at the same lines and columns, and are the same pieces of text.
-/

namespace TolerantParser

variable {d : Dialect} {ending : LineEnding} {text : List Char}

/-- The same token with its line ends written in another way. -/
structure Token.RespelledAs (ending : LineEnding) (token other : Token) : Prop where
  kind : other.kind = token.kind
  text : other.text.toList = ending.respell token.text.toList
  lead : other.lead.toList = ending.respell token.lead.toList
  first : other.first = token.first
  last : other.last = token.last
  flags : other.flags = token.flags

namespace Scan

variable {s t next : Scan}

/-- A scan over a text and one over the text with other line ends have come equally far. -/
structure Alongside (ending : LineEnding) (text : List Char) (s t : Scan) : Prop where
  split : ∃ before, text = before ++ s.rest ∧ s.offset = before.length ∧ t.offset = (ending.respell before).length
  rest : t.rest = ending.respell s.rest
  gap : t.gap = ending.respell s.gap
  columns : t.columns = s.columns
  depth : t.depth = s.depth
  atLineStart : t.atLineStart = s.atLineStart
  inStatement : t.inStatement = s.inStatement
  lastLine : t.lastLine = s.lastLine

theorem alongside_start (ending : LineEnding) (text : List Char) :
    Alongside ending text (.start text) (.start (ending.respell text)) :=
  ⟨⟨[], rfl, rfl, rfl⟩, rfl, rfl, rfl, rfl, rfl, rfl, rfl⟩

namespace Alongside

variable (along : Alongside ending text s t)
include along

theorem plain (single : '\r' ∉ text) : '\r' ∉ s.rest := by
  obtain ⟨before, split, -⟩ := along.split
  exact fun listed => single (split ▸ List.mem_append_right _ listed)

/-- What the other scan takes is what the scan takes. -/
theorem taken (count : Nat) : t.rest.take (ending.respell (s.rest.take count)).length =
    ending.respell (s.rest.take count) := by
  rw [along.rest, LineEnding.respell_length_take]

theorem dropped (count : Nat) : t.rest.drop (ending.respell (s.rest.take count)).length =
    ending.respell (s.rest.drop count) := by
  rw [along.rest, LineEnding.respell_length_drop]

/-- Both scans move on over the same piece of the text. -/
theorem moved (count : Nat) : ∃ before, text = before ++ s.rest.drop count ∧
    s.offset + (s.rest.take count).length = before.length ∧
    t.offset + (ending.respell (s.rest.take count)).length = (ending.respell before).length := by
  obtain ⟨before, split, offset, offset'⟩ := along.split
  refine ⟨before ++ s.rest.take count, ?_, ?_, ?_⟩
  · rw [List.append_assoc, List.take_append_drop, ← split]
  · rw [offset, List.length_append]
  · rw [offset', LineEnding.respell_append, List.length_append]

theorem skip (count : Nat) :
    Alongside ending text (s.skip count) (t.skip (ending.respell (s.rest.take count)).length) where
  split := by
    obtain ⟨before, split, offset, offset'⟩ := along.moved count
    refine ⟨before, split, offset, ?_⟩
    simp only [Scan.skip, along.taken]
    exact offset'
  rest := along.dropped count
  gap := by
    simp only [Scan.skip, along.taken, along.gap, LineEnding.respell_append]
  columns := along.columns
  depth := along.depth
  atLineStart := along.atLineStart
  inStatement := along.inStatement
  lastLine := along.lastLine

theorem position (single : '\r' ∉ text) : (LineIndex.ofChars (ending.respell text)).position t.offset =
    (LineIndex.ofChars text).position s.offset := by
  obtain ⟨before, split, offset, offset'⟩ := along.split
  rw [offset, offset', split]
  exact LineIndex.position_respell ending (split ▸ single)

/-- The line on which both scans come to the end of a piece of the text. -/
theorem lastLine_cut (single : '\r' ∉ text) (kind : TokenKind) (count : Nat) :
    (t.cut (.ofChars (ending.respell text)) kind (ending.respell (s.rest.take count)).length).2.lastLine =
      (s.cut (.ofChars text) kind count).2.lastLine := by
  simp only [Scan.cut, along.taken, along.position single]
  obtain ⟨before, split, offset, offset'⟩ := along.split
  have parts := List.take_append_drop count s.rest
  generalize s.rest.take count = taken at *
  generalize s.rest.drop count = rest at *
  rcases List.eq_nil_or_concat taken with rfl | ⟨front, c, rfl⟩
  · rfl
  · rw [List.concat_eq_append] at parts ⊢
    have some : (ending.respell (front ++ [c])).isEmpty = false := by
      rw [LineEnding.respell_append, List.isEmpty_eq_false_iff]
      refine List.append_ne_nil_of_right_ne_nil _ ?_
      by_cases feed : c = '\n'
      · rw [feed, LineEnding.respell_feed]
        cases ending <;> exact List.cons_ne_nil _ _
      · rw [LineEnding.respell_plain feed]
        exact List.cons_ne_nil _ _
    have whole : text = (before ++ front) ++ c :: rest := by
      rw [split, ← parts]
      simp
    have line := LineIndex.line_respell ending (whole ▸ single)
    rw [some, show (front ++ [c]).isEmpty = false by simp, if_neg Bool.false_ne_true, if_neg Bool.false_ne_true,
      offset, offset']
    refine congrArg _ ?_
    rw [← whole, List.append_assoc, LineEnding.respell_append, List.length_append] at line
    rw [line, List.length_append, List.length_append, List.length_singleton]
    rfl

theorem cut (single : '\r' ∉ text) (kind : TokenKind) (count : Nat) :
    Token.RespelledAs ending (s.cut (.ofChars text) kind count).1
        (t.cut (.ofChars (ending.respell text)) kind (ending.respell (s.rest.take count)).length).1 ∧
      Alongside ending text (s.cut (.ofChars text) kind count).2
        (t.cut (.ofChars (ending.respell text)) kind (ending.respell (s.rest.take count)).length).2 := by
  have behind := (along.skip count).position single
  simp only [Scan.skip, along.taken] at behind
  refine ⟨⟨rfl, ?_, ?_, along.position single, ?_, ?_⟩, ?_⟩
  · simp only [Scan.cut, along.taken, String.toList_ofList]
  · simp only [Scan.cut, along.gap, String.toList_ofList]
  · simp only [Scan.cut, along.taken]
    exact behind
  · simp only [Scan.cut, Token.flags, along.lastLine, along.position single]
    rfl
  · exact {
      split := by
        obtain ⟨before, split, offset, offset'⟩ := along.moved count
        refine ⟨before, split, offset, ?_⟩
        simp only [Scan.cut, along.taken]
        exact offset'
      rest := along.dropped count
      gap := rfl
      columns := along.columns
      depth := along.depth
      atLineStart := along.atLineStart
      inStatement := along.inStatement
      lastLine := along.lastLine_cut single kind count }

theorem detached (single : '\r' ∉ text) (kind : TokenKind) :
    Token.RespelledAs ending (s.detached (.ofChars text) kind) (t.detached (.ofChars (ending.respell text)) kind) :=
  ⟨rfl, rfl, rfl, along.position single, along.position single, rfl⟩

theorem replicate (single : '\r' ∉ text) (kind : TokenKind) (count : Nat) :
    List.Forall₂ (Token.RespelledAs ending) (List.replicate count (s.detached (.ofChars text) kind))
      (List.replicate count (t.detached (.ofChars (ending.respell text)) kind)) := by
  induction count with
  | zero => exact .nil
  | succ count ih => exact .cons (along.detached single kind) ih

theorem indent (single : '\r' ∉ text) (column : Nat) :
    List.Forall₂ (Token.RespelledAs ending) (s.indent (.ofChars text) column).1
        (t.indent (.ofChars (ending.respell text)) column).1 ∧
      Alongside ending text (s.indent (.ofChars text) column).2
        (t.indent (.ofChars (ending.respell text)) column).2 := by
  refine ⟨?_, along.split, along.rest, along.gap, ?_, along.depth, rfl, along.inStatement, along.lastLine⟩
  · rw [Scan.indent, Scan.indent, along.columns]
    refine List.rel_append (along.replicate single .dedent _) ?_
    split
    · exact .cons (along.detached single .indent) .nil
    · exact .nil
  · simp only [Scan.indent, along.columns]

theorem finish (single : '\r' ∉ text) : List.Forall₂ (Token.RespelledAs ending) (s.finish (.ofChars text))
    (t.finish (.ofChars (ending.respell text))) := by
  rw [Scan.finish, Scan.finish, along.columns, along.inStatement]
  refine List.rel_append (List.rel_append ?_ (along.replicate single .dedent _)) (.cons ?_ .nil)
  · split
    · exact .cons (along.detached single .newline) .nil
    · exact .nil
  · exact (along.cut single .endOfFile 0).1

end Alongside

/-! ### Strides -/

theorem respell_blanks {blanks : List Char} (blank : Blanks blanks) : ending.respell blanks = blanks :=
  LineEnding.respell_eq_self fun c member feed => by
    have here := blank c member
    rw [feed] at here
    cases here

/-- Blanks in front of what is next. -/
theorem Alongside.blanks (along : Alongside ending text s t) {blanks front : List Char}
    (split : s.rest = blanks ++ front) (blank : Blanks blanks) :
    t.rest = blanks ++ ending.respell front ∧ Alongside ending text (s.skip blanks.length) (t.skip blanks.length) := by
  have past := along.skip blanks.length
  rw [split, List.take_left, respell_blanks blank] at past
  refine ⟨?_, past⟩
  rw [along.rest, split, LineEnding.respell_append, respell_blanks blank]

theorem Alongside.layout (along : Alongside ending text s t) (single : '\r' ∉ text) {blanks front : List Char}
    (split : s.rest = blanks ++ front) (blank : Blanks blanks) :
    List.Forall₂ (Token.RespelledAs ending) (s.layout (.ofChars text) blanks).1
        (t.layout (.ofChars (ending.respell text)) blanks).1 ∧
      Alongside ending text (s.layout (.ofChars text) blanks).2
        (t.layout (.ofChars (ending.respell text)) blanks).2 := by
  have past := (along.blanks split blank).2
  rw [Scan.layout, Scan.layout, along.atLineStart]
  split
  · exact past.indent single _
  · exact ⟨.nil, past⟩

theorem Alongside.significant (along : Alongside ending text s t) (single : '\r' ∉ text) {c : Char} {tail : List Char}
    (front : s.rest = c :: tail) (starts : StartsLexeme c tail) (d : Dialect) :
    Token.RespelledAs ending (s.significant d (.ofChars text)).1 (t.significant d (.ofChars (ending.respell text))).1 ∧
      Alongside ending text (s.significant d (.ofChars text)).2
        (t.significant d (.ofChars (ending.respell text))).2 := by
  have inline : c ≠ '\n' := by
    rintro rfl
    cases starts.notLineEnd
  have scanned : scanLexeme d t.rest = ((scanLexeme d s.rest).1,
      (ending.respell (s.rest.take (scanLexeme d s.rest).2)).length) := by
    rw [along.rest, front]
    exact scanLexeme_respell ending inline (front ▸ along.plain single)
  obtain ⟨same, behind⟩ := along.cut single (scanLexeme d s.rest).1 (scanLexeme d s.rest).2
  simp only [Scan.significant, scanned]
  exact ⟨same, behind.split, behind.rest, behind.gap, behind.columns, congrArg (depthAfter · _) along.depth,
    behind.atLineStart, rfl, behind.lastLine⟩

theorem respell_isLineEnd {front rest : List Char} (plain : '\r' ∉ front ++ rest) (ends : IsLineEnd front rest)
    (ending : LineEnding) : IsLineEnd (ending.respell front) (ending.respell rest) := by
  obtain rfl := not_mem_of_isLineEnd plain ends
  rw [LineEnding.respell_feed, LineEnding.respell_nil, List.append_nil]
  exact ending.isLineEnd rest

/-- Each stride of the one scan is a stride of the other. -/
theorem Stride.respell {tokens : List Token} {next? : Option Scan} (single : '\r' ∉ text)
    (stride : Stride d (.ofChars text) s tokens next?) (along : Alongside ending text s t) :
    ∃ others next'?, Stride d (.ofChars (ending.respell text)) t others next'? ∧
      List.Forall₂ (Token.RespelledAs ending) tokens others ∧ Option.Rel (Alongside ending text) next? next'? := by
  have plain := along.plain single
  cases stride with
  | ends blank =>
    obtain ⟨rest, past⟩ := along.blanks (List.append_nil _).symm blank
    rw [LineEnding.respell_nil, List.append_nil] at rest
    have stride : Stride d (.ofChars (ending.respell text)) t _ none := .ends (rest ▸ blank)
    rw [rest] at stride
    exact ⟨_, none, stride, past.finish single, .none⟩
  | @comment blanks body rest split blank comment =>
    obtain ⟨front, past⟩ := along.blanks split blank
    have inline : ending.respell body = body := LineEnding.respell_eq_self fun c member feed => by
      have here := comment.inline c member
      rw [feed] at here
      cases here
    rw [LineEnding.respell_append, inline] at front
    have comment' : IsComment body (ending.respell rest) := by
      refine ⟨comment.marked, comment.inline, fun c first => ?_⟩
      cases rest with
      | nil => cases first
      | cons other rest =>
        have ends := comment.ended other rfl
        by_cases feed : other = '\n'
        · rw [feed, LineEnding.respell_feed] at first
          cases ending <;> (cases first; rfl)
        · rw [LineEnding.respell_plain feed] at first
          exact Option.some.inj first ▸ ends
    have both := past.cut single .comment body.length
    rw [rest_past split, List.take_left, inline] at both
    exact ⟨_, _, .comment front blank comment', .cons both.1 .nil, .some both.2⟩
  | @passed blanks lineEnd rest split blank ends here =>
    obtain ⟨front, past⟩ := along.blanks split blank
    rw [LineEnding.respell_append] at front
    have ends' := respell_isLineEnd (fun listed => plain (split ▸ List.mem_append_right _ listed)) ends ending
    have behind := past.skip lineEnd.length
    rw [rest_past split, List.take_left] at behind
    exact ⟨_, _, .passed front blank ends' (by rwa [along.atLineStart, along.depth]), .nil, .some behind⟩
  | @newline blanks lineEnd rest split blank ends inside outside =>
    obtain ⟨front, past⟩ := along.blanks split blank
    rw [LineEnding.respell_append] at front
    have ends' := respell_isLineEnd (fun listed => plain (split ▸ List.mem_append_right _ listed)) ends ending
    have both := past.cut single .newline lineEnd.length
    rw [rest_past split, List.take_left] at both
    obtain ⟨same, behind⟩ := both
    exact ⟨_, _, .newline front blank ends' (along.atLineStart.trans inside) (along.depth.trans outside),
      .cons same .nil, .some ⟨behind.split, behind.rest, behind.gap, behind.columns, behind.depth, rfl, rfl,
        behind.lastLine⟩⟩
  | @joined blanks lineEnd rest split blank ends =>
    obtain ⟨front, -⟩ := along.blanks split blank
    rw [LineEnding.respell_plain (by decide), LineEnding.respell_append] at front
    have ends' := respell_isLineEnd
      (fun listed => plain (split ▸ List.mem_append_right _ (List.mem_cons_of_mem _ listed))) ends ending
    obtain ⟨same, behind⟩ := along.layout single split blank
    have length : (ending.respell ('\\' :: lineEnd)).length = 1 + (ending.respell lineEnd).length := by
      rw [LineEnding.respell_plain (by decide), List.length_cons, Nat.add_comm]
    have past := behind.skip (1 + lineEnd.length)
    have taken : (s.layout (.ofChars text) blanks).2.rest.take (1 + lineEnd.length) = '\\' :: lineEnd := by
      rw [rest_pastLayout split, Nat.add_comm, List.take_succ_cons, List.take_left]
    rw [taken, length] at past
    exact ⟨_, _, .joined front blank ends', same, .some past⟩
  | @lexeme blanks c tail split blank starts =>
    obtain ⟨front, -⟩ := along.blanks split blank
    have inline : c ≠ '\n' := by
      rintro rfl
      cases starts.notLineEnd
    rw [LineEnding.respell_plain inline] at front
    have starts' : StartsLexeme c (ending.respell tail) := by
      refine ⟨starts.notBlank, starts.notComment, starts.notLineEnd, fun backslash next first => ?_⟩
      cases tail with
      | nil => cases first
      | cons other tail =>
        have plainNext := starts.notJoined backslash other rfl
        have feed : other ≠ '\n' := by
          rintro rfl
          cases plainNext
        rw [LineEnding.respell_plain feed] at first
        exact Option.some.inj first ▸ plainNext
    obtain ⟨same, behind⟩ := along.layout single split blank
    obtain ⟨token, past⟩ := behind.significant single (rest_pastLayout split) starts d
    exact ⟨_, _, .lexeme front blank starts', List.rel_append same (.cons token .nil), .some past⟩

theorem Strides.respell {tokens : List Token} (single : '\r' ∉ text)
    (strides : Strides d (.ofChars text) s tokens) (along : Alongside ending text s t) :
    ∃ others, Strides d (.ofChars (ending.respell text)) t others ∧
      List.Forall₂ (Token.RespelledAs ending) tokens others := by
  induction strides generalizing t with
  | last stride =>
    obtain ⟨others, next'?, stride', same, ends⟩ := stride.respell single along
    cases ends
    exact ⟨others, .last stride', same⟩
  | step stride _ ih =>
    obtain ⟨others, next'?, stride', same, goesOn⟩ := stride.respell single along
    cases goesOn with
    | some behind =>
      obtain ⟨more, strides', later⟩ := ih behind
      exact ⟨others ++ more, .step stride' strides', List.rel_append same later⟩

end Scan

/-- Lexing does not depend on how lines end: with every line feed written as another line end a text has as many
tokens, of the same kinds, with the same flags and at the same lines and columns, and their texts and leads are
those of the text with the line ends written in that way. -/
theorem lex_respell (d : Dialect) (ending : LineEnding) (text : String) (single : '\r' ∉ text.toList) :
    List.Forall₂ (Token.RespelledAs ending) (lex d text)
      (lex d (String.ofList (ending.respell text.toList))) := by
  obtain ⟨others, strides, same⟩ := (lex_strides d text).respell single (Scan.alongside_start ending text.toList)
  have tokens : lex d (String.ofList (ending.respell text.toList)) = others := by
    rw [lex, String.toList_ofList]
    exact strides.collect_eq
  rw [tokens]
  exact same

/-- A joined line, an escape and a literal that is not closed. -/
theorem lex_respell_unclosed : '\r' ∉ "if x:\n  y = \\\n 'a\\\nb # c\n".toList ∧
    List.Forall₂ (Token.RespelledAs .crlf) (lex .v26 "if x:\n  y = \\\n 'a\\\nb # c\n")
      (lex .v26 (String.ofList (LineEnding.crlf.respell "if x:\n  y = \\\n 'a\\\nb # c\n".toList))) :=
  ⟨by decide, lex_respell .v26 .crlf _ (by decide)⟩

end TolerantParser
