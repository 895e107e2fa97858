import TolerantParser.Proofs.Lexeme.Alone
import TolerantParser.Proofs.Lexer.Leaps
import TolerantParser.Proofs.Lexer.Standing

/-!
Tokens by themselves. A token within a line is a comment or a lexeme (`Token.IsPiece`), and neither depends on what is
in front of it or behind it: the lexer gives it again for a text that is nothing else. One of the kind of a keyword is
spelled like the keyword, so what the parser knows of words by their kinds it knows of their texts as well.
-/

namespace TolerantParser

variable {d : Dialect} {lines : LineIndex} {tokens : List Token} {token : Token} {s : Scan}

/-- A token is a comment, or what a text that starts a lexeme is cut at. -/
inductive Token.IsPiece (d : Dialect) (token : Token) : Prop
  | comment : token.kind = .comment → IsComment token.text.toList [] → IsPiece d token
  | lexeme {c : Char} {tail : List Char} : StartsLexeme c tail → token.kind = (scanLexeme d (c :: tail)).1 →
      token.text.toList = (c :: tail).take (scanLexeme d (c :: tail)).2 → IsPiece d token

theorem not_isLayout_of_within {kind : TokenKind} (within : kind ∉ [.newline, .indent, .dedent, .endOfFile]) :
    ¬ kind.isLayout := by
  cases kind <;> first | exact absurd (by decide) within | simp [TokenKind.isLayout]

namespace Scan

/-- A stride gives lexemes and comments, besides layout, line ends and the end of the text. -/
theorem Stride.isPiece {next? : Option Scan} (stride : Stride d lines s tokens next?) (member : token ∈ tokens)
    (within : token.kind ∉ [.newline, .indent, .dedent, .endOfFile]) : token.IsPiece d := by
  cases stride with
  | ends =>
    obtain ⟨-, rfl⟩ | rfl | rfl := mem_finish member <;> exact absurd (by simp [detached, cut]) within
  | @comment blanks body rest split blank comment =>
    obtain rfl := List.mem_singleton.1 member
    refine .comment rfl ?_
    rw [cut, String.toList_ofList, rest_past split, List.take_left]
    exact ⟨comment.marked, comment.inline, fun c first => by cases first⟩
  | passed => cases member
  | newline =>
    obtain rfl := List.mem_singleton.1 member
    simp [cut] at within
  | joined => exact absurd (mem_layout member).1 (not_isLayout_of_within within)
  | @lexeme blanks c tail split blank starts =>
    rw [List.mem_append, List.mem_singleton] at member
    rcases member with layout | rfl
    · exact absurd (mem_layout layout).1 (not_isLayout_of_within within)
    · have front : (s.layout lines blanks).2.rest = c :: tail := rest_pastLayout split
      exact .lexeme starts (by rw [← front]; rfl) (by rw [← front]; exact String.toList_ofList)

theorem Strides.isPiece (strides : Strides d lines s tokens) (member : token ∈ tokens)
    (within : token.kind ∉ [.newline, .indent, .dedent, .endOfFile]) : token.IsPiece d := by
  induction strides with
  | last stride => exact stride.isPiece member within
  | step stride _ ih =>
    rw [List.mem_append] at member
    exact member.elim (fun here => stride.isPiece here within) ih

end Scan

/-- The first token of a text that a stride gives one of. -/
theorem lex_of_stride {text : String} {next : Scan}
    (stride : Scan.Stride d (.ofChars text.toList) (.start text.toList) [token] (some next)) :
    ∃ more, lex d text = token :: more :=
  ⟨_, stride.collect_eq⟩

theorem lex_comment (d : Dialect) {text : String} (comment : IsComment text.toList []) :
    ∃ alone more, lex d text = alone :: more ∧ alone.kind = .comment ∧ alone.text = text ∧ alone.lead = "" := by
  have split : (Scan.start text.toList).rest = [] ++ (text.toList ++ []) := (List.append_nil _).symm
  obtain ⟨more, first⟩ := lex_of_stride (d := d) (.comment split nofun comment)
  refine ⟨_, more, first, rfl, ?_, rfl⟩
  show String.ofList (text.toList.take text.toList.length) = text
  rw [List.take_length, String.ofList_toList]

theorem lex_lexeme {text : String} {c : Char} {tail : List Char} (split : text.toList = c :: tail)
    (starts : StartsLexeme c tail) : ∃ alone more, lex d text = alone :: more ∧
      alone.kind = (scanLexeme d text.toList).1 ∧
      alone.text = String.ofList (text.toList.take (scanLexeme d text.toList).2) ∧ alone.lead = "" := by
  have front : (Scan.start text.toList).rest = [] ++ c :: tail := split
  obtain ⟨more, first⟩ := lex_of_stride (d := d) (.lexeme front nofun starts)
  exact ⟨_, more, first, rfl, rfl, rfl⟩

theorem StartsLexeme.take {c : Char} {tail : List Char} (starts : StartsLexeme c tail) (count : Nat) :
    StartsLexeme c (tail.take count) where
  notBlank := starts.notBlank
  notComment := starts.notComment
  notLineEnd := starts.notLineEnd
  notJoined backslash next first := by
    refine starts.notJoined backslash next ?_
    rw [List.head?_take] at first
    split at first
    · cases first
    · exact first

theorem Token.IsPiece.alone (piece : token.IsPiece d) : ∃ alone more, lex d token.text = alone :: more ∧
    alone.kind = token.kind ∧ alone.text = token.text ∧ alone.lead = "" := by
  cases piece with
  | comment kind comment =>
    rw [kind]
    exact lex_comment d comment
  | @lexeme c tail starts kind text =>
    have same := scanLexeme_take (d := d) (List.cons_ne_nil c tail)
    obtain ⟨fewer, filled⟩ := Nat.exists_eq_add_of_lt (scanLexeme_pos d (List.cons_ne_nil c tail))
    have split : token.text.toList = c :: tail.take fewer := by
      rw [text, filled, Nat.zero_add, List.take_succ_cons]
    obtain ⟨alone, more, first, kind', text', lead⟩ := lex_lexeme (d := d) split (starts.take fewer)
    rw [text, same] at kind' text'
    refine ⟨alone, more, first, kind'.trans kind.symm, ?_, lead⟩
    rw [text', List.take_take, Nat.min_self, ← text, String.ofList_toList]

/-- Tokens delimit themselves: the text of a token, by itself, begins with a token of the same kind and with the same
text, and nothing in front of it. The empty tokens are left out, and line ends, which are not tokens of a blank line.
-/
theorem lex_alone {d : Dialect} {text : String} {token : Token} (member : token ∈ lex d text)
    (within : token.kind ∉ [.newline, .indent, .dedent, .endOfFile]) :
    ∃ alone more, lex d token.text = alone :: more ∧ alone.kind = token.kind ∧ alone.text = token.text ∧
      alone.lead = "" :=
  ((lex_strides d text).isPiece member within).alone

/-- A literal that is not closed on its line is the same error without the end of the line. -/
theorem lex_alone_unclosed : ∃ token ∈ lex .v26 "x = u'a\nb", token.kind ∉ [.newline, .indent, .dedent, .endOfFile] ∧
    token.text = "u'a" ∧ ∃ alone more, lex .v26 token.text = alone :: more ∧ alone.kind = token.kind ∧
      alone.text = token.text ∧ alone.lead = "" := by
  have found : (lex .v26 "x = u'a\nb").any (fun token => token.kind == .error && token.text == "u'a") := by
    rw [lex_eq_leaps .v26 rfl]
    decide
  obtain ⟨token, member, here⟩ := List.any_eq_true.1 found
  rw [Bool.and_eq_true, beq_iff_eq, beq_iff_eq] at here
  have within : token.kind ∉ [.newline, .indent, .dedent, .endOfFile] := by simp [here.1]
  exact ⟨token, member, within, here.2, lex_alone member within⟩

/-! ### Words -/

/-- The kinds of the keywords of a dialect. -/
def Dialect.wordKinds (d : Dialect) : List TokenKind := d.keywords.map Prod.snd

/-- What the lexer gives besides words and operators is no word. -/
theorem not_mem_wordKinds_of_other {kind : TokenKind}
    (other : kind ∈ [.comment, .newline, .indent, .dedent, .endOfFile, .string, .name, .number, .error]) :
    kind ∉ d.wordKinds := by
  revert kind
  cases d <;> decide

theorem not_mem_wordKinds_of_mem_operators {operator : String × TokenKind} (listed : operator ∈ d.operators) :
    operator.2 ∉ d.wordKinds := by
  revert operator
  cases d <;> decide

theorem mem_keywords_of_scanLexeme {text : List Char} (word : (scanLexeme d text).1 ∈ d.wordKinds) :
    (String.ofList (text.take (scanLexeme d text).2), (scanLexeme d text).1) ∈ d.keywords := by
  rcases scanLexeme_cases d text with ⟨marks, -, scanned⟩ | other | listed | longest
  · refine absurd word (not_mem_wordKinds_of_other ?_)
    rw [scanned]
    rcases scanString_kind marks text with kind | kind <;> simp [kind]
  · refine absurd word (not_mem_wordKinds_of_other ?_)
    simp only [List.mem_cons, List.not_mem_nil, or_false] at other ⊢
    tauto
  · exact listed
  · obtain ⟨spelling, rest, -, -, listed⟩ := longestOperator?_some longest
    exact absurd word (not_mem_wordKinds_of_mem_operators listed)

/-- A token of the kind of a keyword is spelled like one. -/
theorem mem_keywords_of_mem_lex {text : String} {token : Token} (member : token ∈ lex d text)
    (word : token.kind ∈ d.wordKinds) : (token.text, token.kind) ∈ d.keywords := by
  have within : token.kind ∉ [.newline, .indent, .dedent, .endOfFile] := fun structural =>
    not_mem_wordKinds_of_other (by simp only [List.mem_cons, List.not_mem_nil, or_false] at structural ⊢; tauto) word
  cases (lex_strides d text).isPiece member within with
  | comment comment => exact absurd word (not_mem_wordKinds_of_other (by simp [comment]))
  | @lexeme c tail _ kind piece =>
    rw [kind] at word ⊢
    rw [← String.ofList_toList (s := token.text), piece]
    exact mem_keywords_of_scanLexeme word

end TolerantParser
