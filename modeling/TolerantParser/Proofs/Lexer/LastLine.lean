import TolerantParser.Proofs.Lexeme.Alone
import TolerantParser.Proofs.Lexer.Joined

/-!
The last line of a text, with and without its end. If the text ends neither with a line end nor with a backslash, nor
within a literal between three quotes, no lexeme sees a line feed behind it; so the lexer makes the same strides up to
the line feed. If the last line has a token, either text then has one token for the end of that line and the same tokens
behind it.
-/

namespace TolerantParser

variable {d : Dialect} {text : List Char} {lines : LineIndex}

/-! ### Lexemes at the end of a text -/

/-- The text does not end with a line end, nor with a backslash that would hide one. -/
def EndsPlainly (text : List Char) : Prop := ∀ c ∈ text.getLast?, isLineEndChar c = false ∧ c ≠ '\\'

instance (text : List Char) : Decidable (EndsPlainly text) :=
  decidable_of_iff (text.getLast?.all fun c => !isLineEndChar c && c != '\\') (by
    rw [EndsPlainly]
    cases text.getLast? <;> simp)

theorem EndsPlainly.of_suffix {back : List Char} (plain : EndsPlainly text) (suffix : back <:+ text) :
    EndsPlainly back := by
  obtain ⟨front, rfl⟩ := suffix
  exact fun c last => plain c (by rw [List.getLast?_append, last]; rfl)

theorem EndsPlainly.parted (plain : EndsPlainly text) (more : List Char) : Parted text more := fun pair => by
  cases (plain _ pair.1).1

theorem stopped_feed : Stopped ['\n'] := by
  rintro _ ⟨⟩
  rfl

/-- The token is a literal between three quotes that is not closed. -/
def isUnclosedTriple (kind : TokenKind) (text : String) : Bool :=
  kind == .error && [['\'', '\'', '\''], ['"', '"', '"']].contains ((text.toList.dropWhile isStringMark).take 3)

/-- A literal within a line ends at the line feed if it is not closed before. -/
theorem closeSingle_feed {quote : Char} (quotes : isQuote quote) (plain : EndsPlainly text) :
    closeSingle quote (text ++ ['\n']) = closeSingle quote text := by
  fun_induction closeSingle quote text with
  | case1 =>
    have other : ('\n' == quote) = false := beq_false_of_ne fun same => by
      rw [← same] at quotes
      cases quotes
    simp [closeSingle, other, isLineEndChar]
  | case2 => exact absurd rfl (plain '\\' rfl).2
  | case3 rest ih =>
    have later := ih (plain.of_suffix (List.suffix_append ['\\', '\r', '\n'] rest))
    simp [closeSingle, later]
  | case4 c rest pair ih =>
    have later := ih (plain.of_suffix (List.suffix_append ['\\', c] rest))
    have single : c = '\r' → (rest ++ ['\n']).head? ≠ some '\n' := fun return' feed => by
      cases rest with
      | nil => cases return' ▸ (plain c rfl).1
      | cons other rest =>
        obtain rfl : other = '\n' := Option.some.inj feed
        exact pair rest return' rfl
    rw [List.cons_append, List.cons_append, closeSingle_hidden single, later]
  | case5 c rest alone pair hidden here =>
    rw [List.cons_append, closeSingle_plain (ne_backslash alone hidden), if_pos here]
  | case6 c rest alone pair hidden notHere stops =>
    rw [List.cons_append, closeSingle_plain (ne_backslash alone hidden), if_neg notHere, if_pos stops]
  | case7 c rest alone pair hidden notHere goesOn ih =>
    have later := ih (plain.of_suffix (List.suffix_cons c rest))
    rw [List.cons_append, closeSingle_plain (ne_backslash alone hidden), if_neg notHere, if_neg goesOn, later]

theorem scanString_feed {letters rest : List Char} {quote : Char} (quotes : isQuote quote) (plain : EndsPlainly rest)
    (closed : [quote, quote].isPrefixOf rest → closeTriple quote (rest.drop 2) ≠ none) :
    scanString letters.length (letters ++ quote :: (rest ++ ['\n'])) =
      scanString letters.length (letters ++ quote :: rest) := by
  rw [scanString_eq, scanString_eq, isPrefixOf_stopped quotes stopped_feed, closeSingle_feed quotes plain]
  by_cases triple : [quote, quote].isPrefixOf rest
  · rw [if_pos triple, if_pos triple]
    obtain ⟨tail, rfl⟩ := List.isPrefixOf_iff_prefix.1 triple
    have closed : closeTriple quote tail ≠ none := closed triple
    obtain ⟨length, closes⟩ := Option.ne_none_iff_exists'.1 closed
    obtain ⟨front, back, rfl, -, -, again⟩ := closeTriple_some closes
    have behind : closeTriple quote (([quote, quote] ++ (front ++ back) ++ ['\n']).drop 2) = some length := by
      rw [List.append_assoc, List.append_assoc]
      exact again _
    rw [behind, show ([quote, quote] ++ (front ++ back)).drop 2 = front ++ back from rfl, closes]
  · rw [if_neg triple, if_neg triple]

/-- At the end of a text a lexeme does not see a line feed. -/
theorem scanLexeme_feed (nonempty : text ≠ []) (plain : EndsPlainly text)
    (closed : isUnclosedTriple (scanLexeme d text).1 (String.ofList (text.take (scanLexeme d text).2)) = false) :
    scanLexeme d (text ++ ['\n']) = scanLexeme d text := by
  have marks := stringMarkLength?_stopped (d := d) stopped_feed text
  cases found : stringMarkLength? d text with
  | none =>
    obtain ⟨name, within⟩ := nameLength_stopped (f := d.features) stopped_feed nonempty
    simp only [scanLexeme, marks, found, stopped_feed.head passes_startsName, name,
      List.take_append_of_le_length within,
      startsNumber_stopped stopped_feed, scanNumber_stopped stopped_feed,
        longestOperator?_stopped stopped_feed nonempty]
  | some length =>
    have scanned : scanLexeme d text = scanString length text := by rw [scanLexeme, found]
    have scanned' : scanLexeme d (text ++ ['\n']) = scanString length (text ++ ['\n']) := by
      rw [scanLexeme, marks, found]
    obtain ⟨letters, quote, rest, rfl, rfl, -, marked, quotes, -⟩ := stringMarkLength?_eq_some.1 found
    rw [scanned] at closed
    rw [scanned, scanned', List.append_assoc, List.cons_append]
    refine scanString_feed quotes (plain.of_suffix ?_) fun triple opened => ?_
    · exact (List.suffix_cons quote rest).trans (List.suffix_append letters _)
    · obtain ⟨tail, rfl⟩ := List.isPrefixOf_iff_prefix.1 triple
      have open' : scanString letters.length (letters ++ quote :: ([quote, quote] ++ tail)) =
          (.error, letters.length + 1 + ([quote, quote] ++ tail).length) := by
        rw [scanString_eq, if_pos triple, opened]
      have body : (letters ++ quote :: ([quote, quote] ++ tail)).dropWhile isStringMark =
          [quote, quote, quote] ++ tail := by
        simp [List.dropWhile_append_of_pos marked, plain_of_isQuote quotes]
      rw [open', take_literal, List.take_length, isUnclosedTriple, String.toList_ofList, body] at closed
      simp only [isQuote, Bool.or_eq_true, beq_iff_eq] at quotes
      rcases quotes with rfl | rfl <;> cases closed

/-! ### Strides up to the end of a text -/

namespace Scan

variable {s next : Scan} {tokens : List Token}

theorem Stride.onto_feed (plain : EndsPlainly text) (into : s.Into text)
    (stride : Stride d (.ofChars text) s tokens (some next))
    (closed : ∀ token ∈ tokens, isUnclosedTriple token.kind token.text = false) :
    Stride d (.ofChars (text ++ ['\n'])) (s.onto ['\n']) tokens (some (next.onto ['\n'])) := by
  have plain' := plain.of_suffix into.suffix
  refine stride.onto (plain.parted _) into (fun {blanks body rest} split comment => ?_)
    fun {blanks c tail} split starts member _ => ?_
  · refine ⟨comment.marked, comment.inline, fun c first => ?_⟩
    cases rest with
    | cons other rest => exact comment.ended c first
    | nil =>
      obtain rfl : '\n' = c := Option.some.inj first
      rfl
  · have front : (s.layout (.ofChars text) blanks).2.rest = c :: tail := rest_pastLayout split
    have plain'' : EndsPlainly (c :: tail) := plain'.of_suffix ⟨blanks, split.symm⟩
    refine ⟨⟨starts.notBlank, starts.notComment, starts.notLineEnd, fun backslash next first => ?_⟩,
      scanLexeme_feed (List.cons_ne_nil c tail) plain'' ?_⟩
    · cases tail with
      | cons other tail => exact starts.notJoined backslash next first
      | nil => exact absurd backslash (plain'' c rfl).2
    · rw [← front]
      exact closed _ member

/-- The strides up to the line feed, at which the scan stands where it would be at the end of the text. -/
theorem Strides.onto_feed (plain : EndsPlainly text) (strides : Strides d (.ofChars text) s tokens) (into : s.Into text)
    (closed : ∀ token ∈ tokens, isUnclosedTriple token.kind token.text = false) :
    ∃ last front, last = s.last d (.ofChars text) ∧ Blanks last.rest ∧
      tokens = front ++ (last.skip last.rest.length).finish (.ofChars text) ∧
      ((s.onto ['\n']).collect d (.ofChars (text ++ ['\n'])) #[]).toList =
        front ++ ((last.onto ['\n']).collect d (.ofChars (text ++ ['\n'])) #[]).toList := by
  induction strides with
  | @last s tokens stride =>
    refine ⟨s, [], (last_of_step_none stride.step_eq).symm, ?_⟩
    cases stride with
    | ends blank => exact ⟨blank, rfl, rfl⟩
  | @step s next tokens later stride _ ih =>
    rw [List.forall_mem_append] at closed
    obtain ⟨last, front, same, blank, split, collected⟩ := ih (stride.into into) closed.2
    refine ⟨last, tokens ++ front, ?_, blank, by rw [split, List.append_assoc], ?_⟩
    · rw [same, last_of_step_some stride.step_eq]
    · rw [(stride.onto_feed plain into closed.1).collect_eq, collected, List.append_assoc]

/-! ### Lines that wait for their end -/

/-- Where no line ends any more, a line goes on to wait for its end. -/
theorem Stride.waits (stride : Stride d lines s tokens (some next)) (waits : s.inStatement)
    (inline : ∀ c ∈ s.rest, isLineEndChar c = false) :
    next.inStatement ∧ ∀ c ∈ next.rest, isLineEndChar c = false := by
  have unended : ∀ {front ending rest : List Char}, s.rest = front ++ (ending ++ rest) → ¬ IsLineEnd ending rest :=
    fun split ends => by
      obtain ⟨c, tail, first, lineEnd, -⟩ := ends.head
      rw [inline c (by simp [split, first])] at lineEnd
      cases lineEnd
  cases stride with
  | comment => exact ⟨waits, fun c member => inline c (List.mem_of_mem_drop (List.mem_of_mem_drop member))⟩
  | passed split _ ends => exact absurd ends (unended split)
  | newline split _ ends => exact absurd ends (unended split)
  | @joined blanks _ _ split _ ends =>
    exact absurd ends (unended (show s.rest = (blanks ++ ['\\']) ++ _ by rw [split]; simp))
  | @lexeme blanks c tail split =>
    refine ⟨rfl, fun other member => inline other ?_⟩
    rw [rest_significant, rest_pastLayout split] at member
    rw [split]
    exact List.mem_append_right _ (List.mem_of_mem_drop member)

theorem Strides.still_waits (strides : Strides d lines s tokens) (waits : s.inStatement)
    (inline : ∀ c ∈ s.rest, isLineEndChar c = false) : (s.last d lines).inStatement := by
  induction strides with
  | last stride => rwa [last_of_step_none stride.step_eq]
  | step stride _ ih =>
    rw [last_of_step_some stride.step_eq]
    exact ih (stride.waits waits inline).1 (stride.waits waits inline).2

theorem Into.rest (into : s.Into text) : text.drop s.offset = s.rest := by
  obtain ⟨before, split, offset⟩ := into.split
  rw [split, offset, List.drop_left]

/-- A lexeme comes from a stride that goes on to wait for the end of the line. -/
theorem Stride.waits_of_mem (stride : Stride d lines s tokens (some next)) {token : Token} (member : token ∈ tokens)
    (within : token.kind.isInline) : next.inStatement ∧ next.offset = token.range.stop := by
  cases stride with
  | comment | newline => cases List.mem_singleton.1 member ▸ within
  | passed => cases member
  | joined => cases TokenKind.plain_of_isInline within ▸ (mem_layout member).1
  | lexeme =>
    rcases List.mem_append.1 member with layout | lexeme
    · cases TokenKind.plain_of_isInline within ▸ (mem_layout layout).1
    · rw [List.mem_singleton.1 lexeme]
      exact ⟨rfl, rfl⟩

/-- If no line ends behind a token of a line, the line waits for its end where the text ends. -/
theorem Strides.waits (strides : Strides d (.ofChars text) s tokens) (into : s.Into text) {token : Token}
    (member : token ∈ tokens) (within : token.kind.isInline)
    (inline : ∀ c ∈ text.drop token.range.stop, isLineEndChar c = false) :
    (s.last d (.ofChars text)).inStatement := by
  induction strides with
  | @last s tokens stride =>
    cases stride with
    | ends =>
      obtain ⟨-, rfl⟩ | rfl | rfl := mem_finish member <;> cases within
  | @step s next tokens later stride strides ih =>
    rw [last_of_step_some stride.step_eq]
    have into' := stride.into into
    rcases List.mem_append.1 member with here | there
    · obtain ⟨waits, stop⟩ := stride.waits_of_mem here within
      exact strides.still_waits waits (by rw [← into'.rest, stop]; exact inline)
    · exact ih into' there

/-! ### The end of the last line -/

/-- Behind the end of the last line come the ends of so many blocks, and the end of the text. -/
def wordsBehind (blocks : Nat) : List (TokenKind × String) := List.replicate blocks (.dedent, "") ++ [(.endOfFile, "")]

theorem words_finish (s : Scan) (lines : LineIndex) : (s.finish lines).map Token.word =
    (if s.inStatement then [(.newline, "")] else []) ++ wordsBehind (s.columns.length - 1) := by
  have line : (if s.inStatement then [s.detached lines .newline] else []).map Token.word =
      if s.inStatement then [(.newline, "")] else [] := by
    split <;> rfl
  rw [finish, List.append_assoc, List.map_append, line, List.map_append, List.map_replicate]
  rfl

/-- At a line feed behind a line that waits for its end there is one token for its end, too. -/
theorem words_feed (d : Dialect) (lines : LineIndex) (blank : Blanks s.rest) (waits : s.inStatement) :
    ∃ ending, ((s.onto ['\n']).collect d lines #[]).toList.map Token.word =
      (.newline, ending) :: wordsBehind (s.columns.length - 1) := by
  have split : (s.onto ['\n']).rest = s.rest ++ (['\n'] ++ []) := rfl
  by_cases here : s.atLineStart ∨ 0 < s.depth
  · have passed : Stride d lines (s.onto ['\n']) _ _ := .passed split blank (.lf []) here
    have behind := rest_past (rest_past split)
    have ends : Stride d lines _ _ none := .ends (by rw [behind]; exact nofun)
    refine ⟨"", ?_⟩
    rw [(Strides.step passed (.last ends)).collect_eq, List.nil_append, words_finish]
    simp [Scan.skip, Scan.onto, waits]
  · rw [not_or, Bool.not_eq_true, Nat.not_lt, Nat.le_zero] at here
    have newline : Stride d lines (s.onto ['\n']) _ _ := .newline split blank (.lf []) here.1 here.2
    have behind : (((s.onto ['\n']).skip s.rest.length).cut lines .newline 1).2.lineEnded.rest = [] :=
      congrArg (List.drop 1) (rest_past split)
    have ends : Stride d lines _ _ none := .ends (by rw [behind]; exact nofun)
    have cut : (((s.onto ['\n']).skip s.rest.length).cut lines .newline 1).1.word = (.newline, "\n") :=
      congrArg (fun left : List Char => (TokenKind.newline, String.ofList (left.take 1))) (rest_past split)
    refine ⟨"\n", ?_⟩
    rw [(Strides.step newline (.last ends)).collect_eq, List.singleton_append, List.map_cons, words_finish]
    exact congrArg (· :: _) cut

end Scan

/-- The tokens have the same kinds and texts, but for the text of the last line end. -/
def SameWords (tokens others : List Token) : Prop :=
  ∃ front ending ending' back, tokens.map Token.word = front ++ (.newline, ending) :: back ∧
    others.map Token.word = front ++ (.newline, ending') :: back ∧ ∀ word ∈ back, word.1 ≠ .newline

/-- A text whose last line has a token but no end: behind a token, and so behind the last one, no line ends. The text
does not end with a backslash, nor within a literal between three quotes. -/
structure LacksLineEnd (d : Dialect) (text : String) : Prop where
  plain : EndsPlainly text.toList
  filled : ∃ token ∈ lex d text, token.kind.isInline ∧ ∀ c ∈ text.toList.drop token.range.stop, isLineEndChar c = false
  closed : ∀ token ∈ lex d text, isUnclosedTriple token.kind token.text = false

theorem LacksLineEnd.sameWords {text : String} (lacks : LacksLineEnd d text) :
    SameWords (lex d text) (lex d (text ++ "\n")) := by
  have strides := lex_strides d text
  obtain ⟨token, member, within, inline⟩ := lacks.filled
  have waits := strides.waits (.start text.toList) member within inline
  obtain ⟨last, front, here, blank, split, collected⟩ := strides.onto_feed lacks.plain (.start text.toList) lacks.closed
  rw [← here] at waits
  obtain ⟨ending, fed⟩ := Scan.words_feed d (.ofChars (text.toList ++ ['\n'])) blank waits
  have longer : lex d (text ++ "\n") = front ++
      ((last.onto ['\n']).collect d (.ofChars (text.toList ++ ['\n'])) #[]).toList := by
    rw [← collected, lex, String.toList_append]
    rfl
  refine ⟨front.map Token.word, "", ending, Scan.wordsBehind (last.columns.length - 1), ?_, ?_, fun word member => ?_⟩
  · have waits : (last.skip last.rest.length).inStatement := waits
    rw [split, List.map_append, Scan.words_finish, if_pos waits]
    rfl
  · rw [longer, List.map_append, fed]
  · rw [Scan.wordsBehind, List.mem_append, List.mem_replicate, List.mem_singleton] at member
    rcases member with ⟨-, rfl⟩ | rfl <;> exact (fun same => by cases same)

end TolerantParser
