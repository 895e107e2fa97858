import TolerantParser.Proofs.Lexer.Indentation
import TolerantParser.Proofs.Lexer.Leaps

/-!
Logical lines without a token of their own. Blank lines and lines that hold only a comment have no line end token, but a
line end that is hidden by a backslash counts as the beginning of a line even where nothing but blanks and a comment
comes behind it; so the line end after these is one. These are the only line ends without a line: what the scan has seen
of a line (`Filling`) is what the text has of it (`hollow`).
-/

namespace TolerantParser

variable {d : Dialect} {lines : LineIndex} {text : List Char} {before tokens after : List Token} {token : Token}
  {s : Scan}

/-! ### Lines in a text -/

/-- The first line of a text that is neither blank nor a comment has nothing but blanks and hidden line ends, and
perhaps a comment, in front of its end. `joined` tells that a hidden line end has been gone over, and `comment` that a
comment has begun. -/
def hollowFrom : (joined comment : Bool) → List Char → Bool
  | _, _, [] => false
  | joined, true, c :: rest =>
    if isLineEndChar c then joined || hollowFrom false false rest else hollowFrom joined true rest
  | _, false, '\\' :: '\r' :: '\n' :: rest => hollowFrom true false rest
  | _, false, '\\' :: c :: rest => isLineEndChar c && hollowFrom true false rest
  | joined, false, c :: rest =>
    if isLineEndChar c then joined || hollowFrom false false rest
    else if c == '#' then hollowFrom joined true rest
    else isBlank c && hollowFrom joined false rest

/-- The logical line that a text begins with, blank lines and comments aside, has no token of its own. -/
def hollow (text : List Char) : Bool := hollowFrom false false text

theorem hollowFrom_plain {joined : Bool} {c : Char} (plain : c ≠ '\\') (rest : List Char) :
    hollowFrom joined false (c :: rest) =
      if isLineEndChar c then joined || hollowFrom false false rest
      else if c == '#' then hollowFrom joined true rest
      else isBlank c && hollowFrom joined false rest := by
  rw [hollowFrom] <;> simp [plain]

theorem hollowFrom_blanks {joined : Bool} {blanks : List Char} (blank : Blanks blanks) (rest : List Char) :
    hollowFrom joined false (blanks ++ rest) = hollowFrom joined false rest := by
  induction blanks with
  | nil => rfl
  | cons c blanks ih =>
    obtain ⟨here, others⟩ := List.forall_mem_cons.1 blank
    obtain ⟨inline, notComment⟩ := inline_of_isBlank here
    have plain : c ≠ '\\' := by
      rintro rfl
      cases here
    rw [List.cons_append, hollowFrom_plain plain, ih others]
    simp [inline, notComment, here]

theorem hollowFrom_ending {joined comment : Bool} {ending rest : List Char} (ends : IsLineEnd ending rest) :
    hollowFrom joined comment (ending ++ rest) = (joined || hollow rest) := by
  cases ends <;> cases comment <;> simp [hollowFrom, hollow, isLineEndChar]

/-- A line that goes on behind its end has begun. -/
theorem hollowFrom_joined {joined : Bool} {ending rest : List Char} (ends : IsLineEnd ending rest) :
    hollowFrom joined false ('\\' :: (ending ++ rest)) = hollowFrom true false rest := by
  cases ends with
  | lf | crlf => rfl
  | cr alone =>
    cases rest with
    | nil => rfl
    | cons c rest =>
      have other : c ≠ '\n' := by simpa using alone
      rw [List.singleton_append, hollowFrom]
      · rfl
      · simpa using other

theorem hollowFrom_comment {joined : Bool} {body rest : List Char} (comment : IsComment body rest) :
    hollowFrom joined false (body ++ rest) = hollowFrom joined false rest := by
  obtain ⟨more, rfl⟩ := List.head?_eq_some_iff.1 comment.marked
  have inside : ∀ {body : List Char}, (∀ c ∈ body, isLineEndChar c = false) →
      hollowFrom joined true (body ++ rest) = hollowFrom joined true rest := fun {body} inline => by
    induction body with
    | nil => rfl
    | cons c body ih =>
      obtain ⟨here, others⟩ := List.forall_mem_cons.1 inline
      rw [List.cons_append, hollowFrom, here, ih others]
      rfl
  have behind : hollowFrom joined true rest = hollowFrom joined false rest := by
    cases rest with
    | nil => rfl
    | cons c rest =>
      have ends := comment.ended c rfl
      have plain : c ≠ '\\' := by
        rintro rfl
        cases ends
      rw [hollowFrom_plain plain, hollowFrom, if_pos ends, if_pos ends]
  rw [List.cons_append, hollowFrom_plain (by decide), ← behind]
  exact inside (List.forall_mem_cons.1 comment.inline).2

/-- A line with a lexeme is not hollow. -/
theorem hollowFrom_lexeme {joined : Bool} {c : Char} {tail : List Char} (starts : StartsLexeme c tail) :
    hollowFrom joined false (c :: tail) = false := by
  by_cases backslash : c = '\\'
  · subst backslash
    cases tail with
    | nil => rfl
    | cons next tail =>
      have inline := starts.notJoined rfl next rfl
      have other : next ≠ '\r' := by
        rintro rfl
        cases inline
      rw [hollowFrom]
      · simp [inline]
      · simp [other]
  · simp [hollowFrom_plain backslash, starts.notLineEnd, starts.notComment, starts.notBlank]

/-! ### Lines of a scan -/

/-- The tokens of the line behind which a token stands are layout and comments. -/
def LineBare (before : List Token) : Prop := ∀ other ∈ lineBehind before, other.kind.isLayout ∨ other.kind = .comment

/-- What the scan has seen of a line: of one that waits for its end a token, and of any other only what makes it hollow
if nothing else comes. -/
structure Filling (text : List Char) (before : List Token) (s : Scan) : Prop where
  into : s.Into text
  filled : s.inStatement → ¬ LineBare before ∧ hollow (text.drop (lineFrom before)) = false
  bare : s.inStatement = false →
    LineBare before ∧ hollow (text.drop (lineFrom before)) = hollowFrom (!s.atLineStart) false s.rest
  between : s.atLineStart → s.inStatement = false
  outside : s.inStatement = false → s.depth = 0

theorem lineBare_append (goesOn : ∀ token ∈ tokens, token.kind ≠ .newline) :
    LineBare (before ++ tokens) ↔ LineBare before ∧ ∀ token ∈ tokens, token.kind.isLayout ∨ token.kind = .comment := by
  rw [LineBare, lineBehind_append before goesOn, List.forall_mem_append]
  rfl

theorem goesOn_of_bare {kind : TokenKind} (bare : kind.isLayout ∨ kind = .comment) : kind ≠ .newline := by
  rintro rfl
  simp [TokenKind.isLayout] at bare

namespace Filling

theorem start (text : List Char) : Filling text [] (.start text) where
  into := .start text
  filled := nofun
  bare _ := ⟨List.forall_mem_nil _, rfl⟩
  between _ := rfl
  outside _ := rfl

/-- Layout and comments fill no line. -/
theorem behind {next : Scan} (filling : Filling text before s) (into : next.Into text)
    (bare : ∀ token ∈ tokens, token.kind.isLayout ∨ token.kind = .comment) (still : next.inStatement = s.inStatement)
    (between : next.atLineStart → s.atLineStart) (depth : next.depth = s.depth)
    (same : s.inStatement = false →
      hollowFrom (!s.atLineStart) false s.rest = hollowFrom (!next.atLineStart) false next.rest) :
    Filling text (before ++ tokens) next := by
  have goesOn : ∀ token ∈ tokens, token.kind ≠ .newline := fun token member => goesOn_of_bare (bare token member)
  refine ⟨into, fun waits => ?_, fun waits => ?_, fun here => ?_, fun waits => ?_⟩
  · obtain ⟨filled, line⟩ := filling.filled (still ▸ waits)
    rw [lineFrom_append before goesOn, lineBare_append goesOn]
    exact ⟨fun all => filled all.1, line⟩
  · rw [still] at waits
    obtain ⟨empty, line⟩ := filling.bare waits
    rw [lineFrom_append before goesOn, lineBare_append goesOn, line, same waits]
    exact ⟨⟨empty, bare⟩, rfl⟩
  · rw [still]
    exact filling.between (between here)
  · rw [depth]
    exact filling.outside (still ▸ waits)

/-- A stride fills lines as the text does. -/
theorem stride {next : Scan} (filling : Filling text before s)
    (stride : Scan.Stride d (.ofChars text) s tokens (some next)) : Filling text (before ++ tokens) next := by
  cases stride with
  | @comment blanks body rest split blank comment =>
    have front : ((s.skip blanks.length).cut (.ofChars text) .comment body.length).2.rest = rest := by
      rw [Scan.rest_cut, Scan.rest_past split, List.drop_left]
    refine filling.behind ((filling.into.skip _).1.cut _ _).2.1 (by simp [Scan.cut]) rfl id rfl fun _ => ?_
    rw [front, split, hollowFrom_blanks blank, hollowFrom_comment comment]
    rfl
  | @passed blanks ending rest split blank ends here =>
    have front : ((s.skip blanks.length).skip ending.length).rest = rest := by
      rw [Scan.rest_skip, Scan.rest_past split, List.drop_left]
    refine filling.behind ((filling.into.skip _).1.skip _).1 (List.forall_mem_nil _) rfl id rfl fun waits => ?_
    -- no bracket is open, so the scan is in front of a line
    have begins : s.atLineStart = true := here.resolve_right (by simp [filling.outside waits])
    rw [front, split, hollowFrom_blanks blank, hollowFrom_ending ends]
    show (!s.atLineStart || hollow rest) = hollowFrom (!s.atLineStart) false rest
    rw [begins]
    rfl
  | @newline blanks ending rest split blank ends inside outside =>
    have into : ((s.skip blanks.length).cut (.ofChars text) .newline ending.length).2.lineEnded.Into text :=
      ⟨((filling.into.skip blanks.length).1.cut .newline ending.length).2.1.split⟩
    refine ⟨into, (fun fills => by cases fills), fun _ => ⟨?_, ?_⟩, fun _ => rfl, fun _ => outside⟩
    · rw [LineBare, lineBehind_newline before rfl]
      exact List.forall_mem_nil _
    · rw [lineFrom_newline before rfl]
      exact congrArg hollow into.drop_eq
  | @joined blanks ending rest split blank ends =>
    have front : ((s.layout (.ofChars text) blanks).2.skip (1 + ending.length)).rest = rest := by
      rw [Scan.rest_skip, Scan.rest_pastLayout split, Nat.add_comm, List.drop_succ_cons, List.drop_left]
    have inside : ((s.layout (.ofChars text) blanks).2.skip (1 + ending.length)).atLineStart = false :=
      s.inLine_layout (.ofChars text) blanks
    refine filling.behind ((filling.into.layout blanks).1.skip _).1 (fun _ member => .inl (Scan.mem_layout member).1)
      (s.inStatement_layout _ _) (by simp [inside]) (s.depth_layout _ _) fun _ => ?_
    rw [front, inside, split, hollowFrom_blanks blank, hollowFrom_joined ends]
    rfl
  | @lexeme blanks c tail split blank starts =>
    have word : ((s.layout (.ofChars text) blanks).2.significant d (.ofChars text)).1.kind.isInline :=
      (isLexeme_scanLexeme (s.layout (.ofChars text) blanks).2.rest).1
    have inside := s.inLine_layout (.ofChars text) blanks
    have into := (filling.into.layout blanks).1.significant d
    have layout : ∀ token ∈ (s.layout (.ofChars text) blanks).1, token.kind.isLayout :=
      fun token member => (Scan.mem_layout member).1
    generalize s.layout (.ofChars text) blanks = behind at word inside into layout ⊢
    have plain := TokenKind.plain_of_isInline word
    have counts := (structural_of_isInline word).2
    have goesOn : ∀ token ∈ behind.1 ++ [(behind.2.significant d (.ofChars text)).1], token.kind ≠ .newline := by
      refine List.forall_mem_append.2 ⟨fun token member => goesOn_of_bare (.inl (layout token member)), ?_⟩
      rw [List.forall_mem_singleton]
      intro line
      rw [line] at word
      cases word
    refine ⟨into, fun _ => ⟨fun bare => ?_, ?_⟩, (fun waits => by cases waits), fun here => ?_,
      (fun waits => by cases waits)⟩
    · rw [lineBare_append goesOn] at bare
      have last := bare.2 _ (List.mem_append_right _ List.mem_cons_self)
      exact last.elim (by simp [plain]) counts
    · rw [lineFrom_append before goesOn]
      cases waits : s.inStatement with
      | true => exact (filling.filled waits).2
      | false => rw [(filling.bare waits).2, split, hollowFrom_blanks blank, hollowFrom_lexeme starts]
    · exact absurd (show behind.2.atLineStart from here) (by simp [inside])

/-- A line end that a stride gives ends a hollow line if no token of its own is behind it. -/
theorem bare_iff {next? : Option Scan} {front back : List Token} (filling : Filling text before s)
    (stride : Scan.Stride d (.ofChars text) s tokens next?) (split : tokens = front ++ token :: back)
    (line : token.kind = .newline) : LineBare (before ++ front) ↔ hollow (text.drop (lineFrom (before ++ front))) := by
  have member : token ∈ tokens := by simp [split]
  cases stride with
  | ends =>
    obtain ⟨waits, rfl, -⟩ := (Scan.split_finish split).2.1 line
    obtain ⟨filled, inline⟩ := filling.filled waits
    simp [filled, inline]
  | comment =>
    rw [List.mem_singleton.1 member] at line
    cases line
  | passed => cases member
  | @newline blanks ending rest around blank ends inside outside =>
    obtain ⟨rfl, -⟩ : front = [] ∧ back = [] := by
      cases front <;> simp_all
    rw [List.append_nil]
    cases waits : s.inStatement with
    | true =>
      obtain ⟨filled, inline⟩ := filling.filled waits
      simp [filled, inline]
    | false =>
      obtain ⟨bare, line⟩ := filling.bare waits
      rw [line, inside, around, hollowFrom_blanks blank, hollowFrom_ending ends]
      simp [bare]
  | joined => exact absurd line (goesOn_of_bare (.inl (Scan.mem_layout member).1))
  | @lexeme blanks =>
    rw [List.mem_append, List.mem_singleton] at member
    rcases member with layout | rfl
    · exact absurd line (goesOn_of_bare (.inl (Scan.mem_layout layout).1))
    · have word := (isLexeme_scanLexeme (d := d) (s.layout (.ofChars text) blanks).2.rest).1
      rw [show (scanLexeme d (s.layout (.ofChars text) blanks).2.rest).1 = .newline from line] at word
      cases word

end Filling

/-- The lines that have no token of their own in a run are the hollow ones of the text. -/
theorem Scan.Strides.bare_iff {front back : List Token} (strides : Scan.Strides d (.ofChars text) s tokens)
    (filling : Filling text before s) (split : tokens = front ++ token :: back) (line : token.kind = .newline) :
    LineBare (before ++ front) ↔ hollow (text.drop (lineFrom (before ++ front))) := by
  induction strides generalizing before front with
  | last stride => exact filling.bare_iff stride split line
  | @step s next tokens more stride _ ih =>
    rcases split_append split with ⟨rest, within⟩ | ⟨later, rfl, behind⟩
    · exact filling.bare_iff stride within line
    · rw [← List.append_assoc]
      exact ih (filling.stride stride) behind

/-- Every line end token ends a logical line with a token of its own, unless it ends a hollow one: a line that begins
with a hidden line end and goes on with nothing but blanks, hidden line ends, and a comment. -/
theorem lex_newline {d : Dialect} {text : String} {before after : List Token} {token : Token}
    (split : lex d text = before ++ token :: after) (line : token.kind = .newline) :
    (∀ other ∈ lineBehind before, other.kind.isLayout ∨ other.kind = .comment) ↔
      hollow (text.toList.drop (lineFrom before)) :=
  (lex_strides d text).bare_iff (.start text.toList) split line

/-- A comment behind a hidden line end is not the end of its line. -/
theorem lex_newline_comment : ∃ before token after, lex .v26 "x\n\\\n# c\n" = before ++ token :: after ∧
    token.kind = .newline ∧ hollow ("x\n\\\n# c\n".toList.drop (lineFrom before)) ∧
    ∀ other ∈ lineBehind before, other.kind.isLayout ∨ other.kind = .comment := by
  have kinds : ((lex .v26 "x\n\\\n# c\n").drop 3).map (·.kind) = .newline :: [.endOfFile] := by
    rw [lex_eq_leaps .v26 rfl]
    decide
  obtain ⟨token, after, behind, line, -⟩ := List.map_eq_cons_iff.1 kinds
  have split : lex .v26 "x\n\\\n# c\n" = (lex .v26 "x\n\\\n# c\n").take 3 ++ token :: after := by
    rw [← behind, List.take_append_drop]
  have empty : hollow ("x\n\\\n# c\n".toList.drop (lineFrom ((lex .v26 "x\n\\\n# c\n").take 3))) := by
    rw [lex_eq_leaps .v26 rfl]
    decide
  exact ⟨_, token, after, split, line, empty, (lex_newline split line).2 empty⟩

end TolerantParser
