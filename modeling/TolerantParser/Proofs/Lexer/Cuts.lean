import TolerantParser.Lexer.Basic
import TolerantParser.Proofs.Stream.Repairing
import TolerantParser.Proofs.Tree.Pieces

/-!
What the lexer gives, as a relation that has one case for each sort of stride (`Cuts`). Every law about
the tokens of a text is by induction on it. Here: nothing of the text is lost, and what holds of each
single token.
-/

namespace TolerantParser

variable {d : Dialect}

/-! ### Lexemes -/

theorem code_of_mem_keywords {word : String × TokenKind} (listed : word ∈ d.keywords) : 100 ≤ word.2.code := by
  revert word
  cases d <;> decide

theorem code_of_mem_operators {operator : String × TokenKind} (listed : operator ∈ d.operators) :
    20 ≤ operator.2.code := by
  revert operator
  cases d <;> decide

theorem ne_of_mem_keywords {word : String × TokenKind} {kind : TokenKind} (listed : word ∈ d.keywords)
    (other : kind.code < 100) : word.2 ≠ kind :=
  fun same => Nat.not_le.2 other (same ▸ code_of_mem_keywords listed)

theorem ne_of_mem_operators {operator : String × TokenKind} {kind : TokenKind} (listed : operator ∈ d.operators)
    (other : kind.code < 20) : operator.2 ≠ kind :=
  fun same => Nat.not_le.2 other (same ▸ code_of_mem_operators listed)

theorem inline_of_code {kind : TokenKind} (high : 20 ≤ kind.code) : kind.isInline := by
  have family : ∀ kind ∈ TokenKind.all, 20 ≤ kind.code → kind.isInline := by decide
  exact family kind kind.mem_all high

/-- A lexeme stands within a line and is of a kind that the dialect defines. -/
def IsLexeme (d : Dialect) (kind : TokenKind) : Prop := kind.isInline ∧ d.defines kind

theorem isLexeme_wordKind (word : String) : IsLexeme d (d.wordKind word) := by
  refine ⟨?_, d.defines_wordKind word⟩
  rcases d.wordKind_eq_name_or_mem word with named | listed
  · rw [named]
    rfl
  · exact inline_of_code (Nat.le_trans (by decide) (code_of_mem_keywords listed))

theorem isLexeme_number : IsLexeme d .number := ⟨rfl, by cases d <;> rfl⟩
theorem isLexeme_string : IsLexeme d .string := ⟨rfl, by cases d <;> rfl⟩
theorem isLexeme_error : IsLexeme d .error := ⟨rfl, by cases d <;> rfl⟩

theorem isLexeme_longestOperator? {text : List Char} {found : TokenKind × Nat}
    (longest : longestOperator? d text = some found) : IsLexeme d found.1 := by
  obtain ⟨length, -, hit⟩ := List.exists_of_findSome?_eq_some longest
  dsimp only at hit
  split at hit
  · obtain ⟨kind, spelled, rfl⟩ := Option.map_eq_some_iff.1 hit
    obtain ⟨before, after, split, -⟩ := List.lookup_eq_some_iff.1 spelled
    have listed : (String.ofList (text.take length), kind) ∈ d.operators := by simp [split]
    exact ⟨inline_of_code (code_of_mem_operators listed), Dialect.defines_of_operatorKind? spelled⟩
  · cases hit

theorem isLexeme_scanString (marks : Nat) (text : List Char) :
    IsLexeme d (scanString marks text).1 := by
  unfold scanString
  split
  · split
    · split
      · exact isLexeme_string
      · exact isLexeme_error
    · dsimp only
      split
      · exact isLexeme_string
      · exact isLexeme_error
  · exact isLexeme_error

theorem isLexeme_scanDecimal (f : Features) (text : List Char) : IsLexeme d (scanDecimal f text).1 := by
  unfold scanDecimal
  dsimp only
  split
  · exact isLexeme_number
  · exact isLexeme_number
  · split
    · exact isLexeme_number
    · split
      · exact isLexeme_error
      · exact isLexeme_number

theorem isLexeme_scanNumber (f : Features) (text : List Char) : IsLexeme d (scanNumber f text).1 := by
  unfold scanNumber
  split
  · split
    · exact isLexeme_number
    · exact isLexeme_scanDecimal f _
  · exact isLexeme_scanDecimal f _

theorem isLexeme_scanLexeme (text : List Char) : IsLexeme d (scanLexeme d text).1 := by
  unfold scanLexeme
  split
  · exact isLexeme_scanString _ _
  · split
    · exact isLexeme_wordKind _
    · split
      · exact isLexeme_scanNumber _ _
      · cases longest : longestOperator? d text with
        | none => exact isLexeme_error
        | some found => exact isLexeme_longestOperator? longest

/-! ### Tokens -/

/-- The kind and the text of a token, which the dialect decides. -/
def Token.word (token : Token) : TokenKind × String := (token.kind, token.text)

/-- What holds of each token that was cut from a text. -/
structure Genuine (d : Dialect) (token : Token) : Prop where
  real : token.synthetic = false
  bare : token.kind.isLayout → token.text = "" ∧ token.lead = ""
  filled : token.kind.isInline → token.text ≠ ""
  defined : d.defines token.kind

theorem defines_structural {kind : TokenKind} (listed : kind ∈ structuralKinds) : d.defines kind := by
  simp [Dialect.defines, listed]

theorem sourceOf_cons (token : Token) (tokens : List Token) (real : token.synthetic = false) :
    sourceOf (token :: tokens) = token.lead.toList ++ token.text.toList ++ sourceOf tokens := by
  simp [sourceOf, real]

theorem sourceOf_eq_nil {tokens : List Token} (bare : ∀ token ∈ tokens, token.text = "" ∧ token.lead = "") :
    sourceOf tokens = [] := by
  rw [sourceOf, List.flatMap_eq_nil_iff]
  intro token member
  simp [bare token member]

/-! ### Strides -/

namespace Scan

/-- The line of the scan has ended. -/
def lineEnded (s : Scan) : Scan := { s with atLineStart := true, inStatement := false }

/-- The tokens that a scan gives. -/
inductive Cuts (d : Dialect) (lines : LineIndex) : Scan → List Token → Prop
  | ends {s : Scan} : s.rest = [] → Cuts d lines s (s.finish lines)
  | skip {s : Scan} {tokens : List Token} (count : Nat) : Cuts d lines (s.skip count) tokens →
      Cuts d lines s tokens
  | comment {s : Scan} {tokens : List Token} (count : Nat) :
      Cuts d lines (s.cut lines .comment count).2 tokens →
      Cuts d lines s ((s.cut lines .comment count).1 :: tokens)
  | newline {s : Scan} {tokens : List Token} (count : Nat) :
      Cuts d lines (s.cut lines .newline count).2.lineEnded tokens →
      Cuts d lines s ((s.cut lines .newline count).1 :: tokens)
  | layout {s : Scan} {tokens : List Token} (column : Nat) : s.atLineStart →
      Cuts d lines (s.indent lines column).2 tokens →
      Cuts d lines s ((s.indent lines column).1 ++ tokens)
  | lexeme {s : Scan} {tokens : List Token} : s.atLineStart = false → s.rest ≠ [] →
      Cuts d lines (s.significant d lines).2 tokens →
      Cuts d lines s ((s.significant d lines).1 :: tokens)

variable {lines : LineIndex}

/-- The layout at the front of a line, if the scan is there, and then the rest of the line. -/
theorem Cuts.behindLayout {s : Scan} {tokens : List Token} (column : Nat)
    (cuts : Cuts d lines (if s.atLineStart then s.indent lines column else ([], s)).2 tokens) :
    Cuts d lines s ((if s.atLineStart then s.indent lines column else ([], s)).1 ++ tokens) := by
  split
  next here =>
    rw [if_pos here] at cuts
    exact .layout column here cuts
  next inside =>
    rwa [if_neg inside] at cuts

theorem atLineStart_layout (s : Scan) (column : Nat) :
    (if s.atLineStart then s.indent lines column else ([], s)).2.atLineStart = false := by
  split
  next => rfl
  next inside => simpa using inside

theorem rest_layout (s : Scan) (column : Nat) :
    (if s.atLineStart then s.indent lines column else ([], s)).2.rest = s.rest := by
  split <;> rfl

/-- One stride, and what the scan gives after it. -/
theorem cuts_of_step {s : Scan} {more : List Token} {next? : Option Scan}
    (stepped : s.step d lines = (more, next?)) (tokens : List Token)
    (later : ∀ next, next? = some next → Cuts d lines next tokens) :
    Cuts d lines s (more ++ (if next?.isSome then tokens else [])) := by
  refine .skip (s.rest.takeWhile isBlank).length ?_
  unfold step at stepped
  dsimp only at stepped
  generalize s.skip (s.rest.takeWhile isBlank).length = t at *
  generalize columnAfter (s.rest.takeWhile isBlank) = column at *
  split at stepped
  next ended =>
    obtain ⟨rfl, rfl⟩ := Prod.mk.inj stepped
    simpa using Cuts.ends ended
  next c tail split =>
  split at stepped
  next hash =>
    obtain ⟨rfl, rfl⟩ := Prod.mk.inj stepped
    exact .comment _ (later _ rfl)
  next notHash =>
  split at stepped
  next lineEnd =>
    split at stepped
    · obtain ⟨rfl, rfl⟩ := Prod.mk.inj stepped
      exact .skip _ (later _ rfl)
    · obtain ⟨rfl, rfl⟩ := Prod.mk.inj stepped
      exact .newline _ (later _ rfl)
  next inline =>
  split at stepped
  next joined =>
    obtain ⟨rfl, rfl⟩ := Prod.mk.inj stepped
    exact .behindLayout column (.skip _ (later _ rfl))
  next significant =>
    obtain ⟨rfl, rfl⟩ := Prod.mk.inj stepped
    rw [List.append_assoc]
    refine .behindLayout column (.lexeme (atLineStart_layout t column) ?_ (later _ rfl))
    rw [rest_layout, split]
    exact List.cons_ne_nil c tail

theorem cuts_collect (s : Scan) (d : Dialect) (lines : LineIndex) :
    Cuts d lines s (s.collect d lines #[]).toList := by
  rcases stepped : s.step d lines with ⟨more, _ | next⟩
  · rw [toList_collect_none stepped]
    simpa using cuts_of_step stepped [] (by simp)
  · have later := cuts_collect next d lines
    rw [toList_collect_some stepped]
    simpa using cuts_of_step stepped _ fun other same => Option.some.inj same ▸ later
  termination_by s.rest.length
  decreasing_by exact step_shorter stepped

/-! ### Laws -/

theorem genuine_detached (s : Scan) {kind : TokenKind} (empty : kind.isInline = false)
    (defined : d.defines kind) : Genuine d (s.detached lines kind) where
  real := rfl
  bare _ := ⟨rfl, rfl⟩
  filled inline := absurd (show kind.isInline from inline) (by simp [empty])
  defined := defined

theorem genuine_cut (s : Scan) {kind : TokenKind} (count : Nat) (plain : kind.isLayout = false)
    (filled : kind.isInline → s.rest.take count ≠ []) (defined : d.defines kind) :
    Genuine d (s.cut lines kind count).1 where
  real := rfl
  bare layout := absurd (show kind.isLayout from layout) (by simp [plain])
  filled inline := by simpa [cut] using filled inline
  defined := defined

theorem genuine_indent (s : Scan) (column : Nat) :
    ∀ token ∈ (s.indent lines column).1, Genuine d token ∧ token.kind.isLayout := by
  intro token member
  simp only [indent, List.mem_append, List.mem_replicate] at member
  rcases member with ⟨-, rfl⟩ | opened
  · exact ⟨genuine_detached s rfl (defines_structural (by decide)), rfl⟩
  · split at opened
    · obtain rfl := List.mem_singleton.1 opened
      exact ⟨genuine_detached s rfl (defines_structural (by decide)), rfl⟩
    · cases opened

/-- The tokens at the end of the text. -/
theorem mem_finish {s : Scan} {token : Token} (member : token ∈ s.finish lines) :
    s.inStatement ∧ token = s.detached lines .newline ∨ token = s.detached lines .dedent ∨
      token = (s.cut lines .endOfFile 0).1 := by
  simp only [finish, List.mem_append, List.mem_replicate, List.mem_singleton] at member
  rcases member with (line | ⟨-, dedent⟩) | last
  · split at line
    next waits => exact .inl ⟨waits, List.mem_singleton.1 line⟩
    next => cases line
  · exact .inr (.inl dedent)
  · exact .inr (.inr last)

theorem genuine_finish (s : Scan) : ∀ token ∈ s.finish lines, Genuine d token := by
  intro token member
  obtain ⟨-, rfl⟩ | rfl | rfl := mem_finish member
  · exact genuine_detached s rfl (defines_structural (by decide))
  · exact genuine_detached s rfl (defines_structural (by decide))
  · exact genuine_cut s 0 rfl (fun inline => by cases inline) (defines_structural (by decide))

theorem sourceOf_finish (s : Scan) : sourceOf (s.finish lines) = s.gap := by
  have layout : ∀ token ∈ (if s.inStatement then [s.detached lines .newline] else []) ++
      List.replicate (s.columns.length - 1) (s.detached lines .dedent),
      token.text = "" ∧ token.lead = "" := by
    intro token member
    rw [List.mem_append, List.mem_replicate] at member
    rcases member with line | ⟨-, rfl⟩
    · split at line
      · obtain rfl := List.mem_singleton.1 line
        exact ⟨rfl, rfl⟩
      · cases line
    · exact ⟨rfl, rfl⟩
  rw [finish, sourceOf_append, sourceOf_eq_nil layout, sourceOf_cons _ _ rfl]
  simp [cut, sourceOf]

theorem Cuts.genuine {s : Scan} {tokens : List Token} (cuts : Cuts d lines s tokens) :
    ∀ token ∈ tokens, Genuine d token := by
  induction cuts with
  | @ends s => exact genuine_finish s
  | skip _ _ ih => exact ih
  | @comment s _ count _ ih =>
    exact List.forall_mem_cons.2 ⟨genuine_cut s count rfl (fun inline => by cases inline)
      (defines_structural (by decide)), ih⟩
  | @newline s _ count _ ih =>
    exact List.forall_mem_cons.2 ⟨genuine_cut s count rfl (fun inline => by cases inline)
      (defines_structural (by decide)), ih⟩
  | @layout s _ column _ _ ih =>
    intro token member
    rw [List.mem_append] at member
    exact member.elim (fun early => (genuine_indent s column token early).1) (ih token)
  | @lexeme s _ _ nonempty _ ih =>
    have word := isLexeme_scanLexeme (d := d) s.rest
    have longer := scanLexeme_pos d nonempty
    have filled : s.rest.take (scanLexeme d s.rest).2 ≠ [] := by
      rw [ne_eq, List.take_eq_nil_iff, not_or]
      exact ⟨by omega, nonempty⟩
    exact List.forall_mem_cons.2
      ⟨genuine_cut s _ (TokenKind.plain_of_isInline word.1) (fun _ => filled) word.2, ih⟩

/-- No character is lost. -/
theorem Cuts.source {s : Scan} {tokens : List Token} (cuts : Cuts d lines s tokens) :
    sourceOf tokens = s.gap ++ s.rest := by
  induction cuts with
  | @ends s ended => rw [sourceOf_finish, ended, List.append_nil]
  | skip count _ ih => simp [ih, Scan.skip]
  | comment count _ ih => simp [sourceOf_cons, ih, cut]
  | newline count _ ih => simp [sourceOf_cons, ih, cut, lineEnded]
  | @layout s _ column _ _ ih =>
    have bare : ∀ token ∈ (s.indent lines column).1, token.text = "" ∧ token.lead = "" :=
      fun token member => by
        have layout := genuine_indent (d := d) s column token member
        exact layout.1.bare layout.2
    rw [sourceOf_append, sourceOf_eq_nil bare, ih]
    rfl
  | lexeme _ _ _ ih => simp [sourceOf_cons, ih, significant, cut]

end Scan

theorem lex_cuts (d : Dialect) (text : String) :
    Scan.Cuts d (.ofChars text.toList) (.start text.toList) (lex d text) :=
  Scan.cuts_collect _ d _

/-- Put together, the tokens of a text are the text. -/
theorem sourceOf_lex (d : Dialect) (text : String) : sourceOf (lex d text) = text.toList :=
  (lex_cuts d text).source

theorem genuine_lex (d : Dialect) (text : String) : ∀ token ∈ lex d text, Genuine d token :=
  (lex_cuts d text).genuine

end TolerantParser
