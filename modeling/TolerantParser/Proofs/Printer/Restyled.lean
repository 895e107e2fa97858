import TolerantParser.Printer.Basic
import TolerantParser.Proofs.Text.Lines

/-!
What preferences do to a text and its tokens. Line ends are written in one way or as they are, so that a text has as
many lines as before, and a token is written with the lead and the text that it has or that are preferred
(`Prefs.Styles`). What is written so is written in the same way again.
-/

namespace TolerantParser

variable {prefs : Prefs} {text more rest out ending : List Char}

theorem plain_of_blank {c : Char} (blank : isBlank c) : isLineEndChar c = false := by
  simp only [isBlank, Bool.or_eq_true, beq_iff_eq, or_assoc] at blank
  rcases blank with rfl | rfl | rfl <;> rfl

namespace Prefs

/-! ### Line ends -/

theorem normalizeLineEnds_plain {c : Char} (plain : isLineEndChar c = false) (style rest : List Char) :
    normalizeLineEnds style (c :: rest) = c :: normalizeLineEnds style rest := by
  have return' : c ≠ '\r' := by
    rintro rfl
    cases plain
  have feed : c ≠ '\n' := by
    rintro rfl
    cases plain
  cases rest with
  | nil => simp [normalizeLineEnds]
  | cons other rest => simp [normalizeLineEnds, return']

theorem normalizeLineEnds_ending (ends : IsLineEnd ending rest) (style : List Char) :
    normalizeLineEnds style (ending ++ rest) = style ++ normalizeLineEnds style rest := by
  cases ends with
  | lf | crlf => rfl
  | cr alone =>
    cases rest with
    | nil => rfl
    | cons c rest =>
      have plain : c ≠ '\n' := by simpa using alone
      simp [normalizeLineEnds, plain]

/-- A line end as it is written. -/
def lineEnd (prefs : Prefs) (ending : List Char) : List Char :=
  match prefs.lineEnding with
  | none => ending
  | some style => style.text.toList

/-- A text with its line ends as they are written. -/
def respell (prefs : Prefs) (text : List Char) : List Char :=
  match prefs.lineEnding with
  | none => text
  | some style => normalizeLineEnds style.text.toList text

@[simp] theorem respell_nil (prefs : Prefs) : prefs.respell [] = [] := by
  unfold respell
  split <;> rfl

theorem respell_plain {c : Char} (plain : isLineEndChar c = false) (rest : List Char) :
    prefs.respell (c :: rest) = c :: prefs.respell rest := by
  unfold respell
  split
  · rfl
  · exact normalizeLineEnds_plain plain _ rest

theorem respell_ending (ends : IsLineEnd ending rest) :
    prefs.respell (ending ++ rest) = prefs.lineEnd ending ++ prefs.respell rest := by
  unfold respell lineEnd
  split
  · rfl
  · exact normalizeLineEnds_ending ends _

theorem respell_inline (inline : ∀ c ∈ text, isLineEndChar c = false) : prefs.respell text = text := by
  induction text with
  | nil => exact prefs.respell_nil
  | cons c rest ih =>
    rw [List.forall_mem_cons] at inline
    rw [respell_plain inline.1, ih inline.2]

theorem respell_append (apart : Parted text more) :
    prefs.respell (text ++ more) = prefs.respell text ++ prefs.respell more := by
  induction text using lineInduction with
  | nil => rw [respell_nil, List.nil_append, List.nil_append]
  | plain c rest plain ih =>
    have apart' : Parted rest more := fun pair => apart ⟨by rw [List.getLast?_cons, pair.1]; rfl, pair.2⟩
    rw [List.cons_append, respell_plain plain, respell_plain plain, ih apart', List.cons_append]
  | ending ending rest ends ih =>
    have apart' : Parted rest more := fun pair => apart ⟨by rw [List.getLast?_append, pair.1]; rfl, pair.2⟩
    rw [List.append_assoc, respell_ending (ends.onto apart), respell_ending ends, ih apart', List.append_assoc]

/-- A text begins with a line feed only where the text that it stands for does, and never where line ends are carriage
returns. -/
def Feeds (prefs : Prefs) (text out : List Char) : Prop :=
  out.head? = some '\n' → prefs.lineEnding ≠ some .cr ∧ (prefs.lineEnding = none → text.head? = some '\n')

/-- A line end is written as one, whatever comes behind it. -/
theorem isLineEnd_lineEnd (ends : IsLineEnd ending rest) (feeds : prefs.Feeds rest out) :
    IsLineEnd (prefs.lineEnd ending) out := by
  unfold lineEnd
  unfold Feeds at feeds
  split
  next kept =>
    cases ends with
    | lf => exact .lf out
    | crlf => exact .crlf out
    | cr alone => exact .cr fun first => alone ((feeds first).2 kept)
  next style chosen =>
    cases style with
    | lf => exact .lf out
    | crlf => exact .crlf out
    | cr => exact .cr fun first => (feeds first).1 chosen

theorem head?_lineEnd (prefs : Prefs) (ends : IsLineEnd ending rest) :
    ∃ c tail, prefs.lineEnd ending = c :: tail ∧ isLineEndChar c ∧
      (c = '\n' → prefs.lineEnding ≠ some .cr ∧ (prefs.lineEnding = none → ending.head? = some '\n')) := by
  unfold lineEnd
  cases prefs.lineEnding with
  | none => cases ends <;> exact ⟨_, _, rfl, by decide, by decide⟩
  | some style =>
    cases style with
    | lf => exact ⟨'\n', [], rfl, by decide, fun _ => ⟨by decide, nofun⟩⟩
    | crlf => exact ⟨'\r', ['\n'], rfl, by decide, fun feed => absurd feed (by decide)⟩
    | cr => exact ⟨'\r', [], rfl, by decide, fun feed => absurd feed (by decide)⟩

theorem feeds_plain {c : Char} (plain : c ≠ '\n') (out : List Char) : prefs.Feeds text (c :: out) :=
  fun first => absurd (Option.some.inj first) plain

theorem feeds_lineEnd (ends : IsLineEnd ending rest) (out : List Char) :
    prefs.Feeds (ending ++ rest) (prefs.lineEnd ending ++ out) := by
  obtain ⟨c, tail, front, -, feed⟩ := prefs.head?_lineEnd ends
  rw [front]
  intro first
  obtain ⟨notReturn, same⟩ := feed (Option.some.inj first)
  refine ⟨notReturn, fun kept => ?_⟩
  rw [List.head?_append, same kept]
  rfl

theorem feeds_respell (prefs : Prefs) (text : List Char) : prefs.Feeds text (prefs.respell text) := by
  cases text using lineInduction with
  | nil =>
    rw [respell_nil]
    exact nofun
  | plain c rest plain _ =>
    rw [respell_plain plain]
    refine feeds_plain ?_ _
    rintro rfl
    cases plain
  | ending ending rest ends _ =>
    rw [respell_ending ends]
    exact feeds_lineEnd ends _

/-- No line is lost, and none is gained. -/
theorem lineCount_respell (prefs : Prefs) (text : List Char) : lineCount (prefs.respell text) = lineCount text := by
  induction text using lineInduction with
  | nil => rw [respell_nil]
  | plain c rest plain ih => rw [respell_plain plain, lineCount_plain plain, lineCount_plain plain, ih]
  | ending ending rest ends ih =>
    rw [respell_ending ends, lineCount_ending ends, ← ih]
    exact lineCount_ending (isLineEnd_lineEnd ends (prefs.feeds_respell rest))

theorem lineEnd_lineEnd (prefs : Prefs) (ending : List Char) :
    prefs.lineEnd (prefs.lineEnd ending) = prefs.lineEnd ending := by
  unfold lineEnd
  split <;> rfl

/-- What is written is written in the same way again. -/
theorem respell_respell (prefs : Prefs) (text : List Char) :
    prefs.respell (prefs.respell text) = prefs.respell text := by
  induction text using lineInduction with
  | nil => rw [respell_nil, respell_nil]
  | plain c rest plain ih => rw [respell_plain plain, respell_plain plain, ih]
  | ending ending rest ends ih =>
    rw [respell_ending ends, respell_ending (isLineEnd_lineEnd ends (prefs.feeds_respell rest)), ih, lineEnd_lineEnd]

/-- Whether all characters are of a sort does not change, if no line end is of it. -/
theorem all_respell {p : Char → Bool} (never : ∀ c, isLineEndChar c → p c = false) (prefs : Prefs) (text : List Char) :
    (prefs.respell text).all p = text.all p := by
  induction text using lineInduction with
  | nil => rw [respell_nil]
  | plain c rest plain ih => rw [respell_plain plain, List.all_cons, List.all_cons, ih]
  | ending ending rest ends ih =>
    obtain ⟨c, tail, front, lineEnd, -⟩ := prefs.head?_lineEnd ends
    obtain ⟨first, others, split, ends', -⟩ := ends.head
    rw [respell_ending ends, front, split, List.cons_append, List.all_cons, List.all_cons, never c lineEnd,
      never first ends', Bool.false_and, Bool.false_and]

/-! ### Tokens -/

/-- The lead that a token is written with behind one of kind `previous`. -/
def leadWritten (prefs : Prefs) (previous : Option TokenKind) (token : Token) : List Char :=
  prefs.respell (prefs.leadOf previous token).toList

/-- The text that a token is written with. -/
def textWritten (prefs : Prefs) (token : Token) : List Char :=
  if token.kind == .newline && !token.text.isEmpty then prefs.lineEnd token.text.toList else token.text.toList

theorem toList_writeToken (previous : Option TokenKind) (token : Token) :
    (prefs.writeToken previous token).toList = prefs.leadWritten previous token ++ prefs.textWritten token := by
  unfold writeToken leadWritten textWritten respell lineEnd
  cases prefs.lineEnding with
  | none => simp
  | some style =>
    dsimp only
    split <;> simp

/-- The kind of the token before, behind a token. Block layout is invisible. -/
def behind (previous : Option TokenKind) (kind : TokenKind) : Option TokenKind :=
  if kind.isLayout then previous else some kind

/-- The kind of the token before, behind some tokens. -/
def behindAll (previous : Option TokenKind) (tokens : List Token) : Option TokenKind :=
  tokens.foldl (fun previous token => behind previous token.kind) previous

/-- Tokens as they are written behind one of kind `previous`. -/
def dress (prefs : Prefs) : Option TokenKind → List Token → List Char
  | _, [] => []
  | previous, token :: rest =>
    prefs.leadWritten previous token ++ prefs.textWritten token ++ prefs.dress (behind previous token.kind) rest

theorem toList_foldl_writeToken (cells : List Cell) (text : String) (previous : Option TokenKind) :
    (cells.foldl (fun (text, previous) cell => (text ++ prefs.writeToken previous cell.toToken,
      if cell.kind.isLayout then previous else some cell.kind)) (text, previous)).1.toList =
      text.toList ++ prefs.dress previous (cells.map Cell.toToken) := by
  induction cells generalizing text previous with
  | nil => exact (List.append_nil text.toList).symm
  | cons cell rest ih =>
    rw [List.foldl_cons, ih, List.map_cons, dress, String.toList_append, toList_writeToken]
    simp only [List.append_assoc]
    rfl

theorem toList_write (cells : List Cell) :
    (prefs.write cells).toList = prefs.dress none (cells.map Cell.toToken) :=
  toList_foldl_writeToken cells "" none

/-- The one token is what the other one is written as, behind one of kind `previous`. -/
structure Styles (prefs : Prefs) (previous : Option TokenKind) (token other : Token) : Prop where
  kind : other.kind = token.kind
  text : other.text.toList = prefs.textWritten token
  lead : other.lead.toList = prefs.leadWritten previous token
  startsLine : other.startsLine = token.startsLine

/-- The one tokens are what the other ones are written as. -/
inductive Styled (prefs : Prefs) : Option TokenKind → List Token → List Token → Prop
  | nil {previous : Option TokenKind} : Styled prefs previous [] []
  | cons {previous : Option TokenKind} {token other : Token} {rest others : List Token} :
      prefs.Styles previous token other → Styled prefs (behind previous token.kind) rest others →
      Styled prefs previous (token :: rest) (other :: others)

theorem Styled.append {previous : Option TokenKind} {tokens others rest rest' : List Token}
    (first : prefs.Styled previous tokens others) (later : prefs.Styled (behindAll previous tokens) rest rest') :
    prefs.Styled previous (tokens ++ rest) (others ++ rest') := by
  induction first with
  | nil => exact later
  | cons styles _ ih => exact .cons styles (ih later)

/-- A line end that is not empty is written as one that is not empty. -/
theorem lineEnd_ne_nil {ending : List Char} (filled : ending ≠ []) : prefs.lineEnd ending ≠ [] := by
  unfold lineEnd
  split
  · exact filled
  next style _ => cases style <;> exact List.cons_ne_nil _ _

theorem all_spaces (count : Nat) : (spaces count).toList.all (fun c => c == ' ' || c == '\t') := by
  simp [spaces, List.all_replicate]

/-- Blanks are changed in front of a comment and behind a comma, where they may be, and nowhere else. -/
theorem leadOf_cases (prefs : Prefs) (previous : Option TokenKind) (token : Token) :
    prefs.leadOf previous token = token.lead ∨ isInline token ∧ (token.kind = .comment ∨ previous = some .comma) ∧
      ∃ count, prefs.leadOf previous token = spaces count := by
  unfold leadOf
  split
  next comment =>
    split
    · split
      next inline => exact .inr ⟨(Bool.and_eq_true_iff.1 inline).1, .inl (eq_of_beq comment), _, rfl⟩
      next => exact .inl rfl
    · exact .inl rfl
  next =>
    split
    · split
      next inline =>
        obtain ⟨behind, inline⟩ := Bool.and_eq_true_iff.1 inline
        exact .inr ⟨inline, .inr (eq_of_beq (Bool.and_eq_true_iff.1 behind).1), _, rfl⟩
      next => exact .inl rfl
    · exact .inl rfl

theorem leadOf_kept {previous : Option TokenKind} {token : Token} (plain : token.kind ≠ .comment)
    (other : previous ≠ some .comma) : prefs.leadOf previous token = token.lead :=
  (prefs.leadOf_cases previous token).resolve_right fun changed => changed.2.1.elim plain other

theorem leadOf_closing {previous : Option TokenKind} {token : Token} (plain : token.kind ≠ .comment)
    (closes : closesAfterComma token.kind) : prefs.leadOf previous token = token.lead := by
  unfold leadOf
  rw [if_neg (by simpa using plain), closes]
  split
  · rw [Bool.not_true, Bool.and_false, Bool.false_and, if_neg Bool.false_ne_true]
  · rfl

theorem textWritten_plain {token : Token} (plain : token.kind ≠ .newline) :
    prefs.textWritten token = token.text.toList := by
  rw [textWritten, if_neg (by simp [plain])]

/-- A token without a text. -/
theorem textWritten_empty {token : Token} (empty : token.text = "") : prefs.textWritten token = [] := by
  rw [textWritten, empty, if_neg (by simp)]
  rfl

/-- Block layout that is not behind a comma is not seen in the text. -/
theorem dress_layout {previous : Option TokenKind} {tokens : List Token} (other : previous ≠ some .comma)
    (layout : ∀ token ∈ tokens, token.kind.isLayout ∧ token.text = "" ∧ token.lead = "") (more : List Token) :
    prefs.dress previous (tokens ++ more) = prefs.dress previous more := by
  induction tokens with
  | nil => rfl
  | cons token rest ih =>
    rw [List.forall_mem_cons] at layout
    obtain ⟨kind, text, lead⟩ := layout.1
    have plain : token.kind ≠ .comment := fun comment => by rw [comment] at kind; cases kind
    rw [List.cons_append, dress, leadWritten, leadOf_kept plain other, textWritten_empty text, lead,
      behind, if_pos kind, ih layout.2]
    exact congrArg (· ++ _) ((List.append_nil _).trans prefs.respell_nil)

/-- Blanks that may be changed are written as such, and others as others. -/
theorem Styles.isInline_eq {previous : Option TokenKind} {token other : Token}
    (styles : prefs.Styles previous token other) : isInline other = isInline token := by
  have written : (prefs.leadOf previous token).toList.all (fun c => c == ' ' || c == '\t') =
      other.lead.toList.all (fun c => c == ' ' || c == '\t') := by
    refine ((congrArg (List.all · _) styles.lead).trans (all_respell (fun c ends => ?_) prefs _)).symm
    simp only [isLineEndChar, Bool.or_eq_true, beq_iff_eq] at ends
    rcases ends with rfl | rfl <;> rfl
  rcases prefs.leadOf_cases previous token with kept | ⟨inline, -, count, blanks⟩
  · rw [kept] at written
    rw [isInline, isInline, styles.startsLine, ← written]
  · rw [blanks, all_spaces] at written
    rw [inline, isInline, styles.startsLine, ← written, Bool.and_true]
    exact (Bool.and_eq_true_iff.1 inline).1

theorem Styles.leadOf_eq {previous : Option TokenKind} {token other : Token}
    (styles : prefs.Styles previous token other) :
    prefs.leadOf previous other = prefs.leadOf previous token ∨ prefs.leadOf previous other = other.lead := by
  unfold leadOf
  rw [styles.kind, styles.isInline_eq]
  repeat' split
  all_goals first | exact .inl rfl | exact .inr rfl

/-- A token as it is written is written in the same way again. -/
theorem Styles.again {previous : Option TokenKind} {token other : Token} (styles : prefs.Styles previous token other) :
    prefs.leadWritten previous other = prefs.leadWritten previous token ∧
      prefs.textWritten other = prefs.textWritten token := by
  constructor
  · rcases styles.leadOf_eq with same | kept
    · rw [leadWritten, leadWritten, same]
    · rw [leadWritten, kept, styles.lead, leadWritten, respell_respell]
  · have text := styles.text
    unfold textWritten at text ⊢
    rw [styles.kind]
    by_cases line : (token.kind == .newline && !token.text.isEmpty) = true
    · have filled : token.text.toList ≠ [] := by
        have some := (Bool.and_eq_true_iff.1 line).2
        rw [Bool.not_eq_true', ← Bool.not_eq_true, String.isEmpty_iff] at some
        rwa [ne_eq, String.toList_eq_nil_iff]
      rw [if_pos line] at text ⊢
      rw [text, lineEnd_lineEnd]
      exact ite_self _
    · rw [if_neg line] at text ⊢
      rw [String.toList_inj.1 text, if_neg line]

theorem Styled.again {previous : Option TokenKind} {tokens others : List Token}
    (styled : prefs.Styled previous tokens others) : prefs.dress previous others = prefs.dress previous tokens := by
  induction styled with
  | nil => rfl
  | cons styles _ ih =>
    obtain ⟨lead, text⟩ := styles.again
    rw [dress, dress, lead, text, styles.kind, ih]

end Prefs

end TolerantParser
