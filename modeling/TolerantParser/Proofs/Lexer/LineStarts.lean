import Mathlib.Order.Bounds.Basic
import TolerantParser.Proofs.Lexer.Standing
import TolerantParser.Proofs.Text.Places

/-!
Which tokens start a line. A scan remembers one line, that of the last character of the last token. No token reaches
further down than that one, so the line is the greatest of all that the tokens have characters on (`Marked`), and a
token that begins below it is the first on its line.
-/

namespace TolerantParser

variable {d : Dialect} {text : List Char} {s : Scan} {before : List Token}

/-- The lines that the tokens have characters on. -/
def takenLines (text : List Char) (tokens : List Token) : Set Nat :=
  {line | ∃ token ∈ tokens, ∃ i < token.text.length,
    ((LineIndex.ofChars text).position (token.range.start + i)).line = line}

/-- The flag of a token behind others: one that stands by itself has none, and of the rest those that begin on a line
on which no other has a character. -/
structure Token.Flagged (text : List Char) (before : List Token) (token : Token) : Prop where
  detached : token.isDetached → token.startsLine = false
  starts : token.isDetached = false →
    (token.startsLine ↔ ((LineIndex.ofChars text).position token.range.start).line ∉ takenLines text before)

/-- Each of the tokens has the flag that is due to it behind those in front of it. -/
def AllFlagged (text : List Char) (before tokens : List Token) : Prop :=
  ∀ front token back, tokens = front ++ token :: back → token.Flagged text (before ++ front)

theorem LineIndex.line_mono (text : List Char) : Monotone fun offset => ((ofChars text).position offset).line := by
  intro offset further le
  simp only [position_endedLines]
  exact Nat.add_le_add_left (endedLines_mono text le) 1

theorem takenLines_append (before after : List Token) :
    takenLines text (before ++ after) = takenLines text before ∪ takenLines text after := by
  ext line
  simp only [takenLines, List.mem_append, Set.mem_union, Set.mem_ofPred_eq, or_and_right, exists_or]

theorem takenLines_empty {tokens : List Token} (empty : ∀ token ∈ tokens, token.text = "") :
    takenLines text tokens = ∅ := by
  refine Set.eq_empty_of_forall_notMem fun line ⟨token, member, i, inside, _⟩ => ?_
  rw [empty token member] at inside
  exact absurd inside (Nat.not_lt_zero i)

theorem AllFlagged.nil : AllFlagged text before [] := fun front token back split => by simp at split

theorem AllFlagged.append {tokens more : List Token} (here : AllFlagged text before tokens)
    (there : AllFlagged text (before ++ tokens) more) : AllFlagged text before (tokens ++ more) := by
  intro front token back split
  rcases Scan.split_append split with ⟨rest, first⟩ | ⟨later, rfl, second⟩
  · exact here front token rest first
  · rw [← List.append_assoc]
    exact there later token back second

theorem AllFlagged.singleton {token : Token} (flagged : token.Flagged text before) :
    AllFlagged text before [token] := by
  intro front other back split
  obtain ⟨rfl, rfl, -⟩ : front = [] ∧ other = token ∧ back = [] := by
    cases front with
    | nil => simpa [eq_comm] using split
    | cons first front => simp at split
  rwa [List.append_nil]

theorem AllFlagged.detached {tokens : List Token}
    (all : ∀ token ∈ tokens, token.isDetached ∧ token.startsLine = false) : AllFlagged text before tokens := by
  intro front token back split
  obtain ⟨detached, unmarked⟩ := all token (by simp [split])
  exact ⟨fun _ => unmarked, fun attached => by simp [detached] at attached⟩

namespace Scan

/-- The scan has come past the tokens, and remembers the greatest line that they have characters on. -/
structure Marked (text : List Char) (before : List Token) (s : Scan) : Prop where
  behind : ∀ token ∈ before, token.range.start + token.text.length ≤ s.offset
  unmet : s.lastLine = none → takenLines text before = ∅
  met : ∀ line, s.lastLine = some line → IsGreatest (takenLines text before) line

theorem Marked.start (text : List Char) : Marked text [] (.start text) where
  behind := List.forall_mem_nil _
  unmet _ := takenLines_empty (List.forall_mem_nil _)
  met _ same := by cases same

/-- Nothing changes where a scan goes on without a token that has text. -/
theorem Marked.onward (marked : s.Marked text before) (next : Scan) (later : s.offset ≤ next.offset)
    (same : next.lastLine = s.lastLine) {empty : List Token}
    (all : ∀ token ∈ empty, token.text = "" ∧ token.range.start ≤ next.offset) :
    next.Marked text (before ++ empty) := by
  have lines : takenLines text (before ++ empty) = takenLines text before := by
    rw [takenLines_append, takenLines_empty fun token member => (all token member).1, Set.union_empty]
  refine ⟨fun token member => ?_, ?_, ?_⟩
  · rcases List.mem_append.1 member with earlier | added
    · exact Nat.le_trans (marked.behind token earlier) later
    · obtain ⟨bare, le⟩ := all token added
      simpa [bare] using le
  · rw [lines, same]
    exact marked.unmet
  · rw [lines, same]
    exact marked.met

theorem Marked.skip (marked : s.Marked text before) (count : Nat) : (s.skip count).Marked text before := by
  have onward := marked.onward (s.skip count) (Nat.le_add_right ..) rfl (List.forall_mem_nil _)
  rwa [List.append_nil] at onward

/-- No line of the tokens is below the one that the scan is on. -/
theorem Marked.taken_le (marked : s.Marked text before) :
    ∀ line ∈ takenLines text before, line ≤ ((LineIndex.ofChars text).position s.offset).line := by
  rintro line ⟨token, member, i, inside, rfl⟩
  have within := marked.behind token member
  exact LineIndex.line_mono text (by omega : token.range.start + i ≤ s.offset)

/-- A token that is cut off has the flag exactly if the line it begins on is still free. -/
theorem Marked.startsLine_cut (marked : s.Marked text before) (kind : TokenKind) (count : Nat) :
    (s.cut (.ofChars text) kind count).1.startsLine ↔
      ((LineIndex.ofChars text).position s.offset).line ∉ takenLines text before := by
  have bounded := marked.taken_le
  simp only [Scan.cut]
  cases last : s.lastLine with
  | none => simp [marked.unmet last]
  | some line =>
    have greatest := marked.met line last
    rw [Option.all_some, decide_eq_true_iff]
    constructor
    · exact fun less member => absurd (greatest.2 member) (Nat.not_le.2 less)
    · intro free
      refine Nat.lt_of_le_of_ne (bounded line greatest.1) ?_
      rintro rfl
      exact free greatest.1

/-- A token with text is flagged, and the line of its last character is the greatest behind it. -/
theorem Marked.cut (marked : s.Marked text before) (kind : TokenKind) {count : Nat} (plain : kind.isLayout = false)
    (filled : s.rest.take count ≠ []) :
    (s.cut (.ofChars text) kind count).1.Flagged text before ∧
      (s.cut (.ofChars text) kind count).2.Marked text (before ++ [(s.cut (.ofChars text) kind count).1]) := by
  have starts := marked.startsLine_cut kind count
  have some' : 0 < (s.rest.take count).length := List.length_pos_iff.2 filled
  have attached : (s.cut (.ofChars text) kind count).1.isDetached = false := by
    simp [Token.isDetached, Scan.cut, plain, filled]
  have length : (s.cut (.ofChars text) kind count).1.text.length = (s.rest.take count).length := by simp [Scan.cut]
  have last : (s.cut (.ofChars text) kind count).2.lastLine =
      some ((LineIndex.ofChars text).position (s.offset + (s.rest.take count).length - 1)).line := by
    simp only [Scan.cut, List.isEmpty_eq_false_iff.2 filled, Bool.false_eq_true, if_false]
  refine ⟨⟨fun detached => ?_, fun _ => starts⟩, ⟨fun token member => ?_, fun unmet => ?_, fun line met => ?_⟩⟩
  · rw [attached] at detached
    cases detached
  · rcases List.mem_append.1 member with earlier | added
    · exact Nat.le_trans (marked.behind token earlier) (Nat.le_add_right ..)
    · rw [List.mem_singleton] at added
      rw [added, length]
      exact Nat.le_refl _
  · rw [last] at unmet
    cases unmet
  · rw [last, Option.some.injEq] at met
    subst met
    constructor
    · rw [takenLines_append]
      refine .inr ⟨_, List.mem_singleton_self _, (s.rest.take count).length - 1, by omega, ?_⟩
      rw [show (s.cut (.ofChars text) kind count).1.range.start = s.offset from rfl, Nat.add_sub_assoc some']
    · rw [takenLines_append]
      rintro line (earlier | ⟨token, member, i, inside, rfl⟩)
      · exact Nat.le_trans (marked.taken_le line earlier)
          (LineIndex.line_mono text (by omega : s.offset ≤ s.offset + (s.rest.take count).length - 1))
      · rw [List.mem_singleton] at member
        subst member
        rw [length] at inside
        exact LineIndex.line_mono text
          (by omega : s.offset + i ≤ s.offset + (s.rest.take count).length - 1)

/-- The tokens of the layout have no flag and no text. -/
theorem Marked.layout (marked : s.Marked text before) (blanks : List Char) :
    AllFlagged text before (s.layout (.ofChars text) blanks).1 ∧
      (s.layout (.ofChars text) blanks).2.Marked text (before ++ (s.layout (.ofChars text) blanks).1) := by
  have past := marked.skip blanks.length
  unfold Scan.layout
  split
  next here =>
    have all : ∀ token ∈ ((s.skip blanks.length).indent (.ofChars text) (columnAfter blanks)).1,
        (token.isDetached ∧ token.startsLine = false) ∧
          token.text = "" ∧ token.range.start ≤ (s.skip blanks.length).offset := fun token member => by
      obtain ⟨kind, layout, rfl⟩ := mem_indent member
      exact ⟨⟨by simp [Token.isDetached, Scan.detached, layout], rfl⟩, rfl, Nat.le_refl _⟩
    refine ⟨.detached fun token member => (all token member).1, ?_⟩
    exact past.onward ((s.skip blanks.length).indent (.ofChars text) (columnAfter blanks)).2 (Nat.le_refl _) rfl
      fun token member => (all token member).2
  next inside =>
    rw [List.append_nil]
    exact ⟨.nil, past⟩

/-- The end of the text is flagged like a token with text. -/
theorem Marked.finish (marked : s.Marked text before) : AllFlagged text before (s.finish (.ofChars text)) := by
  rw [Scan.finish]
  have all : ∀ token ∈ (if s.inStatement then [s.detached (.ofChars text) .newline] else []) ++
      List.replicate (s.columns.length - 1) (s.detached (.ofChars text) .dedent),
      (token.isDetached ∧ token.startsLine = false) ∧ token.text = "" ∧ token.range.start ≤ s.offset := by
    intro token member
    rw [List.mem_append, List.mem_replicate] at member
    rcases member with line | ⟨-, rfl⟩
    · split at line
      · rw [List.mem_singleton.1 line]
        exact ⟨⟨rfl, rfl⟩, rfl, Nat.le_refl _⟩
      · cases line
    · exact ⟨⟨rfl, rfl⟩, rfl, Nat.le_refl _⟩
  have behind := marked.onward s (Nat.le_refl s.offset) rfl fun token member => (all token member).2
  refine .append (.detached fun token member => (all token member).1) (.singleton ⟨fun detached => ?_, fun _ => ?_⟩)
  · cases detached
  · exact behind.startsLine_cut .endOfFile 0

/-- One stride: its tokens are flagged, and the scan behind it remembers the greatest line. -/
theorem Stride.marked {tokens : List Token} {next? : Option Scan} (stride : Stride d (.ofChars text) s tokens next?)
    (marked : s.Marked text before) :
    AllFlagged text before tokens ∧ ∀ next ∈ next?, next.Marked text (before ++ tokens) := by
  cases stride with
  | ends => exact ⟨(marked.skip _).finish, fun _ none => by cases none⟩
  | @comment blanks body rest split _ comment =>
    have filled : (s.skip blanks.length).rest.take body.length ≠ [] := by
      obtain ⟨tail, front⟩ := List.head?_eq_some_iff.1 comment.marked
      rw [rest_past split, List.take_left, front]
      exact List.cons_ne_nil _ _
    obtain ⟨flagged, behind⟩ := (marked.skip blanks.length).cut .comment rfl filled
    exact ⟨.singleton flagged, fun _ same => Option.some.inj same ▸ behind⟩
  | @passed blanks ending =>
    rw [List.append_nil]
    exact ⟨.nil, fun _ same => Option.some.inj same ▸ (marked.skip _).skip _⟩
  | @newline blanks ending rest split _ ends =>
    have filled : (s.skip blanks.length).rest.take ending.length ≠ [] := by
      rw [rest_past split, List.take_left]
      cases ends <;> exact List.cons_ne_nil _ _
    obtain ⟨flagged, behind⟩ := (marked.skip blanks.length).cut .newline rfl filled
    exact ⟨.singleton flagged, fun _ same => Option.some.inj same ▸ ⟨behind.behind, behind.unmet, behind.met⟩⟩
  | @joined blanks ending =>
    obtain ⟨flagged, behind⟩ := marked.layout blanks
    exact ⟨flagged, fun _ same => Option.some.inj same ▸ behind.skip _⟩
  | @lexeme blanks c tail split =>
    obtain ⟨flagged, behind⟩ := marked.layout blanks
    have front : (s.layout (.ofChars text) blanks).2.rest = c :: tail := rest_pastLayout split
    have filled : (s.layout (.ofChars text) blanks).2.rest.take
        (scanLexeme d (s.layout (.ofChars text) blanks).2.rest).2 ≠ [] := by
      have taken : 0 < (scanLexeme d (c :: tail)).2 := scanLexeme_pos d (List.cons_ne_nil c tail)
      rw [front]
      simpa using Nat.ne_of_gt taken
    have word := (isLexeme_scanLexeme (d := d) (s.layout (.ofChars text) blanks).2.rest).1
    obtain ⟨last, further⟩ := behind.cut _ (TokenKind.plain_of_isInline word) filled
    refine ⟨flagged.append (.singleton last), fun _ same => Option.some.inj same ▸ ?_⟩
    rw [← List.append_assoc]
    exact ⟨further.behind, further.unmet, further.met⟩

/-- A run over the text flags all of its tokens. -/
theorem Strides.marked {tokens : List Token} (strides : Strides d (.ofChars text) s tokens)
    (marked : s.Marked text before) : AllFlagged text before tokens := by
  induction strides generalizing before with
  | last stride => exact (stride.marked marked).1
  | step stride _ ih =>
    obtain ⟨flagged, behind⟩ := stride.marked marked
    exact flagged.append (ih (behind _ rfl))

end Scan

/-- A token of a text starts a line, as its flag has it, exactly if no earlier token has a character on the line that
it begins on. The tokens that open and close blocks, and a line end that the text does not have, never do. -/
theorem lex_startsLine (d : Dialect) (text : String) :
    (∀ before token after, lex d text = before ++ token :: after → token.isDetached = false →
      (token.startsLine = true ↔ ∀ earlier ∈ before, ∀ i < earlier.text.length,
        endedLines text.toList (earlier.range.start + i) ≠ endedLines text.toList token.range.start)) ∧
    ∀ token ∈ lex d text, token.isDetached = true → token.startsLine = false := by
  have flagged := (lex_strides d text).marked (.start text.toList)
  refine ⟨fun before token after split attached => ?_, fun token member => ?_⟩
  · rw [(flagged before token after split).starts attached, List.nil_append]
    simp [takenLines, LineIndex.position_endedLines]
  · obtain ⟨before, after, split⟩ := List.append_of_mem member
    exact (flagged before token after split).detached

end TolerantParser
