import Mathlib.Data.List.Basic
import TolerantParser.Proofs.Lexer.Strides

/-!
Where tokens stand. A scan knows how far into the text it is, and the text since the last token that took its
lead (`Into`); so each token is the piece of the text that its range says, its lead reaches back to the end
of the last token that took one, and its places are those of its ends.
-/

namespace TolerantParser

variable {d : Dialect} {text : List Char} {s : Scan} {lines : LineIndex}

/-! ### Tokens in a text -/

namespace Token

/-- The tokens that leave the pending lead to the token behind them: block layout, and a line end that the
text does not have. -/
def isDetached (token : Token) : Bool :=
  token.kind.isLayout || (token.kind == .newline && token.text.isEmpty)

/-- The token is the piece of the text where it says it is; its lead begins at `seam`. -/
structure Stands (text : List Char) (seam : Nat) (token : Token) : Prop where
  piece : token.text.toList = text.extract token.range.start token.range.stop
  lead : token.isDetached = false → token.lead.toList = text.extract seam token.range.start
  first : (LineIndex.ofChars text).position? token.range.start = .ok token.first
  last : (LineIndex.ofChars text).position? token.range.stop = .ok token.last

end Token

/-- The end of the last of some tokens that took its lead, or `seam` if none did. -/
def seamBehind (seam : Nat) (tokens : List Token) : Nat :=
  (tokens.filter (!·.isDetached)).getLast?.elim seam (·.range.stop)

/-- Tokens that stand one behind the other, the first of them not before `reach`. -/
inductive Stand (text : List Char) : Nat → Nat → List Token → Prop
  | nil (seam reach : Nat) : Stand text seam reach []
  | cons {seam reach : Nat} {token : Token} {rest : List Token} : reach ≤ token.range.start →
      token.Stands text seam → Stand text (seamBehind seam [token]) token.range.stop rest →
      Stand text seam reach (token :: rest)

theorem seamBehind_cons (seam : Nat) (token : Token) (rest : List Token) :
    seamBehind seam (token :: rest) = seamBehind (seamBehind seam [token]) rest := by
  have split : (token :: rest).filter (!·.isDetached) =
      [token].filter (!·.isDetached) ++ rest.filter (!·.isDetached) := List.filter_append [token] rest
  rw [seamBehind, split, List.getLast?_append, seamBehind, seamBehind]
  cases (rest.filter (!·.isDetached)).getLast? <;> rfl

theorem seamBehind_detached (seam : Nat) {token : Token} (detached : token.isDetached) :
    seamBehind seam [token] = seam := by
  simp [seamBehind, detached]

theorem seamBehind_attached (seam : Nat) {token : Token} (attached : token.isDetached = false) :
    seamBehind seam [token] = token.range.stop := by
  simp [seamBehind, attached]

namespace Stand

variable {seam reach : Nat}

theorem sooner {tokens : List Token} (stand : Stand text seam reach tokens) {sooner : Nat}
    (le : sooner ≤ reach) : Stand text seam sooner tokens := by
  cases stand with
  | nil => exact .nil _ _
  | cons behind stands rest => exact .cons (Nat.le_trans le behind) stands rest

theorem stands {before after : List Token} {token : Token}
    (stand : Stand text seam reach (before ++ token :: after)) :
    token.Stands text (seamBehind seam before) := by
  induction before generalizing seam reach with
  | nil =>
    cases stand with
    | cons _ stands _ => exact stands
  | cons other before ih =>
    cases stand with
    | cons _ _ rest =>
      rw [seamBehind_cons]
      exact ih rest

theorem reach_le {tokens : List Token} (stand : Stand text seam reach tokens) :
    ∀ token ∈ tokens, reach ≤ token.range.start := by
  induction stand with
  | nil => exact List.forall_mem_nil _
  | cons behind _ _ ih =>
    refine List.forall_mem_cons.2 ⟨behind, fun other member => ?_⟩
    exact Nat.le_trans behind (Nat.le_trans (TextRange.ordered _) (ih other member))

/-- No token begins before the end of one that comes earlier. -/
theorem pairwise {tokens : List Token} (stand : Stand text seam reach tokens) :
    tokens.Pairwise fun token next => token.range.stop ≤ next.range.start := by
  induction stand with
  | nil => exact List.Pairwise.nil
  | cons _ _ rest ih => exact List.pairwise_cons.2 ⟨rest.reach_le, ih⟩

end Stand

/-! ### Scans in a text -/

namespace Scan

/-- The scan is so far into the text. -/
structure Into (text : List Char) (s : Scan) : Prop where
  split : ∃ before, text = before ++ s.gap ++ s.rest ∧ s.offset = (before ++ s.gap).length

/-- Where the pending lead begins. -/
def seam (s : Scan) : Nat := s.offset - s.gap.length

theorem Into.start (text : List Char) : Into text (.start text) := ⟨[], rfl, rfl⟩

theorem Into.skip (into : s.Into text) (count : Nat) :
    (s.skip count).Into text ∧ (s.skip count).seam = s.seam := by
  obtain ⟨before, split, offset⟩ := into.split
  refine ⟨⟨before, ?_, ?_⟩, ?_⟩
  · simp [Scan.skip, split]
  · simp only [Scan.skip, offset, List.length_append]
    omega
  · simp only [seam, Scan.skip, List.length_append]
    omega

theorem position?_ofChars {offset : Nat} (within : offset ≤ text.length) :
    (LineIndex.ofChars text).position? offset = .ok ((LineIndex.ofChars text).position offset) := by
  rw [LineIndex.position?, if_neg]
  · simp
  · simp only [LineIndex.ofChars]
    omega

/-- A token that is cut off stands in the text, and the scan behind it is where the token ends. -/
theorem Into.cut (into : s.Into text) (kind : TokenKind) (count : Nat) :
    (s.cut (.ofChars text) kind count).1.Stands text s.seam ∧
      (s.cut (.ofChars text) kind count).2.Into text ∧
      (s.cut (.ofChars text) kind count).2.seam = (s.cut (.ofChars text) kind count).1.range.stop := by
  obtain ⟨before, split, offset⟩ := into.split
  have seam : s.seam = before.length := by simp [Scan.seam, offset]
  have whole : text = before ++ (s.gap ++ (s.rest.take count ++ s.rest.drop count)) := by
    rw [List.take_append_drop, split, List.append_assoc]
  have starts : s.offset ≤ text.length := by simp [split, offset]
  have stops : s.offset + (s.rest.take count).length ≤ text.length := by
    rw [split, List.length_append, offset, List.length_take]
    omega
  refine ⟨⟨?_, fun _ => ?_, position?_ofChars starts, position?_ofChars stops⟩, ⟨?_⟩, ?_⟩
  · have front : text.drop s.offset = s.rest := by rw [split, offset, List.drop_left]
    simp [Scan.cut, List.extract, front]
  · have front : text.drop s.seam = s.gap ++ s.rest := by
      rw [seam, split, List.append_assoc, List.drop_left]
    have length : s.offset - s.seam = s.gap.length := by simp [seam, offset]
    simp [Scan.cut, List.extract, front, length]
  · refine ⟨before ++ s.gap ++ s.rest.take count, by simp [Scan.cut, whole], ?_⟩
    simp [Scan.cut, offset]
    omega
  · simp [Scan.seam, Scan.cut]

/-- A token that leaves the pending lead alone stands where the scan is. -/
theorem Into.detached (into : s.Into text) {kind : TokenKind}
    (empty : kind.isLayout || kind == .newline) :
    (s.detached (.ofChars text) kind).isDetached ∧ (s.detached (.ofChars text) kind).Stands text s.seam := by
  have detached : (s.detached (.ofChars text) kind).isDetached := by
    simpa [Token.isDetached, Scan.detached] using empty
  obtain ⟨before, split, offset⟩ := into.split
  have within : s.offset ≤ text.length := by simp [split, offset]
  refine ⟨detached, ⟨?_, fun attached => ?_, position?_ofChars within, position?_ofChars within⟩⟩
  · simp [Scan.detached, List.extract]
  · simp [detached] at attached

/-- Tokens where the scan is, which leave the pending lead alone, and the tokens behind them. -/
theorem Into.stand_detached (into : s.Into text) {empty rest : List Token}
    (all : ∀ token ∈ empty, ∃ kind : TokenKind, (kind.isLayout || kind == .newline) ∧
      token = s.detached (.ofChars text) kind)
    (stand : Stand text s.seam s.offset rest) : Stand text s.seam s.offset (empty ++ rest) := by
  induction empty with
  | nil => exact stand
  | cons token empty ih =>
    obtain ⟨here, others⟩ := List.forall_mem_cons.1 all
    obtain ⟨kind, bare, rfl⟩ := here
    obtain ⟨detached, stands⟩ := into.detached bare
    refine .cons (Nat.le_refl _) stands ?_
    rw [seamBehind_detached _ detached]
    exact ih others

/-- A token that takes the pending lead, and the tokens behind it. -/
theorem Into.stand_cut (into : s.Into text) {kind : TokenKind} {count : Nat} {rest : List Token}
    (plain : kind.isLayout = false) (filled : kind = .newline → s.rest.take count ≠ [])
    (stand : Stand text (s.cut (.ofChars text) kind count).2.seam
      (s.cut (.ofChars text) kind count).2.offset rest) :
    Stand text s.seam s.offset ((s.cut (.ofChars text) kind count).1 :: rest) := by
  obtain ⟨stands, -, seam⟩ := into.cut kind count
  have attached : (s.cut (.ofChars text) kind count).1.isDetached = false := by
    rw [Token.isDetached, Bool.or_eq_false_iff, Bool.and_eq_false_imp]
    refine ⟨plain, fun line => ?_⟩
    simpa [Scan.cut] using filled (eq_of_beq line)
  refine .cons (Nat.le_refl _) stands ?_
  rw [seamBehind_attached _ attached, ← seam]
  exact stand

theorem mem_indent {column : Nat} {token : Token} (member : token ∈ (s.indent lines column).1) :
    ∃ kind : TokenKind, kind.isLayout ∧ token = s.detached lines kind := by
  simp only [indent, List.mem_append, List.mem_replicate] at member
  rcases member with ⟨-, rfl⟩ | opened
  · exact ⟨.dedent, rfl, rfl⟩
  · split at opened
    · exact ⟨.indent, rfl, List.mem_singleton.1 opened⟩
    · cases opened

theorem mem_layout {blanks : List Char} {token : Token} (member : token ∈ (s.layout lines blanks).1) :
    token.kind.isLayout ∧ token.text = "" ∧ token.lead = "" := by
  unfold Scan.layout at member
  split at member
  · obtain ⟨kind, layout, rfl⟩ := mem_indent member
    exact ⟨layout, rfl, rfl⟩
  · cases member

/-- What the end of the text closes: a line that waits for its end, then blocks, then the text itself. -/
theorem split_finish {before after : List Token} {token : Token} (split : s.finish lines = before ++ token :: after) :
    token.kind ≠ .indent ∧ (token.kind = .newline → s.inStatement ∧ before = [] ∧ token.text = "") ∧
      (token.kind = .dedent → ∀ other ∈ after, other.kind = .dedent ∨ other.kind = .endOfFile) := by
  let blocks := List.replicate (s.columns.length - 1) (s.detached lines .dedent) ++ [(s.cut lines .endOfFile 0).1]
  have closing : ∀ other ∈ blocks, other.kind = .dedent ∨ other.kind = .endOfFile := fun other member => by
    rw [List.mem_append, List.mem_replicate, List.mem_singleton] at member
    rcases member with ⟨-, rfl⟩ | rfl
    · exact .inl rfl
    · exact .inr rfl
  have among {front : List Token} (split : blocks = front ++ token :: after) : token.kind ≠ .indent ∧
      (token.kind = .newline → s.inStatement ∧ before = [] ∧ token.text = "") ∧
        (token.kind = .dedent → ∀ other ∈ after, other.kind = .dedent ∨ other.kind = .endOfFile) := by
    refine ⟨?_, ?_, fun _ other member => closing other (by simp [split, member])⟩ <;>
      rcases closing token (by simp [split]) with kind | kind <;> simp [kind]
  rw [finish, List.append_assoc] at split
  by_cases waits : s.inStatement
  · rw [if_pos waits, List.singleton_append] at split
    cases before with
    | nil =>
      obtain ⟨rfl, -⟩ := List.cons.inj split
      exact ⟨(fun opens => by cases opens), fun _ => ⟨waits, rfl, rfl⟩, (fun closes => by cases closes)⟩
    | cons first before => exact among (List.cons.inj split).2
  · rw [if_neg waits] at split
    exact among split

theorem Into.layout (into : s.Into text) (blanks : List Char) :
    (s.layout (.ofChars text) blanks).2.Into text ∧
      (s.layout (.ofChars text) blanks).2.seam = s.seam ∧
      s.offset ≤ (s.layout (.ofChars text) blanks).2.offset ∧
      ∀ rest, Stand text s.seam (s.layout (.ofChars text) blanks).2.offset rest →
        Stand text s.seam s.offset ((s.layout (.ofChars text) blanks).1 ++ rest) := by
  obtain ⟨past, same⟩ := into.skip blanks.length
  have later : s.offset ≤ (s.skip blanks.length).offset := Nat.le_add_right ..
  unfold Scan.layout
  split
  next here =>
    refine ⟨⟨past.split⟩, same, later, fun rest stand => ?_⟩
    have stand : Stand text (s.skip blanks.length).seam (s.skip blanks.length).offset rest := same ▸ stand
    refine same ▸ (past.stand_detached (fun token member => ?_) stand).sooner later
    obtain ⟨kind, layout, detached⟩ := mem_indent member
    exact ⟨kind, by simp [layout], detached⟩
  next => exact ⟨past, same, later, fun rest stand => stand.sooner later⟩

theorem Into.finish (into : s.Into text) : Stand text s.seam s.offset (s.finish (.ofChars text)) := by
  rw [Scan.finish]
  refine into.stand_detached (fun token member => ?_) (into.stand_cut rfl (fun inline => by cases inline) (.nil _ _))
  rw [List.mem_append, List.mem_replicate] at member
  rcases member with line | ⟨-, rfl⟩
  · split at line
    · exact ⟨.newline, rfl, List.mem_singleton.1 line⟩
    · cases line
  · exact ⟨.dedent, rfl, rfl⟩

theorem Into.significant (into : s.Into text) (d : Dialect) :
    (s.significant d (.ofChars text)).2.Into text :=
  ⟨(into.cut (scanLexeme d s.rest).1 (scanLexeme d s.rest).2).2.1.split⟩

theorem Into.stand_significant (into : s.Into text) {rest : List Token}
    (stand : Stand text (s.significant d (.ofChars text)).2.seam
      (s.significant d (.ofChars text)).2.offset rest) :
    Stand text s.seam s.offset ((s.significant d (.ofChars text)).1 :: rest) := by
  have word := (isLexeme_scanLexeme (d := d) s.rest).1
  have other : (scanLexeme d s.rest).1 ≠ .newline := fun line => by rw [line] at word; cases word
  exact into.stand_cut (TokenKind.plain_of_isInline word) (absurd · other) stand

theorem Strides.stand {tokens : List Token} (strides : Strides d (.ofChars text) s tokens)
    (into : s.Into text) : Stand text s.seam s.offset tokens := by
  induction strides with
  | @last s _ stride =>
    cases stride with
    | ends =>
      obtain ⟨past, same⟩ := into.skip s.rest.length
      exact same ▸ past.finish.sooner (Nat.le_add_right ..)
  | @step s next _ more stride _ ih =>
    cases stride with
    | @comment blanks body =>
      obtain ⟨past, same⟩ := into.skip blanks.length
      have later := ih (past.cut .comment body.length).2.1
      refine same ▸ (past.stand_cut rfl (fun line => ?_) later).sooner (Nat.le_add_right ..)
      cases line
    | @passed blanks ending =>
      obtain ⟨past, same⟩ := into.skip blanks.length
      obtain ⟨behind, still⟩ := past.skip ending.length
      have later := ih behind
      rw [still, same] at later
      exact later.sooner (Nat.le_trans (Nat.le_add_right ..) (Nat.le_add_right ..))
    | @newline blanks ending rest split _ ends =>
      obtain ⟨past, same⟩ := into.skip blanks.length
      have later := ih ⟨(past.cut .newline ending.length).2.1.split⟩
      refine same ▸ (past.stand_cut rfl (fun _ => ?_) later).sooner (Nat.le_add_right ..)
      rw [rest_past split, List.take_left]
      cases ends <;> exact List.cons_ne_nil _ _
    | @joined blanks ending =>
      obtain ⟨past, same, -, around⟩ := into.layout blanks
      obtain ⟨behind, still⟩ := past.skip (1 + ending.length)
      have later := ih behind
      rw [still, same] at later
      exact around _ (later.sooner (Nat.le_add_right ..))
    | @lexeme blanks =>
      obtain ⟨past, same, -, around⟩ := into.layout blanks
      rw [List.append_assoc]
      exact around _ (same ▸ past.stand_significant (ih (past.significant d)))

end Scan

theorem stand_lex (d : Dialect) (text : String) : Stand text.toList 0 0 (lex d text) :=
  (lex_strides d text).stand (.start text.toList)

/-- The tokens of a text are the text. Each is the piece that its range says and none begins before the end of
an earlier one; the lead of a token goes from the end of the last token that took one to its own start; the
places are those of the ends of the range. -/
theorem lex_exact (d : Dialect) (text : String) :
    String.join ((lex d text).map Token.written) = text ∧
    (lex d text).Pairwise (fun token next => token.range.stop ≤ next.range.start) ∧
    ∀ before token after, lex d text = before ++ token :: after →
      token.text.toList = text.toList.extract token.range.start token.range.stop ∧
      (token.isDetached = false →
        token.lead.toList = text.toList.extract (seamBehind 0 before) token.range.start) ∧
      (LineIndex.ofChars text.toList).position? token.range.start = .ok token.first ∧
      (LineIndex.ofChars text.toList).position? token.range.stop = .ok token.last := by
  refine ⟨?_, (stand_lex d text).pairwise, fun before token after split => ?_⟩
  · have source := sourceOf_lex d text
    rw [sourceOf] at source
    rw [← String.toList_inj, String.toList_join, List.flatMap_map, ← source]
    refine List.flatMap_congr fun token member => ?_
    rw [(genuine_lex d text token member).real, Token.written, String.toList_append]
    rfl
  · have stands := (split ▸ stand_lex d text).stands
    exact ⟨stands.piece, stands.lead, stands.first, stands.last⟩

end TolerantParser
