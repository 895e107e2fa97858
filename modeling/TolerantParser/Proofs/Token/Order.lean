import Mathlib.Order.Monotone.Defs
import TolerantParser.Proofs.Tree.Pieces

/-!
Tokens in the order of their places. Places are ordered by line and then by column, and along a text they
increase. Tokens are `Spaced` if none begins before the end of an earlier one and those that are not names take
up some space; a name that was put in takes none.
-/

namespace TolerantParser

/-! ### Places -/

namespace Position

instance : LE Position := ⟨fun p q => p.le q⟩

instance : LT Position := ⟨fun p q => p.lt q⟩

theorem lt_iff {p q : Position} : p < q ↔ p.line < q.line ∨ p.line = q.line ∧ p.column < q.column := by
  show p.lt q = true ↔ _
  simp [Position.lt]

theorem le_iff {p q : Position} : p ≤ q ↔ p.line < q.line ∨ p.line = q.line ∧ p.column ≤ q.column := by
  show p.le q = true ↔ _
  simp only [Position.le, Position.lt, Bool.not_eq_true', Bool.or_eq_false_iff, decide_eq_false_iff_not,
    Bool.and_eq_false_imp, beq_iff_eq]
  omega

instance : DecidableLE Position := fun p q => inferInstanceAs (Decidable (p.le q = true))

instance : DecidableLT Position := fun p q => inferInstanceAs (Decidable (p.lt q = true))

instance : LinearOrder Position where
  le_refl p := le_iff.2 (by omega)
  le_trans p q r first second := by
    rw [le_iff] at *
    omega
  lt_iff_le_not_ge p q := by
    rw [lt_iff, le_iff, le_iff]
    omega
  le_antisymm p q first second := by
    rw [le_iff] at first second
    have line : p.line = q.line := by omega
    have column : p.column = q.column := by omega
    cases p
    cases q
    congr
  le_total p q := by
    rw [le_iff, le_iff]
    omega
  toDecidableLE := inferInstance

end Position

namespace LineIndex

variable (starts : Array Nat)

theorem startedLines_between (offset : Nat) {low high : Nat} (le : low ≤ high) :
    low ≤ startedLines starts offset low high ∧ startedLines starts offset low high ≤ high := by
  induction low, high using startedLines.induct starts offset with
  | case1 low high more middle here ih =>
    obtain ⟨first, second⟩ := ih (by omega)
    rw [startedLines, if_pos more, if_pos here]
    exact ⟨Nat.le_trans (by omega) first, second⟩
  | case2 low high more middle here ih =>
    obtain ⟨first, second⟩ := ih (by omega)
    rw [startedLines, if_pos more, if_neg here]
    exact ⟨first, Nat.le_trans second (by omega)⟩
  | case3 low high ended =>
    rw [startedLines, if_neg ended]
    omega

/-- Further on in a text as many lines have started at least. -/
theorem startedLines_mono {offset further : Nat} (later : offset ≤ further) {low high : Nat} (le : low ≤ high) :
    startedLines starts offset low high ≤ startedLines starts further low high := by
  induction low, high using startedLines.induct starts offset with
  | case1 low high more middle here ih =>
    rw [startedLines.eq_def starts offset, if_pos more, if_pos here, startedLines.eq_def starts further, if_pos more,
      if_pos (Nat.le_trans here later)]
    exact ih (by omega)
  | case2 low high more middle here ih =>
    rw [startedLines.eq_def starts offset, if_pos more, if_neg here]
    by_cases there : starts.getD middle 0 ≤ further
    · rw [startedLines.eq_def starts further, if_pos more, if_pos there]
      have first := (startedLines_between starts offset (show low ≤ middle by omega)).2
      have second := (startedLines_between starts further (show middle + 1 ≤ high by omega)).1
      exact Nat.le_trans first (Nat.le_trans (Nat.le_succ middle) second)
    · rw [startedLines.eq_def starts further, if_pos more, if_neg there]
      exact ih (by omega)
  | case3 low high ended =>
    rw [startedLines.eq_def starts offset, if_neg ended]
    exact (startedLines_between starts further le).1

/-- The last line that has started by an offset starts there or before. -/
theorem startedLines_started (offset low high : Nat) : startedLines starts offset low high = low ∨
    starts.getD (startedLines starts offset low high - 1) 0 ≤ offset := by
  induction low, high using startedLines.induct starts offset with
  | case1 low high more middle here ih =>
    rw [startedLines, if_pos more, if_pos here]
    refine .inr ?_
    rcases ih with same | started
    · rw [same]
      exact here
    · exact started
  | case2 low high more middle here ih =>
    rw [startedLines, if_pos more, if_neg here]
    exact ih
  | case3 low high ended =>
    rw [startedLines, if_neg ended]
    exact .inl rfl

/-- Places increase along a text. -/
theorem strictMono_position (text : List Char) : StrictMono (ofChars text).position := by
  intro offset further less
  have lines := startedLines_mono (ofChars text).starts (Nat.le_of_lt less) (Nat.zero_le (ofChars text).starts.size)
  rw [Position.lt_iff, position, position]
  rcases Nat.lt_or_eq_of_le lines with fewer | same
  · exact .inl fewer
  · have started : (ofChars text).starts.getD
        (startedLines (ofChars text).starts offset 0 (ofChars text).starts.size - 1) 0 ≤ offset := by
      rcases startedLines_started (ofChars text).starts offset 0 (ofChars text).starts.size with none | started
      · rw [none]
        exact Nat.zero_le offset
      · exact started
    refine .inr ⟨same, ?_⟩
    dsimp only
    rw [← same]
    omega

end LineIndex

/-! ### Tokens -/

/-- The token does not end before it begins, and one of the line that is no name takes up some space. -/
structure Token.Stretches (token : Token) : Prop where
  le : token.first ≤ token.last
  lt : token.kind.isInline → token.kind ≠ .name → token.first < token.last

/-- No token begins before the end of an earlier one. -/
structure Spaced (tokens : List Token) : Prop where
  apart : tokens.Pairwise (·.last ≤ ·.first)
  stretches : ∀ token ∈ tokens, token.Stretches

theorem Spaced.sublist {tokens fewer : List Token} (spaced : Spaced tokens) (sublist : fewer.Sublist tokens) :
    Spaced fewer :=
  ⟨spaced.apart.sublist sublist, fun token member => spaced.stretches token (sublist.subset member)⟩

end TolerantParser
