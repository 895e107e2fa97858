import Mathlib.Data.Nat.Count
import TolerantParser.Proofs.Text.Lines
import TolerantParser.Proofs.Token.Order

/-!
Lines as they are defined, without reading along the text: a line ends where a terminator ends, the line of an offset
is told by how many have ended there, and its column by the last one of them. The index of a text tells the same
places, and tells them in the order of the offsets.
-/

namespace TolerantParser

/-! ### Ends of lines -/

/-- A line terminator ends at the offset. A carriage return with a line feed behind it is not yet a whole one. -/
def EndsLine (text : List Char) (offset : Nat) : Prop :=
  0 < offset ∧ (text[offset - 1]? = some '\n' ∨ text[offset - 1]? = some '\r' ∧ text[offset]? ≠ some '\n')

instance (text : List Char) : DecidablePred (EndsLine text) := fun _ => inferInstanceAs (Decidable (_ ∧ _))

/-- How many line terminators end at or before the offset. -/
def endedLines (text : List Char) (offset : Nat) : Nat := Nat.count (EndsLine text) (offset + 1)

/-- The end of the last line terminator that ends at or before the offset, or the start of the text. -/
def lineStart (text : List Char) (offset : Nat) : Nat := Nat.findGreatest (EndsLine text) offset

theorem not_endsLine_nil (offset : Nat) : ¬ EndsLine [] offset := by simp [EndsLine]

theorem not_endsLine_zero (text : List Char) : ¬ EndsLine text 0 := fun ends => absurd ends.1 (Nat.lt_irrefl 0)

theorem endsLine_cons (c : Char) (rest : List Char) (offset : Nat) : EndsLine (c :: rest) (offset + 1) ↔
    offset = 0 ∧ (c = '\n' ∨ c = '\r' ∧ rest.head? ≠ some '\n') ∨ EndsLine rest offset := by
  cases offset with
  | zero => simp [EndsLine, List.head?_eq_getElem?]
  | succ offset => simp [EndsLine]

theorem endsLine_plain {c : Char} (plain : isLineEndChar c = false) (rest : List Char) (offset : Nat) :
    EndsLine (c :: rest) offset ↔ ∃ inner, offset = inner + 1 ∧ EndsLine rest inner := by
  have other : ¬ (c = '\n' ∨ c = '\r' ∧ rest.head? ≠ some '\n') := by
    rintro (rfl | ⟨rfl, _⟩) <;> cases plain
  cases offset with
  | zero => simp [not_endsLine_zero]
  | succ offset => simp [endsLine_cons, other]

theorem endsLine_ending {ending rest : List Char} (ends : IsLineEnd ending rest) (offset : Nat) :
    EndsLine (ending ++ rest) offset ↔
      offset = ending.length ∨ ∃ inner, offset = ending.length + inner ∧ EndsLine rest inner := by
  have first : ∀ {inner}, EndsLine rest inner → inner ≠ 0 := fun ends same => not_endsLine_zero rest (same ▸ ends)
  cases offset with
  | zero =>
    have filled : 0 < ending.length := by cases ends <;> decide
    simp only [not_endsLine_zero, false_iff, not_or, not_exists, not_and]
    exact ⟨by omega, by omega⟩
  | succ offset =>
    cases ends with
    | lf => simp [endsLine_cons, Nat.add_comm]
    | cr alone => simp [endsLine_cons, alone, Nat.add_comm]
    | crlf =>
      cases offset with
      | zero => simp [endsLine_cons, not_endsLine_zero, Nat.add_comm 2]
      | succ offset => simp [endsLine_cons, Nat.add_comm 2]

/-- Reading along the text finds the ends of lines. -/
theorem mem_lineStarts (text : List Char) (start : Nat) : start ∈ lineStarts 0 text ↔ EndsLine text start := by
  induction text using lineInduction generalizing start with
  | nil => simp [lineStarts, not_endsLine_nil]
  | plain c rest plain ih =>
    rw [lineStarts_plain plain, lineStarts_shift rest 0 1, endsLine_plain plain, List.mem_map]
    simp only [ih, Nat.add_comm 1]
    exact exists_congr fun inner => by rw [and_comm, eq_comm]
  | ending ending rest ends ih =>
    rw [lineStarts_ending ends, Nat.zero_add, ← Nat.add_zero ending.length, lineStarts_shift rest 0 ending.length,
      Nat.add_zero, endsLine_ending ends, List.mem_cons, List.mem_map]
    simp only [ih]
    exact or_congr Iff.rfl (exists_congr fun inner => by rw [and_comm, eq_comm])

theorem endedLines_mono (text : List Char) : Monotone (endedLines text) := fun _ _ le =>
  Nat.count_monotone _ (Nat.add_le_add_right le 1)

namespace LineIndex

/-! ### Places by their definition -/

variable {text : List Char} {offset count start : Nat}

theorem Started.mem_take (started : Started (0 :: lineStarts 0 text) offset (count + 1)) :
    start ∈ (lineStarts 0 text).take count ↔ start ≤ offset ∧ EndsLine text start := by
  rw [← mem_lineStarts, List.mem_take_iff_getElem, List.mem_iff_getElem]
  constructor
  · rintro ⟨i, inside, rfl⟩
    have within : i < (lineStarts 0 text).length := by omega
    exact ⟨started.before (i + 1) (Nat.succ_lt_succ within) (by omega), i, within, rfl⟩
  · rintro ⟨le, i, inside, rfl⟩
    have less : i < count := by
      by_contra more
      exact absurd (started.behind (i + 1) (Nat.succ_lt_succ inside) (by omega)) (Nat.not_lt.2 le)
    exact ⟨i, by omega, rfl⟩

/-- As many lines have started, after the first one, as have ended. -/
theorem Started.endedLines (started : Started (0 :: lineStarts 0 text) offset (count + 1)) :
    endedLines text offset = count := by
  have within : count ≤ (lineStarts 0 text).length := Nat.le_of_succ_le_succ started.within
  have once : ((lineStarts 0 text).take count).Nodup :=
    ((List.pairwise_cons.1 (lineStarts_sorted text 0).1).2.imp Nat.ne_of_lt).sublist (List.take_sublist ..)
  have same : (Finset.range (offset + 1)).filter (EndsLine text) = ((lineStarts 0 text).take count).toFinset := by
    ext start
    rw [Finset.mem_filter, Finset.mem_range, List.mem_toFinset, started.mem_take, Nat.lt_succ_iff]
  rw [TolerantParser.endedLines, Nat.count_eq_card_filter_range, same, List.toFinset_card_of_nodup once,
    List.length_take_of_le within]

/-- The line that started last starts where the last one has ended. -/
theorem Started.lineStart (started : Started (0 :: lineStarts 0 text) offset (count + 1))
    (last : (0 :: lineStarts 0 text)[count]? = some start) : lineStart text offset = start := by
  obtain ⟨inside, value⟩ := List.getElem?_eq_some_iff.1 last
  refine Nat.findGreatest_eq_iff.2 ⟨?_, fun later => ?_, fun other behind le ends => ?_⟩
  · rw [← value]
    exact started.before count inside (Nat.lt_succ_self count)
  · have member : start ∈ 0 :: lineStarts 0 text := List.mem_of_getElem? last
    exact (mem_lineStarts text start).1 ((List.mem_cons.1 member).resolve_left later)
  · obtain ⟨i, less, found⟩ := List.mem_take_iff_getElem.1 (started.mem_take.2 ⟨le, ends⟩)
    have sorted := List.pairwise_iff_getElem.1 (lineStarts_sorted text 0).1
    have ordered : other ≤ start := by
      rw [← found, ← value]
      rcases Nat.lt_or_eq_of_le (show i + 1 ≤ count by omega) with less | same
      · exact Nat.le_of_lt (sorted (i + 1) count (by simp; omega) inside less)
      · subst same
        exact Nat.le_refl _
    exact absurd behind (Nat.not_lt.2 ordered)

theorem position_endedLines (text : List Char) (offset : Nat) :
    (ofChars text).position offset = ⟨1 + endedLines text offset, 1 + (offset - lineStart text offset)⟩ := by
  obtain ⟨count, start, started, last⟩ := exists_started text offset
  rw [position_of_started started last, started.endedLines, started.lineStart last, Nat.add_comm, Nat.add_comm _ 1]

theorem position?_within (text : List Char) {offset : Nat} (within : offset ≤ text.length) :
    (ofChars text).position? offset = .ok ((ofChars text).position offset) := by
  have inside : ¬ ((offset : Int) < 0 ∨ (offset : Int) > (ofChars text).length) := by
    simp only [ofChars]
    omega
  rw [position?, if_neg inside, Int.toNat_natCast]

theorem position?_outside (text : List Char) {offset : Int} (outside : offset < 0 ∨ text.length < offset) :
    (ofChars text).position? offset = .error ⟨offset, text.length⟩ := if_pos outside

/-- An offset with a place lies in the text. -/
theorem within_of_position? {text : List Char} {offset : Int} {place : Position}
    (told : (ofChars text).position? offset = .ok place) :
    ∃ inner : Nat, offset = inner ∧ inner ≤ text.length ∧ (ofChars text).position inner = place := by
  by_cases outside : offset < 0 ∨ text.length < offset
  · rw [position?_outside text outside] at told
    cases told
  · obtain ⟨inner, rfl⟩ := Int.eq_ofNat_of_zero_le (by omega : 0 ≤ offset)
    have within : inner ≤ text.length := by omega
    rw [position?_within text within, Except.ok.injEq] at told
    exact ⟨inner, rfl, within, told⟩

/-- The place of an offset in the text is told by the line terminators that end there or before, places are in the
order of their offsets, and outside of the text there is no place. -/
theorem position?_lines (text : List Char) :
    (∀ offset : Nat, offset ≤ text.length →
      (ofChars text).position? offset = .ok ⟨1 + endedLines text offset, 1 + (offset - lineStart text offset)⟩) ∧
    (∀ (offset further : Int) (here there : Position), (ofChars text).position? offset = .ok here →
      (ofChars text).position? further = .ok there →
      (offset < further ↔ here < there) ∧ (offset = further ↔ here = there)) ∧
    ∀ offset : Int, offset < 0 ∨ text.length < offset →
      (ofChars text).position? offset = .error ⟨offset, text.length⟩ := by
  refine ⟨fun offset within => ?_, fun offset further here there first second => ?_,
    fun offset => position?_outside text⟩
  · rw [position?_within text within, position_endedLines]
  · obtain ⟨offset, rfl, -, rfl⟩ := within_of_position? first
    obtain ⟨further, rfl, -, rfl⟩ := within_of_position? second
    rw [Int.ofNat_lt, Int.ofNat_inj]
    exact ⟨(strictMono_position text).lt_iff_lt.symm, (strictMono_position text).injective.eq_iff.symm⟩

/-- The place between a carriage return and its line feed is on the line that they end. -/
example : (List.range 5).map (fun offset => (ofChars ['a', '\r', '\n', '\r']).position? offset) =
    [.ok ⟨1, 1⟩, .ok ⟨1, 2⟩, .ok ⟨1, 3⟩, .ok ⟨2, 1⟩, .ok ⟨3, 1⟩] := by decide +kernel

end LineIndex

end TolerantParser
