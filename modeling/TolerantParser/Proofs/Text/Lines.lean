import Mathlib.Data.List.GetD
import TolerantParser.Proofs.Lexer.Strides
import TolerantParser.Text.LineIndex

/-!
Lines of two texts put together. Where the first one is whole lines, its places stay what they were, and those of the
second move down by its lines.
-/

namespace TolerantParser

variable {text more : List Char}

/-! ### Whole lines -/

/-- The same column so many lines further down. -/
def Position.down (lines : Nat) (place : Position) : Position := { place with line := place.line + lines }

/-- How many lines of the text have ended. -/
def lineCount (text : List Char) : Nat := (lineStarts 0 text).length

/-- The text consists of whole lines. -/
def WholeLines (text : List Char) : Prop := ∀ c ∈ text.getLast?, isLineEndChar c

/-- The texts do not make a line end together that they do not have by themselves. -/
def Parted (text more : List Char) : Prop := ¬ (text.getLast? = some '\r' ∧ more.head? = some '\n')

instance (text : List Char) : Decidable (WholeLines text) :=
  decidable_of_iff (text.getLast?.all isLineEndChar) (by rw [WholeLines]; cases text.getLast? <;> simp)

instance (text more : List Char) : Decidable (Parted text more) := inferInstanceAs (Decidable (¬ _))

/-- A line end is one also where more text comes behind it. -/
theorem IsLineEnd.onto {ending rest : List Char} (ends : IsLineEnd ending rest) (apart : Parted (ending ++ rest) more) :
    IsLineEnd ending (rest ++ more) := by
  cases ends with
  | lf => exact .lf _
  | crlf => exact .crlf _
  | cr alone =>
    cases rest with
    | nil => exact .cr fun pair => apart ⟨rfl, pair⟩
    | cons => exact .cr alone

/-- A text is taken apart into line ends and other characters. -/
theorem lineInduction {motive : List Char → Prop} (nil : motive [])
    (plain : ∀ c rest, isLineEndChar c = false → motive rest → motive (c :: rest))
    (ending : ∀ ending rest, IsLineEnd ending rest → motive rest → motive (ending ++ rest)) (text : List Char) :
    motive text := by
  match text with
  | [] => exact nil
  | c :: rest =>
    cases ends : isLineEndChar c with
    | false => exact plain c rest ends (lineInduction nil plain ending rest)
    | true =>
      obtain ⟨front, back, split, lineEnd⟩ := exists_isLineEnd rest ends
      have shorter : back.length < (c :: rest).length := by
        rw [split, List.length_append]
        cases lineEnd <;> simp
      rw [split]
      exact ending front back lineEnd (lineInduction nil plain ending back)
  termination_by text.length
  decreasing_by
    · simp
    · exact shorter

/-! ### Starts of lines -/

theorem lineStarts_plain {c : Char} (plain : isLineEndChar c = false) (offset : Nat) (rest : List Char) :
    lineStarts offset (c :: rest) = lineStarts (offset + 1) rest := by
  have return' : c ≠ '\r' := by
    rintro rfl
    cases plain
  have feed : c ≠ '\n' := by
    rintro rfl
    cases plain
  cases rest with
  | nil => simp [lineStarts]
  | cons other rest => simp [lineStarts, return']

theorem lineStarts_ending {ending rest : List Char} (ends : IsLineEnd ending rest) (offset : Nat) :
    lineStarts offset (ending ++ rest) = (offset + ending.length) :: lineStarts (offset + ending.length) rest := by
  cases ends with
  | lf | crlf => rfl
  | cr alone =>
    cases rest with
    | nil => rfl
    | cons c rest =>
      have plain : c ≠ '\n' := by simpa using alone
      simp [lineStarts, plain]

theorem lineStarts_shift (text : List Char) (offset more : Nat) :
    lineStarts (more + offset) text = (lineStarts offset text).map (more + ·) := by
  induction text using lineInduction generalizing offset with
  | nil => rfl
  | plain c rest plain ih => rw [lineStarts_plain plain, lineStarts_plain plain, Nat.add_assoc, ih]
  | ending ending rest ends ih =>
    rw [lineStarts_ending ends, lineStarts_ending ends, List.map_cons, Nat.add_assoc, ih]

theorem lineStarts_append (apart : Parted text more) (offset : Nat) :
    lineStarts offset (text ++ more) = lineStarts offset text ++ lineStarts (offset + text.length) more := by
  induction text using lineInduction generalizing offset with
  | nil => rfl
  | plain c rest plain ih =>
    have apart' : Parted rest more := fun pair => apart ⟨by rw [List.getLast?_cons, pair.1]; rfl, pair.2⟩
    rw [List.cons_append, lineStarts_plain plain, lineStarts_plain plain, ih apart', List.length_cons]
    congr 2
    omega
  | ending ending rest ends ih =>
    have apart' : Parted rest more := fun pair => apart ⟨by rw [List.getLast?_append, pair.1]; rfl, pair.2⟩
    rw [List.append_assoc, lineStarts_ending ends, lineStarts_ending (ends.onto apart), ih apart', List.length_append,
      List.cons_append, Nat.add_assoc]

theorem lineCount_plain {c : Char} (plain : isLineEndChar c = false) (rest : List Char) :
    lineCount (c :: rest) = lineCount rest := by
  rw [lineCount, lineStarts_plain plain, lineStarts_shift rest 0 1, List.length_map, lineCount]

theorem lineCount_ending {ending rest : List Char} (ends : IsLineEnd ending rest) :
    lineCount (ending ++ rest) = lineCount rest + 1 := by
  rw [lineCount, lineStarts_ending ends, List.length_cons, Nat.zero_add, ← Nat.add_zero ending.length,
    lineStarts_shift rest 0 ending.length, List.length_map, lineCount]

theorem lineCount_append (apart : Parted text more) : lineCount (text ++ more) = lineCount text + lineCount more := by
  rw [lineCount, lineStarts_append apart, List.length_append, Nat.zero_add, ← Nat.add_zero text.length,
    lineStarts_shift more 0 text.length, List.length_map, lineCount, lineCount]

theorem lineCount_inline (inline : ∀ c ∈ text, isLineEndChar c = false) : lineCount text = 0 := by
  induction text with
  | nil => rfl
  | cons c rest ih =>
    rw [List.forall_mem_cons] at inline
    rw [lineCount_plain inline.1, ih inline.2]

/-- Lines start behind one another, and the last of whole lines ends with the text. -/
theorem lineStarts_sorted (text : List Char) (offset : Nat) : (offset :: lineStarts offset text).Pairwise (· < ·) ∧
    (∀ start ∈ lineStarts offset text, start ≤ offset + text.length) := by
  induction text using lineInduction generalizing offset with
  | nil => exact ⟨List.pairwise_singleton _ _, List.forall_mem_nil _⟩
  | plain c rest plain ih =>
    obtain ⟨sorted, within⟩ := ih (offset + 1)
    rw [List.pairwise_cons] at sorted
    rw [lineStarts_plain plain, List.pairwise_cons]
    refine ⟨⟨fun start member => ?_, sorted.2⟩, fun start member => ?_⟩
    · exact Nat.lt_of_succ_lt (sorted.1 start member)
    · have := within start member
      rw [List.length_cons]
      omega
  | ending ending rest ends ih =>
    obtain ⟨sorted, within⟩ := ih (offset + ending.length)
    have filled : 0 < ending.length := by cases ends <;> decide
    rw [lineStarts_ending ends, List.pairwise_cons]
    refine ⟨⟨List.forall_mem_cons.2 ⟨by omega, fun start member => ?_⟩, sorted⟩, ?_⟩
    · have := (List.pairwise_cons.1 sorted).1 start member
      omega
    · rw [List.length_append]
      exact List.forall_mem_cons.2 ⟨by omega, fun start member => by
        have := within start member
        omega⟩

theorem lineStarts_getLast? (whole : WholeLines text) (offset : Nat) :
    (offset :: lineStarts offset text).getLast? = some (offset + text.length) := by
  induction text using lineInduction generalizing offset with
  | nil => rfl
  | plain c rest plain ih =>
    cases rest with
    | nil =>
      have ends : isLineEndChar c := whole c rfl
      rw [plain] at ends
      cases ends
    | cons other rest =>
      have whole' : WholeLines (other :: rest) := fun last member => whole last (by
        rw [List.getLast?_cons_cons]
        exact member)
      have last := ih whole' (offset + 1)
      rw [lineStarts_plain plain]
      cases starts : lineStarts (offset + 1) (other :: rest) with
      | nil =>
        rw [starts] at last
        simp at last
      | cons start starts' =>
        rw [starts, List.getLast?_cons_cons] at last
        rw [List.getLast?_cons_cons, last, List.length_cons (a := c)]
        congr 1
        omega
  | ending ending rest ends ih =>
    have whole' : WholeLines rest := fun last member => whole last (by rw [List.getLast?_append, member]; rfl)
    rw [lineStarts_ending ends, List.getLast?_cons_cons, ih whole', List.length_append]
    congr 1
    omega

/-! ### Places -/

namespace LineIndex

/-- So many lines have started at an offset. -/
structure Started (starts : List Nat) (offset count : Nat) : Prop where
  within : count ≤ starts.length
  before : ∀ i (inside : i < starts.length), i < count → starts[i] ≤ offset
  behind : ∀ i (inside : i < starts.length), count ≤ i → offset < starts[i]

theorem Started.unique {starts : List Nat} {offset count other : Nat} (here : Started starts offset count)
    (there : Started starts offset other) : count = other := by
  rcases Nat.lt_trichotomy count other with less | same | more
  · have inside : count < starts.length := Nat.lt_of_lt_of_le less there.within
    exact absurd (there.before count inside less) (Nat.not_le.2 (here.behind count inside (Nat.le_refl _)))
  · exact same
  · have inside : other < starts.length := Nat.lt_of_lt_of_le more here.within
    exact absurd (here.before other inside more) (Nat.not_le.2 (there.behind other inside (Nat.le_refl _)))

theorem Started.append {starts later : List Nat} {offset count : Nat} (started : Started starts offset count)
    (behind : ∀ start ∈ later, offset < start) : Started (starts ++ later) offset count where
  within := by
    rw [List.length_append]
    exact Nat.le_trans started.within (Nat.le_add_right ..)
  before i inside less := by
    rw [List.getElem_append_left (Nat.lt_of_lt_of_le less started.within)]
    exact started.before i _ less
  behind i inside le := by
    rw [List.getElem_append]
    split
    · exact started.behind i _ le
    · exact behind _ (List.getElem_mem _)

theorem Started.prepend {earlier starts : List Nat} {offset count : Nat} (started : Started starts offset count)
    (before : ∀ start ∈ earlier, start ≤ offset) : Started (earlier ++ starts) offset (earlier.length + count) where
  within := by
    rw [List.length_append]
    exact Nat.add_le_add_left started.within _
  before i inside less := by
    rw [List.getElem_append]
    split
    · exact before _ (List.getElem_mem _)
    · exact started.before _ _ (by omega)
  behind i inside le := by
    rw [List.getElem_append_right (by omega)]
    exact started.behind _ _ (by omega)

theorem Started.shift {starts : List Nat} {offset count : Nat} (started : Started starts offset count) (more : Nat) :
    Started (starts.map (more + ·)) (more + offset) count where
  within := by
    rw [List.length_map]
    exact started.within
  before i inside less := by
    rw [List.getElem_map]
    exact Nat.add_le_add_left (started.before i _ less) more
  behind i inside le := by
    rw [List.getElem_map]
    exact Nat.add_lt_add_left (started.behind i _ le) more

/-- Halving finds how many lines have started. -/
theorem started_startedLines {starts : List Nat} (sorted : starts.Pairwise (· < ·)) (offset low high : Nat)
    (le : low ≤ high) (within : high ≤ starts.length)
    (before : ∀ i (inside : i < starts.length), i < low → starts[i] ≤ offset)
    (behind : ∀ i (inside : i < starts.length), high ≤ i → offset < starts[i]) :
    Started starts offset (startedLines starts.toArray offset low high) := by
  have monotone : ∀ i j (first : i < starts.length) (second : j < starts.length), i ≤ j → starts[i] ≤ starts[j] :=
    fun i j first second le => by
      rcases Nat.lt_or_eq_of_le le with less | rfl
      · exact Nat.le_of_lt (List.pairwise_iff_getElem.1 sorted i j first second less)
      · exact Nat.le_refl _
  induction low, high using startedLines.induct starts.toArray offset with
  | case1 low high more middle here ih =>
    have inside : middle < starts.length := by omega
    have value : starts.toArray.getD middle 0 = starts[middle] := by simp [Array.getD, inside]
    rw [startedLines, if_pos more, if_pos here]
    rw [value] at here
    refine ih (by omega) within (fun i first less => ?_) behind
    exact Nat.le_trans (monotone i middle first inside (by omega)) here
  | case2 low high more middle here ih =>
    have inside : middle < starts.length := by omega
    have value : starts.toArray.getD middle 0 = starts[middle] := by simp [Array.getD, inside]
    rw [startedLines, if_pos more, if_neg here]
    rw [value, Nat.not_le] at here
    exact ih (by omega) (by omega) before fun i first le => Nat.lt_of_lt_of_le here (monotone middle i inside first le)
  | case3 low high ended =>
    obtain rfl : low = high := by omega
    rw [startedLines, if_neg ended]
    exact ⟨within, before, behind⟩

/-- The place of an offset is fixed by how many lines have started there. -/
theorem position_of_started {text : List Char} {offset count start : Nat}
    (started : Started (0 :: lineStarts 0 text) offset (count + 1))
    (last : (0 :: lineStarts 0 text)[count]? = some start) :
    (ofChars text).position offset = ⟨count + 1, offset - start + 1⟩ := by
  have found := started_startedLines (lineStarts_sorted text 0).1 offset 0 _ (Nat.zero_le _) (Nat.le_refl _)
    (fun _ _ less => absurd less (Nat.not_lt_zero _)) fun i inside le => absurd inside (Nat.not_lt.2 le)
  have lines : startedLines (ofChars text).starts offset 0 (ofChars text).starts.size = count + 1 :=
    found.unique started
  have value : (ofChars text).starts.getD count 0 = start := by
    simp [ofChars, Array.getD_eq_getD_getElem?, last]
  rw [position, lines]
  simp [value]

/-- Some line has started everywhere. -/
theorem exists_started (text : List Char) (offset : Nat) : ∃ count start,
    Started (0 :: lineStarts 0 text) offset (count + 1) ∧ (0 :: lineStarts 0 text)[count]? = some start := by
  have found := started_startedLines (lineStarts_sorted text 0).1 offset 0 _ (Nat.zero_le _) (Nat.le_refl _)
    (fun _ _ less => absurd less (Nat.not_lt_zero _)) fun i inside le => absurd inside (Nat.not_lt.2 le)
  generalize startedLines (0 :: lineStarts 0 text).toArray offset 0 (0 :: lineStarts 0 text).length = lines at found
  cases lines with
  | zero => exact absurd (found.behind 0 (Nat.succ_pos _) (Nat.le_refl 0)) (Nat.not_lt_zero _)
  | succ count => exact ⟨count, _, found, List.getElem?_eq_getElem (show count < _ from found.within)⟩

/-- The places of the first text stay where they are. -/
theorem position_front (apart : Parted text more) {offset : Nat} (within : offset ≤ text.length) :
    (ofChars (text ++ more)).position offset = (ofChars text).position offset := by
  obtain ⟨count, start, started, last⟩ := exists_started text offset
  have starts : 0 :: lineStarts 0 (text ++ more) = (0 :: lineStarts 0 text) ++ lineStarts text.length more := by
    rw [lineStarts_append apart, List.cons_append, Nat.zero_add]
  rw [position_of_started started last]
  refine position_of_started ?_ ?_
  · rw [starts]
    exact started.append fun start member => Nat.lt_of_le_of_lt within
      ((List.pairwise_cons.1 (lineStarts_sorted more text.length).1).1 start member)
  · rw [starts, List.getElem?_append_left started.within, last]

/-- The places of the text behind whole lines move down. -/
theorem position_back (whole : WholeLines text) (apart : Parted text more) (offset : Nat) :
    (ofChars (text ++ more)).position (text.length + offset) =
      ((ofChars more).position offset).down (lineCount text) := by
  obtain ⟨count, start, started, last⟩ := exists_started more offset
  have ended := lineStarts_getLast? whole 0
  obtain ⟨earlier, split⟩ := List.getLast?_eq_some_iff.1 ended
  have length : earlier.length = lineCount text := by simpa [lineCount] using (congrArg List.length split).symm
  have starts : 0 :: lineStarts 0 (text ++ more) =
      earlier ++ (0 :: lineStarts 0 more).map (text.length + ·) := by
    rw [lineStarts_append apart, ← List.cons_append, split, Nat.zero_add, ← Nat.add_zero text.length,
      lineStarts_shift more 0 text.length]
    simp
  have before : ∀ start ∈ earlier, start ≤ text.length + offset := fun start member => by
    have listed : start ∈ 0 :: lineStarts 0 text := by
      rw [split]
      exact List.mem_append_left _ member
    rcases List.mem_cons.1 listed with rfl | later
    · exact Nat.zero_le _
    · have := (lineStarts_sorted text 0).2 start later
      omega
  have moved : Started (0 :: lineStarts 0 (text ++ more)) (text.length + offset) (earlier.length + count + 1) := by
    rw [starts]
    exact (started.shift text.length).prepend before
  have line : (0 :: lineStarts 0 (text ++ more))[earlier.length + count]? = some (text.length + start) := by
    rw [starts, List.getElem?_append_right (Nat.le_add_right ..), Nat.add_sub_cancel_left, List.getElem?_map, last]
    rfl
  rw [position_of_started started last, position_of_started moved line, length]
  simp only [Position.down, Position.mk.injEq]
  omega

end LineIndex

end TolerantParser
