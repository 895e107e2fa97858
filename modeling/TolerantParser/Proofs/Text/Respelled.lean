import Mathlib.Data.List.Induction
import TolerantParser.Printer.Prefs
import TolerantParser.Proofs.Text.Lines

/-!
Texts whose line ends are written in another way. A text that ends its lines with line feeds alone keeps all its
lines and columns when each line feed is written as another line end.
-/

namespace TolerantParser

variable {text more : List Char} {ending : LineEnding}

/-- The text with every line feed written as the line end. -/
def LineEnding.respell (ending : LineEnding) (text : List Char) : List Char :=
  text.flatMap fun c => if c = '\n' then ending.text.toList else [c]

namespace LineEnding

@[simp] theorem respell_nil (ending : LineEnding) : ending.respell [] = [] := rfl

theorem respell_append (ending : LineEnding) (text more : List Char) :
    ending.respell (text ++ more) = ending.respell text ++ ending.respell more := List.flatMap_append

theorem respell_plain {c : Char} (plain : c ≠ '\n') (rest : List Char) :
    ending.respell (c :: rest) = c :: ending.respell rest := by
  simp [respell, plain]

theorem respell_feed (ending : LineEnding) (rest : List Char) :
    ending.respell ('\n' :: rest) = ending.text.toList ++ ending.respell rest := by
  simp [respell]

theorem respell_eq_self (plain : ∀ c ∈ text, c ≠ '\n') : ending.respell text = text := by
  induction text with
  | nil => rfl
  | cons c rest ih =>
    rw [List.forall_mem_cons] at plain
    rw [respell_plain plain.1, ih plain.2]

theorem respell_length_take (ending : LineEnding) (text : List Char) (count : Nat) :
    (ending.respell text).take (ending.respell (text.take count)).length = ending.respell (text.take count) := by
  have parts := ending.respell_append (text.take count) (text.drop count)
  rw [List.take_append_drop] at parts
  rw [parts, List.take_left]

theorem respell_length_drop (ending : LineEnding) (text : List Char) (count : Nat) :
    (ending.respell text).drop (ending.respell (text.take count)).length = ending.respell (text.drop count) := by
  have parts := ending.respell_append (text.take count) (text.drop count)
  rw [List.take_append_drop] at parts
  rw [parts, List.drop_left]

/-! ### Line ends -/

theorem head?_respell_ne_feed (other : ending ≠ .lf) (text : List Char) :
    (ending.respell text).head? ≠ some '\n' := by
  cases text with
  | nil => exact nofun
  | cons c rest =>
    by_cases feed : c = '\n'
    · rw [feed, respell_feed]
      cases ending
      · exact absurd rfl other
      · exact (by decide : some '\r' ≠ some '\n')
      · exact (by decide : some '\r' ≠ some '\n')
    · rw [respell_plain feed]
      exact fun same => feed (Option.some.inj same)

theorem getLast?_respell {ends : Char} (last : (ending.respell text).getLast? = some ends) :
    (text.getLast? = some '\n' ∧ ending.text.toList.getLast? = some ends) ∨ text.getLast? = some ends := by
  rcases List.eq_nil_or_concat text with rfl | ⟨front, c, rfl⟩
  · cases last
  · rw [List.concat_eq_append] at last ⊢
    rw [respell_append, List.getLast?_append] at last
    rw [List.getLast?_concat]
    by_cases feed : c = '\n'
    · rw [feed, respell_feed, respell_nil, List.append_nil] at last
      refine .inl ⟨congrArg some feed, ?_⟩
      cases ending <;> exact last
    · rw [respell_plain feed] at last
      exact .inr last

/-- The line end that stands for a line feed ends a line, whatever comes behind it. -/
theorem isLineEnd (ending : LineEnding) (rest : List Char) :
    IsLineEnd ending.text.toList (ending.respell rest) := by
  cases ending with
  | lf => exact .lf _
  | crlf => exact .crlf _
  | cr => exact .cr (head?_respell_ne_feed (by decide) rest)

/-- No two characters come to be a line end together. -/
theorem parted_respell (plain : '\r' ∉ text) (more : List Char) :
    Parted (ending.respell text) (ending.respell more) := by
  rintro ⟨last, first⟩
  have feeds : ending = .lf := by
    by_contra other
    exact head?_respell_ne_feed other more first
  rcases getLast?_respell last with ⟨-, ends⟩ | ends
  · rw [feeds] at ends
    cases ends
  · exact plain (List.mem_of_getLast? ends)

theorem wholeLines_respell (whole : WholeLines text) : WholeLines (ending.respell text) := by
  intro c last
  rcases getLast?_respell last with ⟨-, ends⟩ | ends
  · cases ending <;> (cases ends; rfl)
  · exact whole c ends

end LineEnding

theorem not_mem_of_isLineEnd {front rest : List Char} (plain : '\r' ∉ front ++ rest) (ends : IsLineEnd front rest) :
    front = ['\n'] := by
  cases ends with
  | lf => rfl
  | crlf | cr => simp at plain

/-- Just as many lines have ended. -/
theorem lineCount_respell (ending : LineEnding) (plain : '\r' ∉ text) :
    lineCount (ending.respell text) = lineCount text := by
  suffices all : ∀ offset offset', (lineStarts offset (ending.respell text)).length = (lineStarts offset' text).length
    from all 0 0
  induction text using lineInduction with
  | nil => exact fun _ _ => rfl
  | plain c rest inline ih =>
    intro offset offset'
    have other : c ≠ '\n' := by
      rintro rfl
      cases inline
    rw [LineEnding.respell_plain other, lineStarts_plain inline, lineStarts_plain inline]
    exact ih (fun listed => plain (List.mem_cons_of_mem _ listed)) _ _
  | ending front rest ends ih =>
    intro offset offset'
    obtain rfl := not_mem_of_isLineEnd plain ends
    rw [lineStarts_ending ends, List.singleton_append, LineEnding.respell_feed,
      lineStarts_ending (ending.isLineEnd rest), List.length_cons, List.length_cons]
    exact congrArg (· + 1) (ih (fun listed => plain (List.mem_cons_of_mem _ listed)) _ _)

/-! ### Places -/

namespace LineIndex

/-- A text is whole lines and the beginning of one more. -/
theorem exists_wholeLines (text : List Char) :
    ∃ whole line, text = whole ++ line ∧ WholeLines whole ∧ ∀ c ∈ line, isLineEndChar c = false := by
  induction text using List.reverseRecOn with
  | nil => exact ⟨[], [], rfl, nofun, nofun⟩
  | append_singleton text c ih =>
    cases ends : isLineEndChar c with
    | true =>
      refine ⟨text ++ [c], [], (List.append_nil _).symm, fun last found => ?_, nofun⟩
      rw [List.getLast?_concat] at found
      exact Option.some.inj found ▸ ends
    | false =>
      obtain ⟨whole, line, rfl, isWhole, inline⟩ := ih
      refine ⟨whole, line ++ [c], List.append_assoc .., isWhole, fun other member => ?_⟩
      rcases List.mem_append.1 member with early | last
      · exact inline other early
      · exact List.mem_singleton.1 last ▸ ends

theorem position_inline {line : List Char} (inline : ∀ c ∈ line, isLineEndChar c = false) (offset : Nat) :
    (ofChars line).position offset = ⟨1, offset + 1⟩ := by
  have none : ∀ offset, lineStarts offset line = [] := by
    induction line with
    | nil => exact fun _ => rfl
    | cons c rest ih =>
      rw [List.forall_mem_cons] at inline
      exact fun offset => (lineStarts_plain inline.1 offset rest).trans (ih inline.2 _)
  have started : Started (0 :: lineStarts 0 line) offset (0 + 1) := by
    rw [none]
    exact ⟨Nat.le_refl _, fun i inside less => by simp, fun i inside le => absurd inside (Nat.not_lt.2 le)⟩
  exact position_of_started started rfl

/-- The place at the end of whole lines and the beginning of one more. -/
theorem position_end {whole line : List Char} (isWhole : WholeLines whole)
    (inline : ∀ c ∈ line, isLineEndChar c = false) :
    (ofChars (whole ++ line)).position (whole ++ line).length = ⟨1 + lineCount whole, line.length + 1⟩ := by
  have parted : Parted whole line := fun pair => by
    have ends := inline '\n' (List.mem_of_head? pair.2)
    cases ends
  rw [List.length_append, position_back isWhole parted, position_inline inline]
  rfl

/-- The line at the end of a text, whatever comes behind it. -/
theorem line_parted (apart : Parted text more) :
    ((ofChars (text ++ more)).position text.length).line = lineCount text + 1 := by
  rw [position_front apart (Nat.le_refl _)]
  obtain ⟨whole, line, rfl, isWhole, inline⟩ := exists_wholeLines text
  have parted : Parted whole line := fun pair => by
    have ends := inline '\n' (List.mem_of_head? pair.2)
    cases ends
  rw [position_end isWhole inline, lineCount_append parted, lineCount_inline inline, Nat.add_zero]
  exact Nat.add_comm ..

/-- The line of the last character of a text that does not end its line. -/
theorem line_last {c : Char} (inline : isLineEndChar c = false) :
    ((ofChars (text ++ c :: more)).position text.length).line = lineCount (text ++ [c]) + 1 := by
  have parted : ∀ more, Parted text (c :: more) := fun more pair => by
    obtain rfl := Option.some.inj pair.2
    cases inline
  rw [line_parted (parted more), lineCount_append (parted []), lineCount_plain inline]
  rfl

/-- Lines and columns stay what they are when line ends are written in another way. -/
theorem position_respell (ending : LineEnding) (plain : '\r' ∉ text ++ more) :
    (ofChars (ending.respell (text ++ more))).position (ending.respell text).length =
      (ofChars (text ++ more)).position text.length := by
  rw [List.mem_append, not_or] at plain
  have parted : Parted text more := fun pair => plain.1 (List.mem_of_getLast? pair.1)
  rw [LineEnding.respell_append, position_front (LineEnding.parted_respell plain.1 more) (Nat.le_refl _),
    position_front parted (Nat.le_refl _)]
  obtain ⟨whole, line, rfl, isWhole, inline⟩ := exists_wholeLines text
  have noFeed : ∀ c ∈ line, c ≠ '\n' := by
    rintro c member rfl
    cases inline _ member
  have plainWhole : '\r' ∉ whole := fun listed => plain.1 (List.mem_append_left _ listed)
  rw [LineEnding.respell_append, LineEnding.respell_eq_self noFeed, position_end isWhole inline,
    position_end (LineEnding.wholeLines_respell isWhole) inline, lineCount_respell ending plainWhole]

/-- Two offsets are on one line if no line starts between them. -/
theorem line_congr {here there : Nat} (le : here ≤ there)
    (none : ∀ start ∈ lineStarts 0 text, start ≤ there → start ≤ here) :
    ((ofChars text).position here).line = ((ofChars text).position there).line := by
  obtain ⟨count, start, started, last⟩ := exists_started text there
  have started' : Started (0 :: lineStarts 0 text) here (count + 1) := by
    refine ⟨started.within, fun i inside less => ?_, fun i inside more => ?_⟩
    · have early := started.before i inside less
      rcases List.mem_cons.1 (List.getElem_mem inside) with zero | listed
      · rw [zero]
        exact Nat.zero_le _
      · exact none _ listed early
    · exact Nat.lt_of_le_of_lt le (started.behind i inside more)
  rw [position_of_started started last, position_of_started started' last]

/-- A line end is on the line that it ends. -/
theorem line_inside_ending {front ends rest : List Char} (parted : Parted front (ends ++ rest))
    (isEnd : IsLineEnd ends rest) {offset : Nat} (inside : offset < ends.length) :
    ((ofChars (front ++ (ends ++ rest))).position (front.length + offset)).line =
      ((ofChars (front ++ (ends ++ rest))).position front.length).line := by
  refine (line_congr (Nat.le_add_right ..) fun start listed early => ?_).symm
  rw [lineStarts_append parted, lineStarts_ending isEnd, List.mem_append, List.mem_cons] at listed
  rcases listed with before | rfl | behind
  · have := (lineStarts_sorted front 0).2 start before
    omega
  · omega
  · have := (List.pairwise_cons.1 (lineStarts_sorted rest (0 + front.length + ends.length)).1).1 start behind
    omega

/-- The line of the last character in front of an offset stays the same. -/
theorem line_respell (ending : LineEnding) {c : Char} (plain : '\r' ∉ text ++ c :: more) :
    ((ofChars (ending.respell (text ++ c :: more))).position ((ending.respell (text ++ [c])).length - 1)).line =
      ((ofChars (text ++ c :: more)).position text.length).line := by
  rw [← position_respell ending plain]
  by_cases feed : c = '\n'
  · subst feed
    have plainText : '\r' ∉ text := fun listed => plain (List.mem_append_left _ listed)
    have parted : Parted (ending.respell text) (ending.respell ('\n' :: more)) :=
      LineEnding.parted_respell plainText ('\n' :: more)
    have last : (ending.respell (text ++ ['\n'])).length - 1 =
        (ending.respell text).length + (ending.text.toList.length - 1) := by
      rw [LineEnding.respell_append, LineEnding.respell_feed, LineEnding.respell_nil, List.append_nil,
        List.length_append]
      cases ending <;> rfl
    rw [last, LineEnding.respell_append, LineEnding.respell_feed]
    rw [LineEnding.respell_feed] at parted
    exact line_inside_ending parted (ending.isLineEnd more) (by cases ending <;> decide)
  · rw [LineEnding.respell_append ending text [c], LineEnding.respell_plain feed, List.length_append]
    rfl

end LineIndex

end TolerantParser
