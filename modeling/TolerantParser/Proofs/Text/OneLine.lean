import Mathlib.Data.List.Basic
import TolerantParser.Text.Quoted

/-!
Texts of one line. More characters end a line for whoever reads a report than for the lexer, and a text of one line
has none of them. Quoted text is of one line, whatever text it quotes, and texts of one line with line feeds between
them are told apart again by their lines.
-/

namespace TolerantParser

/-! ### Lines of a report -/

/-- The characters that end a line of a report: those that the lexer knows, the vertical tab, the form feed, the file,
group and record separators, the next-line control, and the separators of lines and of paragraphs. -/
def isLineBreak (c : Char) : Bool :=
  ['\n', '\r', '\x0b', '\x0c', '\x1c', '\x1d', '\x1e', '\x85', '\u2028', '\u2029'].contains c

/-- The lines of a text. A carriage return with a line feed behind it ends one line, and a last line that is empty does
not count. -/
def splitLines : List Char → List (List Char)
  | [] => []
  | '\r' :: '\n' :: rest => [] :: splitLines rest
  | c :: rest =>
    if isLineBreak c then [] :: splitLines rest
    else
      match splitLines rest with
      | [] => [[c]]
      | line :: lines => (c :: line) :: lines

/-- The text has no line break of any kind. -/
def OneLine (text : List Char) : Prop := ∀ c ∈ text, isLineBreak c = false

instance (text : List Char) : Decidable (OneLine text) := List.decidableBAll (isLineBreak · = false) text

variable {text more : List Char}

theorem OneLine.append (first : OneLine text) (second : OneLine more) : OneLine (text ++ more) :=
  List.forall_mem_append.2 ⟨first, second⟩

theorem oneLine_append {first second : String} (one : OneLine first.toList) (two : OneLine second.toList) :
    OneLine (first ++ second).toList := by
  rw [String.toList_append]
  exact one.append two

theorem splitLines_plain {c : Char} (plain : isLineBreak c = false) (rest : List Char) :
    splitLines (c :: rest) = match splitLines rest with
      | [] => [[c]]
      | line :: lines => (c :: line) :: lines := by
  have return' : c ≠ '\r' := by
    rintro rfl
    cases plain
  rw [splitLines]
  · rw [if_neg (by simp [plain])]
  · exact fun _ same _ => return' same

theorem splitLines_oneLine (oneLine : OneLine text) (filled : text ≠ []) : splitLines text = [text] := by
  induction text with
  | nil => exact absurd rfl filled
  | cons c rest ih =>
    obtain ⟨plain, others⟩ := List.forall_mem_cons.1 oneLine
    rw [splitLines_plain plain]
    cases rest with
    | nil => rfl
    | cons d rest => rw [ih others (List.cons_ne_nil d rest)]

theorem splitLines_lineFeed (oneLine : OneLine text) (rest : List Char) :
    splitLines (text ++ '\n' :: rest) = text :: splitLines rest := by
  induction text with
  | nil => rfl
  | cons c text ih =>
    obtain ⟨plain, others⟩ := List.forall_mem_cons.1 oneLine
    rw [List.cons_append, splitLines_plain plain, ih others]

/-- Texts of one line, with line feeds between them, are the lines of all of it. -/
theorem splitLines_intercalate {texts : List (List Char)} (oneLine : ∀ text ∈ texts, OneLine text ∧ text ≠ []) :
    splitLines (['\n'].intercalate texts) = texts := by
  induction texts with
  | nil => rfl
  | cons text texts ih =>
    obtain ⟨⟨first, filled⟩, others⟩ := List.forall_mem_cons.1 oneLine
    cases texts with
    | nil => rw [List.intercalate_singleton, splitLines_oneLine first filled]
    | cons next texts =>
      rw [List.intercalate_cons_cons, List.append_assoc, List.singleton_append, splitLines_lineFeed first, ih others]

/-! ### Numbers -/

theorem not_isLineBreak_digitChar : ∀ n < 16, isLineBreak n.digitChar = false := by decide

theorem oneLine_toDigits {base : Nat} (large : 1 < base) (small : base ≤ 16) (n : Nat) :
    OneLine (Nat.toDigits base n) := by
  induction n using Nat.strongRecOn with
  | ind n ih =>
    have digit : ∀ k < base, OneLine [k.digitChar] := fun k less =>
      List.forall_mem_singleton.2 (not_isLineBreak_digitChar k (Nat.lt_of_lt_of_le less small))
    rw [Nat.toDigits_eq_if large]
    split
    next less => exact digit n less
    next more =>
      have smaller : n / base < n := Nat.div_lt_self (by omega) large
      exact (ih _ smaller).append (digit _ (Nat.mod_lt n (by omega)))

theorem oneLine_toString (n : Nat) : OneLine (toString n).toList := by
  rw [show toString n = n.repr from rfl, Nat.toList_repr]
  exact oneLine_toDigits (by decide) (by decide) n

theorem oneLine_hexDigits (width n : Nat) : OneLine (hexDigits width n) := by
  refine .append (fun c member => ?_) (oneLine_toDigits (by decide) (by decide) n)
  rw [List.eq_of_mem_replicate member]
  rfl

/-! ### Quoted text -/

theorem not_isPrintable_of_isLineBreak {c : Char} (breaks : isLineBreak c) : isPrintable c = false := by
  simp only [isLineBreak, List.contains_iff_mem, List.mem_cons, List.not_mem_nil, or_false] at breaks
  rcases breaks with rfl | rfl | rfl | rfl | rfl | rfl | rfl | rfl | rfl | rfl <;> decide +kernel

theorem quoteFor_cases (text : List Char) : quoteFor text = '\'' ∨ quoteFor text = '"' := by
  unfold quoteFor
  split
  · exact .inr rfl
  · exact .inl rfl

/-- A line break is never left as it is in quotes: all are unprintable. -/
theorem oneLine_escapeChar {quote : Char} (plain : isLineBreak quote = false) (c : Char) :
    OneLine (escapeChar quote c) := by
  have escaped : ∀ {rest : List Char}, OneLine rest → OneLine ('\\' :: rest) := fun rest =>
    List.forall_mem_cons.2 ⟨rfl, rest⟩
  have hex : ∀ (letter : Char) (width : Nat), isLineBreak letter = false →
      OneLine ('\\' :: letter :: hexDigits width c.toNat) := fun letter width plain =>
    escaped (List.forall_mem_cons.2 ⟨plain, oneLine_hexDigits width _⟩)
  unfold escapeChar
  split
  next same =>
    refine escaped (List.forall_mem_singleton.2 ?_)
    rcases Bool.or_eq_true_iff.1 same with quotes | backslash
    · rw [eq_of_beq quotes]
      exact plain
    · rw [eq_of_beq backslash]
      rfl
  split
  next => decide
  split
  next => decide
  split
  next => decide
  split
  next printable =>
    refine List.forall_mem_singleton.2 (Bool.eq_false_iff.2 fun breaks => ?_)
    rw [not_isPrintable_of_isLineBreak breaks] at printable
    cases printable
  split
  next => exact hex 'x' 2 rfl
  split
  next => exact hex 'u' 4 rfl
  next => exact hex 'U' 8 rfl

/-- Quoted text is of one line. -/
theorem oneLine_quoted (text : String) : OneLine (quoted text).toList := by
  have plain : isLineBreak (quoteFor text.toList) = false := by
    rcases quoteFor_cases text.toList with quote | quote <;> rw [quote] <;> rfl
  rw [quoted, String.toList_ofList, quoteChars]
  refine .append (List.forall_mem_cons.2 ⟨plain, fun c member => ?_⟩) (List.forall_mem_singleton.2 plain)
  obtain ⟨from', -, among⟩ := List.mem_flatMap.1 member
  exact oneLine_escapeChar plain from' c among

/-- The line breaks of a text are written out in quotes. -/
example : quoteChars ['a', '\n', '\u2028', '\''] = ['"', 'a', '\\', 'n', '\\', 'u', '2', '0', '2', '8', '\'', '"'] := by
  decide +kernel

end TolerantParser
