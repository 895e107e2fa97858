import TolerantParser.Dialect.Features
import TolerantParser.Text.Letter

/-!
Characters that lexemes and layout are made of: names and words, line ends and blanks. Beyond ASCII only a dialect
with Unicode identifiers takes letters.

Embeds `_is_name_start`, `_is_name_char`, `_lex_name`, `_newline_length`, and the columns of `_measure_indent`.
-/

namespace TolerantParser

/-! ### Names -/

def startsName (f : Features) (c : Char) : Bool :=
  c == '_' || (isLetter c && (c.toNat < 128 || f.unicodeIdentifiers))

def continuesName (f : Features) (c : Char) : Bool :=
  c == '_' || (isAlphanumeric c && (c.toNat < 128 || f.unicodeIdentifiers))

/-- The length of the name at the front, whose first character has been tested. -/
def nameLength (f : Features) (text : List Char) : Nat :=
  1 + (text.tail.takeWhile (continuesName f)).length

theorem nameLength_pos (f : Features) (text : List Char) : 0 < nameLength f text := by
  unfold nameLength
  omega

/-! ### Line ends and blanks -/

/-- The characters that end a line, alone or as a pair. -/
def isLineEndChar (c : Char) : Bool := c == '\n' || c == '\r'

/-- Blanks within a line. -/
def isBlank (c : Char) : Bool := c == ' ' || c == '\t' || c == '\x0c'

/-- The length of the line end at the front: a carriage return takes a line feed with it. -/
def lineEndLength : List Char → Nat
  | '\r' :: '\n' :: _ => 2
  | _ => 1

theorem lineEndLength_pos (text : List Char) : 0 < lineEndLength text := by
  unfold lineEndLength
  split <;> decide

/-- The column that a line's blanks lead to. A tab goes on to the next multiple of eight and a form
feed starts over. -/
def columnAfter (blanks : List Char) : Nat :=
  blanks.foldl (fun column c =>
    if c == '\t' then (column / 8 + 1) * 8 else if c == '\x0c' then 0 else column + 1) 0

end TolerantParser
