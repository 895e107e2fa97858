import TolerantParser.Text.Printable

/-!
Quoted text, as error messages and dumps show it. Single quotes stand around the text unless it
holds a single quote and no double quote; the quote, the backslash and unprintable characters are
written as escapes, so quoted text never holds a line end.

Embeds how `_describe` and `dump_tokens` show a text.
-/

namespace TolerantParser

/-- The lower-case hexadecimal digits of `n`, at least `width` of them. -/
def hexDigits (width n : Nat) : List Char :=
  let digits := Nat.toDigits 16 n
  List.replicate (width - digits.length) '0' ++ digits

/-- The quote to put around a text. -/
def quoteFor (text : List Char) : Char :=
  if text.contains '\'' && !text.contains '"' then '"' else '\''

/-- One character inside quotes. An unprintable character is named by its code point, with two,
four or eight digits. -/
def escapeChar (quote c : Char) : List Char :=
  if c == quote || c == '\\' then ['\\', c]
  else if c == '\n' then ['\\', 'n']
  else if c == '\r' then ['\\', 'r']
  else if c == '\t' then ['\\', 't']
  else if isPrintable c then [c]
  else if c.toNat < 0x100 then '\\' :: 'x' :: hexDigits 2 c.toNat
  else if c.toNat < 0x10000 then '\\' :: 'u' :: hexDigits 4 c.toNat
  else '\\' :: 'U' :: hexDigits 8 c.toNat

def quoteChars (text : List Char) : List Char :=
  let quote := quoteFor text
  quote :: text.flatMap (escapeChar quote) ++ [quote]

/-- A text in quotes. -/
def quoted (text : String) : String := String.ofList (quoteChars text.toList)

/-- A text in quotes, or the word for no text at all. -/
def quotedOrNone : Option String → String
  | some text => quoted text
  | none => "None"

end TolerantParser
