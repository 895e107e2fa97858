import TolerantParser.Dialect.Tables
import TolerantParser.Lexeme.Character

/-!
String literals: mark letters, then text between one or three quotes. A backslash hides the
character after it. A literal that is not closed is an error that takes in what was read of it.

Embeds `_string_prefix_length`, `_lex_string` and `string_contents`.
-/

namespace TolerantParser

/-- The letters that may mark a string literal, in either case. -/
def isStringMark (c : Char) : Bool := ['r', 'R', 'u', 'U', 'b', 'B'].contains c

def isQuote (c : Char) : Bool := c == '\'' || c == '"'

/-- How many mark letters stand in front of the quote at which a literal starts, if one starts
here. At most two letters are looked at. -/
def stringMarkLength? (d : Dialect) (text : List Char) : Option Nat :=
  let marks := (text.take 2).takeWhile isStringMark
  match text.drop marks.length with
  | c :: _ =>
    if isQuote c && d.stringMarks.contains (String.ofList (marks.map Char.toLower)) then
      some marks.length
    else none
  | [] => none

/-- The length of a literal's text up to and with its three closing quotes. -/
def closeTriple (quote : Char) : List Char → Option Nat
  | [] => none
  | ['\\'] => none
  | '\\' :: _ :: rest => (closeTriple quote rest).map (· + 2)
  | c :: rest =>
    if c == quote && [quote, quote].isPrefixOf rest then some 3
    else (closeTriple quote rest).map (· + 1)

/-- The length of a literal's text up to and with its closing quote, or without one as far as its
line goes; and whether it is closed. -/
def closeSingle (quote : Char) : List Char → Bool × Nat
  | [] => (false, 0)
  | ['\\'] => (false, 1)
  | '\\' :: '\r' :: '\n' :: rest => (closeSingle quote rest).map id (· + 3)
  | '\\' :: _ :: rest => (closeSingle quote rest).map id (· + 2)
  | c :: rest =>
    if c == quote then (true, 1)
    else if isLineEndChar c then (false, 0)
    else (closeSingle quote rest).map id (· + 1)

/-- The kind and length of the literal at the front, behind `marks` letters. -/
def scanString (marks : Nat) (text : List Char) : TokenKind × Nat :=
  match text.drop marks with
  | quote :: rest =>
    if [quote, quote].isPrefixOf rest then
      match closeTriple quote (rest.drop 2) with
      | some length => (.string, marks + 3 + length)
      | none => (.error, text.length)
    else
      let (closed, length) := closeSingle quote rest
      (if closed then .string else .error, marks + 1 + length)
  | [] => (.error, text.length)

theorem scanString_pos {marks : Nat} {text : List Char} (nonempty : text ≠ []) :
    0 < (scanString marks text).2 := by
  have := List.length_pos_iff.2 nonempty
  unfold scanString
  split
  · split
    · split <;> (dsimp only; omega)
    · dsimp only
      omega
  · exact this

/-- The text between the quotes of a literal. Of a literal that is not closed, all behind its
opening quotes. -/
def stringContents (text : List Char) : List Char :=
  let body := text.dropWhile isStringMark
  let quote :=
    if body.take 3 == ['"', '"', '"'] || body.take 3 == ['\'', '\'', '\''] then body.take 3
    else body.take 1
  let inner := body.drop quote.length
  if 2 * quote.length ≤ body.length && quote.isSuffixOf body then
    inner.take (inner.length - quote.length)
  else inner

end TolerantParser
