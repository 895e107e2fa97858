import TolerantParser.Text.LineIndex
import TolerantParser.Text.Quoted
import TolerantParser.Text.Range
import TolerantParser.Token.Kind

/-!
Tokens. A token carries the blank text in front of it, so that a list of tokens says all of the
text it was cut from.

Embeds `Token` and `TokenFlags`.
-/

namespace TolerantParser

/-- A piece of text with its kind and place. `lead` is the text between the token before and this
one: blanks, blank lines and joined lines. `startsLine` tells the first token of a line, and
`synthetic` a token that repair put in and the text does not have. -/
structure Token where
  kind : TokenKind
  text : String
  lead : String
  range : TextRange
  first : Position
  last : Position
  startsLine : Bool
  synthetic : Bool
  deriving DecidableEq, Repr

namespace Token

/-- Both flags as one number. -/
def flags (token : Token) : Nat :=
  (if token.startsLine then 1 else 0) + (if token.synthetic then 2 else 0)

/-- A token as error messages name it. -/
def describe (token : Token) : String :=
  s!"Token({token.kind.label}, {quoted token.text}, {token.first.line}:{token.first.column})"

/-- What the token adds to the text. -/
def written (token : Token) : String := token.lead ++ token.text

end Token

/-- The text of the name that repair puts in where one is missing. -/
def missingName : String := "!<MissingName>!"

end TolerantParser
