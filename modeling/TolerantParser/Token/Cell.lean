import TolerantParser.Token.Basic

/-!
Numbered tokens. While a text is parsed the number is the order in which the token was read or put
in; in a finished document it is the token's place.

Embeds the number that `Token.index` has in its stream.
-/

namespace TolerantParser

/-- A token with its number. -/
structure Cell extends Token where
  index : Nat
  deriving DecidableEq, Repr

/-- The same token under another number. -/
def Cell.renumber (cell : Cell) (index : Nat) : Cell := { cell with index }

def Cell.isComment (cell : Cell) : Bool := cell.kind == .comment

end TolerantParser
