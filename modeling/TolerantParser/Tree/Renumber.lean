import TolerantParser.Tree.Basic

/-!
Trees over a finished document. When all tokens are in their places, every token of a tree is
exchanged for the token of the document, whose number is its place.

Embeds the numbers that `TokenStream.finish` gives the tokens.
-/

namespace TolerantParser

mutual

/-- Exchanges every token of a tree. -/
def Node.mapTokens (f : Cell → Cell) : Node → Node
  | .mk info children =>
    .mk { info with
      tokens := info.tokens.map f, before := info.before.map f, after := info.after.map f }
      (children.mapTokens f)

def Children.mapTokens (f : Cell → Cell) : Children → Children
  | .nil => .nil
  | .gap label rest => .gap label (rest.mapTokens f)
  | .cons label node rest => .cons label (node.mapTokens f) (rest.mapTokens f)

end

/-- The tokens of a document in order, and the place of each by its former number. -/
structure Places where
  tokens : Array Cell
  places : Array Nat
  deriving Repr

namespace Places

/-- Settles the places of tokens given in document order, with numbers below `size`. -/
def ofDocument (cells : List Cell) (size : Nat) : Places :=
  { tokens := (cells.zipIdx.map fun (cell, place) => cell.renumber place).toArray
    places := cells.zipIdx.foldl (fun places (cell, place) => places.setIfInBounds cell.index place)
      (Array.replicate size 0) }

/-- The token of the document that a token has become. -/
def final (p : Places) (cell : Cell) : Cell :=
  ((p.places[cell.index]?).bind (p.tokens[·]?)).getD cell

end Places

end TolerantParser
