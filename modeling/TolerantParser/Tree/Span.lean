import TolerantParser.Tree.Basic

/-!
Spans. A node reaches from the first to the last of its own tokens and its children; line ends,
layout and comments do not count. A node that has nothing to count stands where it was begun.

Embeds `compute_span`, `Node.begin` and `Node.end`.
-/

namespace TolerantParser

/-- Tokens that never widen a span. -/
def TokenKind.isSpanless : TokenKind → Bool
  | .newline | .indent | .dedent | .comment => true
  | _ => false

/-- The extents that a node's span has to cover. -/
def extents (tokens : List Cell) (children : List Node) : List (Position × Position) :=
  (tokens.filter (!·.kind.isSpanless)).map (fun cell => (cell.first, cell.last)) ++
  children.map (fun node => (node.first, node.last))

/-- The span over extents, or the place where the node was begun if there are none. -/
def spanOver (anchor : Position) : List (Position × Position) → Position × Position
  | [] => (anchor, anchor)
  | extent :: rest => rest.foldl (fun span next => (span.1.min next.1, span.2.max next.2)) extent

/-- A new node, begun at `anchor`, with its own tokens and its children. -/
def Node.make (kind : NodeKind) (detail : Detail) (anchor : Cell) (tokens : List Cell)
    (children : Children) : Node :=
  let span := spanOver anchor.first (extents tokens children.nodes)
  .mk { kind, detail, tokens, before := [], after := [], first := span.1, last := span.2 } children

end TolerantParser
