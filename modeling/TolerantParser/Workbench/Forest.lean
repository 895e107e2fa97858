import TolerantParser.Tree.Span

/-!
Nodes made one by one, named by number. A node may become a child of later ones, and tokens given to
it afterwards show wherever it stands.
-/

namespace TolerantParser

/-- A node with its children, or a node whose children are named by their numbers. -/
inductive Plant where
  | whole (node : Node)
  | grafted (info : NodeInfo) (parts : List (Label × Option Nat))

/-- Nodes by number. -/
abbrev Forest := Array Plant

namespace Forest

/-- The node with a number, with its children as they are now. Children have smaller numbers; the
first argument bounds the depth. -/
def node? (forest : Forest) : Nat → Nat → Option Node
  | 0, _ => none
  | depth + 1, number =>
    match forest[number]? with
    | none => none
    | some (.whole node) => some node
    | some (.grafted info parts) =>
      some (.mk info (.ofList (parts.map fun (label, part) =>
        (label, part.bind (forest.node? depth)))))

/-- The node with a number. -/
def get? (forest : Forest) (number : Nat) : Option Node := forest.node? (forest.size + 1) number

/-- Gives more tokens to a node. -/
def addTokens (forest : Forest) (number : Nat) (cells : List Cell) : Forest :=
  forest.modify number fun
    | .whole node => .whole (node.addTokens cells)
    | .grafted info parts => .grafted { info with tokens := info.tokens ++ cells } parts

/-- Makes a node whose children are nodes of the forest. -/
def graft (forest : Forest) (kind : NodeKind) (detail : Detail) (anchor : Cell) (tokens : List Cell)
    (parts : List (Label × Option Nat)) : Forest :=
  let entries := parts.map fun (label, part) => (label, part.bind forest.get?)
  let node := Node.make kind detail anchor tokens (.ofList entries)
  forest.push (.grafted node.info parts)

end Forest

end TolerantParser
