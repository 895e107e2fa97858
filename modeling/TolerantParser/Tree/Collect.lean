import TolerantParser.Tree.Depth

/-!
The nodes of a tree as a list: each node before its children, children by where they begin.

Embeds `NodeCollector.collect` over `NodeVisitor`.
-/

namespace TolerantParser

/-- Lists in the order of the places they go with; lists with one place keep their order. -/
def inOrder {α : Type} (parts : List (Position × List α)) : List α :=
  (parts.mergeSort fun a b => a.1.le b.1).flatMap Prod.snd

mutual

def Node.listed : Node → List Node
  | .mk info children => .mk info children :: inOrder children.listed

/-- The lists of the children, each with the place where the child begins. -/
def Children.listed : Children → List (Position × List Node)
  | .nil => []
  | .gap _ rest => rest.listed
  | .cons _ node rest => (node.first, node.listed) :: rest.listed

end

/-- The nodes of some kinds in a tree, or all nodes if no kind is named. -/
def Node.collect? (limits : Limits) (tree : Node) (kinds : List NodeKind) : Except Fault (List Node) := do
  tree.requireDepth limits.listed
  return tree.listed.filter fun node => kinds.isEmpty || kinds.contains node.kind

end TolerantParser
