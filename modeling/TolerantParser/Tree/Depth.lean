import TolerantParser.Fault
import TolerantParser.Tree.Basic

/-!
The depth of trees, and how deep things may be nested before the frames of the machine run out. Where they do is no
part of the parser: it depends on the machine and on what was called before.
-/

namespace TolerantParser

mutual

/-- The number of nodes on the longest way down. -/
def Node.depth : Node → Nat
  | .mk _ children => children.depth + 1

def Children.depth : Children → Nat
  | .nil => 0
  | .gap _ rest => rest.depth
  | .cons _ node rest => max node.depth rest.depth

end

/-- How deep things may be nested: blocks in the statement of a document, expressions in one another, and a tree that is
to be printed or to have its nodes listed. -/
structure Limits where
  block : Nat
  expression : Nat
  printed : Nat
  listed : Nat
  deriving DecidableEq, Repr

/-- Limits that leave room below a limit of a thousand frames. -/
def Limits.usual : Limits := { block := 100, expression := 400, printed := 320, listed := 240 }

/-- Refuses trees that are too deep. -/
def Node.requireDepth (tree : Node) (limit : Nat) : Except Fault Unit :=
  if tree.depth ≤ limit then .ok () else .error .tooDeep

end TolerantParser
