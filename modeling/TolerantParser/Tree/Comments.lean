import TolerantParser.Tree.Basic

/-!
Comments on trees. A comment belongs, in this order of preference, before the outermost node that
starts at the next token; before the document, if no token comes before it; after the outermost node
that ends at the token before it; or among the tokens of the node that owns the next token. Only
tokens that some node owns count, and block layout does not.

Embeds `attach_comments`, `_place` and `_CommentIndex`.
-/

namespace TolerantParser

/-- Tokens at which no node starts or ends. -/
def TokenKind.isInsignificant : TokenKind → Bool
  | .indent | .dedent | .comment => true
  | _ => false

/-- The first and last place that a node's tokens take. -/
structure Bounds where
  first : Nat
  last : Nat
  deriving DecidableEq, Repr

namespace Bounds

/-- Bounds over two parts, either of which may hold no token. -/
def join : Option Bounds → Option Bounds → Option Bounds
  | some a, some b => some ⟨min a.first b.first, max a.last b.last⟩
  | some a, none => some a
  | none, b => b

/-- The bounds of a node's own tokens. -/
def ofTokens (cells : List Cell) : Option Bounds :=
  cells.foldl (fun bounds cell =>
    if cell.kind.isInsignificant then bounds else join bounds (some ⟨cell.index, cell.index⟩)) none

end Bounds

mutual

def Node.bounds : Node → Option Bounds
  | .mk info children => Bounds.join (Bounds.ofTokens info.tokens) children.bounds

def Children.bounds : Children → Option Bounds
  | .nil => none
  | .gap _ rest => rest.bounds
  | .cons _ node rest => Bounds.join node.bounds rest.bounds

end

mutual

/-- All tokens that the nodes of a tree own. -/
def Node.ownedTokens : Node → List Cell
  | .mk info children => info.tokens ++ children.ownedTokens

def Children.ownedTokens : Children → List Cell
  | .nil => []
  | .gap _ rest => rest.ownedTokens
  | .cons _ node rest => node.ownedTokens ++ rest.ownedTokens

end

mutual

/-- The bounds of a node and of all nodes below it, in the shape of the tree. -/
inductive Outline where
  | mk (bounds : Option Bounds) (inner : Outlines)

inductive Outlines where
  | nil
  | cons (outline : Outline) (rest : Outlines)

end

def Outline.bounds : Outline → Option Bounds
  | .mk bounds _ => bounds

def Outline.inner : Outline → Outlines
  | .mk _ inner => inner

/-- The bounds over all outlines of a list. -/
def Outlines.bounds : Outlines → Option Bounds
  | .nil => none
  | .cons outline rest => Bounds.join outline.bounds rest.bounds

mutual

/-- All bounds in an outline, the outermost first. -/
def Outline.all : Outline → List Bounds
  | .mk bounds inner => bounds.toList ++ inner.all

def Outlines.all : Outlines → List Bounds
  | .nil => []
  | .cons outline rest => outline.all ++ rest.all

end

mutual

def Node.outline : Node → Outline
  | .mk info children =>
    .mk (Bounds.join (Bounds.ofTokens info.tokens) children.outlines.bounds) children.outlines

def Children.outlines : Children → Outlines
  | .nil => .nil
  | .gap _ rest => rest.outlines
  | .cons _ node rest => .cons node.outline rest.outlines

end

mutual

theorem Node.outline_bounds : (node : Node) → node.outline.bounds = node.bounds
  | .mk info children => by
    simp only [Node.outline, Outline.bounds, Node.bounds, Children.outlines_bounds children]

theorem Children.outlines_bounds : (children : Children) →
    children.outlines.bounds = children.bounds
  | .nil => rfl
  | .gap _ rest => by
    simp only [Children.outlines, Children.bounds, Children.outlines_bounds rest]
  | .cons _ node rest => by
    simp only [Children.outlines, Outlines.bounds, Children.bounds, Node.outline_bounds node,
      Children.outlines_bounds rest]

end

/-- Where comments go: by the first place of the node they stand before, by the last place of the
node they stand after, by the token whose owner takes them, or before the document. -/
structure CommentPlan where
  before : Array (List Cell)
  after : Array (List Cell)
  inside : Array (List Cell)
  document : List Cell
  deriving Repr

namespace CommentPlan

def empty (size : Nat) : CommentPlan :=
  { before := Array.replicate size [], after := Array.replicate size [],
    inside := Array.replicate size [], document := [] }

/-- The places that are marked, of `size` places. -/
def marked (size : Nat) (places : List Nat) : Array Bool :=
  places.foldl (fun marks place => marks.setIfInBounds place true) (Array.replicate size false)

/-- What has been found on the way through a document: the last token that counts, and the comments
since. -/
structure Walk where
  plan : CommentPlan
  previous : Option Nat
  pending : List Cell

/-- Places the comments between two tokens that count. -/
def place (plan : CommentPlan) (starts ends : Nat → Bool) (previous : Option Nat)
    (following : Nat) (comments : List Cell) : CommentPlan :=
  if starts following then
    { plan with before := plan.before.modify following (· ++ comments) }
  else match previous with
    | none => { plan with document := plan.document ++ comments }
    | some previous =>
      if ends previous then
        { plan with after := plan.after.modify previous (· ++ comments) }
      else { plan with inside := plan.inside.modify following (· ++ comments) }

/-- Goes over one token of the document. -/
def visit (owned starts ends : Nat → Bool) (walk : Walk) (cell : Cell) : Walk :=
  if cell.isComment then { walk with pending := walk.pending ++ [cell] }
  else if cell.kind.isInsignificant || !owned cell.index then walk
  else
    { plan :=
        if walk.pending.isEmpty then walk.plan
        else walk.plan.place starts ends walk.previous cell.index walk.pending
      previous := some cell.index, pending := [] }

/-- Where the comments of a document go, given the places that a tree over it owns and those at which a node below its
root starts or ends. -/
def ofPlaces (owned starts ends : Nat → Bool) (tokens : List Cell) : CommentPlan :=
  let walk := tokens.foldl (visit owned starts ends) ⟨empty tokens.length, none, []⟩
  { walk.plan with document := walk.plan.document ++ walk.pending }

/-- Where the comments of a document go on a tree over it, given the outlines below its root. -/
def ofDocument (tree : Node) (outlines : Outlines) (tokens : List Cell) : CommentPlan :=
  let size := tokens.length
  let bounds := outlines.all
  let owned := marked size (tree.ownedTokens.map (·.index))
  let starts := marked size (bounds.map (·.first))
  let ends := marked size (bounds.map (·.last))
  ofPlaces (owned.getD · false) (starts.getD · false) (ends.getD · false) tokens

/-- The comments that a node's own tokens bring it, in document order. -/
def insideOf (plan : CommentPlan) (tokens : List Cell) : List Cell :=
  ((tokens.map (·.index)).mergeSort).flatMap fun place => plan.inside.getD place []

end CommentPlan

/-- The comments of a plan at one end of a node, unless a node around it has the same end. -/
def commentsAt (comments : Array (List Cell)) (side : Bounds → Nat) (around bounds : Option Bounds) :
    List Cell :=
  match bounds with
  | none => []
  | some bounds =>
    if around.any (side · == side bounds) then [] else comments.getD (side bounds) []

mutual

/-- Hangs the comments of a plan on a tree with a given outline. The bounds of the node around tell
which ends are taken by a node further out. -/
def Node.withComments (plan : CommentPlan) (around : Option Bounds) : Node → Outline → Node
  | .mk info children, .mk bounds inner =>
    .mk { info with
      tokens := info.tokens ++ plan.insideOf info.tokens
      before := info.before ++ commentsAt plan.before Bounds.first around bounds
      after := info.after ++ commentsAt plan.after Bounds.last around bounds }
      (children.withComments plan bounds inner)

def Children.withComments (plan : CommentPlan) (around : Option Bounds) :
    Children → Outlines → Children
  | .nil, _ => .nil
  | .gap label rest, outlines => .gap label (rest.withComments plan around outlines)
  | .cons label node rest, .nil => .cons label node rest
  | .cons label node rest, .cons outline outlines =>
    .cons label (node.withComments plan around outline) (rest.withComments plan around outlines)

end

/-- Hangs the comments of a document on a tree over it. Nothing but the document itself stands
around the nodes below the root. -/
def Node.attachComments (tree : Node) (tokens : List Cell) : Node :=
  let outlines := tree.children.outlines
  let plan := CommentPlan.ofDocument tree outlines tokens
  .mk { tree.info with
    tokens := tree.tokens ++ plan.insideOf tree.tokens
    before := tree.info.before ++ plan.document }
    (tree.children.withComments plan none outlines)

end TolerantParser
