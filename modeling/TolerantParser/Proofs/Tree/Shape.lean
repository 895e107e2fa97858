import TolerantParser.Proofs.Tree.Attaching
import TolerantParser.Proofs.Tree.Runs
import TolerantParser.Tree.Renumber

/-!
The shape of a tree: its kinds of nodes, what each says besides its tokens, and the labels of its children,
with the tokens and the places in the text left out. Neither other tokens nor comments change it.
-/

namespace TolerantParser

mutual

/-- The tree without tokens and places. -/
def Node.shape : Node → Node
  | .mk info children =>
    .mk { kind := info.kind, detail := info.detail, tokens := [], before := [], after := [],
          first := ⟨0, 0⟩, last := ⟨0, 0⟩ } children.shape

def Children.shape : Children → Children
  | .nil => .nil
  | .gap label rest => .gap label rest.shape
  | .cons label node rest => .cons label node.shape rest.shape

end

theorem Node.kind_shape (node : Node) : node.shape.kind = node.kind := by
  cases node
  rfl

theorem Children.toList_shape (children : Children) :
    children.shape.toList = children.toList.map fun part => (part.1, part.2.map Node.shape) := by
  induction children using Children.induction with
  | nil => rfl
  | gap label rest ih => exact congrArg ((label, none) :: ·) ih
  | cons label node rest ih => exact congrArg ((label, some node.shape) :: ·) ih

theorem Children.nodes_shape (children : Children) : children.shape.nodes = children.nodes.map Node.shape := by
  induction children using Children.induction with
  | nil => rfl
  | gap _ rest ih => exact ih
  | cons _ node rest ih => exact congrArg (node.shape :: ·) ih

theorem Node.children_shape (node : Node) : node.shape.children = node.children.shape := by
  cases node
  rfl

/-! ### What leaves the shape as it is -/

mutual

theorem Node.shape_mapTokens (f : Cell → Cell) : (node : Node) → (node.mapTokens f).shape = node.shape
  | .mk _ children => congrArg (Node.mk _) (children.shape_mapTokens f)

theorem Children.shape_mapTokens (f : Cell → Cell) : (children : Children) →
    (children.mapTokens f).shape = children.shape
  | .nil => rfl
  | .gap label rest => congrArg (Children.gap label) (rest.shape_mapTokens f)
  | .cons label node rest =>
    congrArg₂ (Children.cons label) (node.shape_mapTokens f) (rest.shape_mapTokens f)

end

mutual

theorem Node.shape_withComments (plan : CommentPlan) (around : Option Bounds) : (node : Node) →
    (outline : Outline) → (node.withComments plan around outline).shape = node.shape
  | .mk _ children, .mk bounds inner => congrArg (Node.mk _) (children.shape_withComments plan bounds inner)

theorem Children.shape_withComments (plan : CommentPlan) (around : Option Bounds) :
    (children : Children) → (outlines : Outlines) →
      (children.withComments plan around outlines).shape = children.shape
  | .nil, _ => rfl
  | .gap label rest, outlines => congrArg (Children.gap label) (rest.shape_withComments plan around outlines)
  | .cons _ _ _, .nil => rfl
  | .cons label node rest, .cons outline outlines =>
    congrArg₂ (Children.cons label) (node.shape_withComments plan around outline)
      (rest.shape_withComments plan around outlines)

end

theorem Node.shape_attachComments (tree : Node) (tokens : List Cell) :
    (tree.attachComments tokens).shape = tree.shape := by
  cases tree
  exact congrArg (Node.mk _) (Children.shape_withComments _ _ _ _)

/-! ### What the shape tells -/

theorem Node.gapless_shape (node : Node) : node.shape.Gapless ↔ node.Gapless := by
  rw [Gapless, Gapless, node.kind_shape, node.children_shape, Children.toList_shape, List.forall_mem_map]
  simp only [Option.isSome_map]

theorem Node.filled_shape (node : Node) : node.shape.Filled ↔ node.Filled := by
  have entries : node.shape.entries .body = (node.entries .body).map (Option.map Node.shape) := by
    rw [Node.entries, node.children_shape, Children.toList_shape]
    exact entriesOf_mapParts ..
  rw [Filled, Filled, node.kind_shape, entries, ne_eq, List.map_eq_nil_iff]

theorem Node.whole_shape {solid : Prop} (node : Node) : node.shape.Whole solid ↔ node.Whole solid := by
  induction node using Node.of_children with
  | step node ih =>
    have below : (∀ child ∈ node.shape.children.nodes, child.Whole solid) ↔
        ∀ child ∈ node.children.nodes, child.Whole solid := by
      rw [node.children_shape, Children.nodes_shape, List.forall_mem_map]
      exact forall₂_congr ih
    constructor
    · rintro ⟨gapless, filled, inner⟩
      exact .mk (node.gapless_shape.1 gapless) (node.filled_shape.1 ∘ filled) (below.1 inner)
    · rintro ⟨gapless, filled, inner⟩
      exact .mk (node.gapless_shape.2 gapless) (node.filled_shape.2 ∘ filled) (below.2 inner)

/-- No node of a tree that lacks nothing lacks anything. -/
theorem Node.Whole.inner {solid : Prop} {node inner : Node} (whole : node.Whole solid) (listed : inner ∈ node.listed) :
    inner.Whole solid := by
  induction whole with
  | mk gapless filled below ih =>
    rcases Node.mem_listed.1 listed with rfl | ⟨child, member, inside⟩
    · exact .mk gapless filled below
    · exact ih child member inside

theorem Node.Whole.listed {solid : Prop} {node inner : Node} (whole : node.Whole solid) (listed : inner ∈ node.listed) :
    inner.Gapless := by
  obtain ⟨gapless, -, -⟩ := whole.inner listed
  exact gapless

theorem Node.Whole.filled {solid : Prop} {node inner : Node} (whole : node.Whole solid) (listed : inner ∈ node.listed)
    (holds : solid) : inner.Filled := by
  obtain ⟨-, filled, -⟩ := whole.inner listed
  exact filled holds

/-- The values of a dictionary without gaps are all there. -/
theorem Node.Gapless.values {node : Node} (gapless : node.Gapless) (dict : node.kind = .dict) :
    none ∉ node.entries .values := by
  rw [entries, List.mem_map]
  rintro ⟨part, member, missing⟩
  have there := gapless dict part (List.mem_of_mem_filter member)
  rw [missing] at there
  cases there

end TolerantParser
