import Mathlib.Order.MinMax
import TolerantParser.Proofs.Tree.Pieces
import TolerantParser.Tree.Comments

/-!
Which tokens the nodes of a tree own, by their places in the document. The places that matter to comments,
those of all tokens but layout, are a node's `marks`; its bounds are the first and the last of them. In a
tree that is `Separate` what is below one child of a node lies before or behind what is below another one
and before or behind each token of the node's own.
-/

namespace TolerantParser

/-! ### Lists of children -/

mutual

theorem Node.of_children {motive : Node → Prop}
    (step : ∀ node, (∀ child ∈ node.children.nodes, motive child) → motive node) :
    (node : Node) → motive node
  | .mk info children => step (.mk info children) (Children.of_children step children)

theorem Children.of_children {motive : Node → Prop}
    (step : ∀ node, (∀ child ∈ node.children.nodes, motive child) → motive node) :
    (children : Children) → ∀ child ∈ children.nodes, motive child
  | .nil => nofun
  | .gap _ rest => Children.of_children step rest
  | .cons _ node rest =>
    List.forall_mem_cons.2 ⟨Node.of_children step node, Children.of_children step rest⟩

end

theorem Children.ownedTokens_eq : (children : Children) →
    children.ownedTokens = children.nodes.flatMap Node.ownedTokens
  | .nil => rfl
  | .gap _ rest => Children.ownedTokens_eq rest
  | .cons _ node rest => congrArg (node.ownedTokens ++ ·) (Children.ownedTokens_eq rest)

theorem Node.ownedTokens_eq (node : Node) :
    node.ownedTokens = node.tokens ++ node.children.nodes.flatMap Node.ownedTokens := by
  cases node with
  | mk info children => exact congrArg (info.tokens ++ ·) children.ownedTokens_eq

theorem Children.all_outlines : (children : Children) →
    children.outlines.all = children.nodes.flatMap (·.outline.all)
  | .nil => rfl
  | .gap _ rest => Children.all_outlines rest
  | .cons _ node rest => congrArg (node.outline.all ++ ·) (Children.all_outlines rest)

theorem Node.all_outline (node : Node) : node.outline.all =
    node.bounds.toList ++ node.children.nodes.flatMap (·.outline.all) := by
  rw [← Node.outline_bounds]
  cases node with
  | mk info children => exact congrArg (_ ++ ·) children.all_outlines

/-! ### Places -/

/-- The places of the tokens of a node and of the nodes below it. -/
def Node.places (node : Node) : List Nat := node.ownedTokens.map Cell.index

/-- The places among tokens that are no layout. -/
def marksOf (cells : List Cell) : List Nat := (cells.filter (!·.kind.isInsignificant)).map Cell.index

/-- The places of a node and the nodes below it that are no layout. -/
def Node.marks (node : Node) : List Nat := marksOf node.ownedTokens

@[simp] theorem marksOf_append (cells more : List Cell) :
    marksOf (cells ++ more) = marksOf cells ++ marksOf more := by
  simp [marksOf]

theorem mem_marksOf {cells : List Cell} {place : Nat} : place ∈ marksOf cells ↔
    ∃ cell ∈ cells, cell.kind.isInsignificant = false ∧ cell.index = place := by
  simp [marksOf, and_assoc]

theorem places_of_marks {node : Node} {place : Nat} (mark : place ∈ node.marks) : place ∈ node.places := by
  obtain ⟨cell, listed, -, rfl⟩ := mem_marksOf.1 mark
  exact List.mem_map_of_mem listed

theorem Node.places_eq (node : Node) :
    node.places = node.tokens.map Cell.index ++ node.children.nodes.flatMap Node.places := by
  rw [Node.places, Node.ownedTokens_eq, List.map_append, List.map_flatMap]
  rfl

theorem mem_marks {node : Node} {place : Nat} : place ∈ node.marks ↔
    place ∈ marksOf node.tokens ∨ ∃ child ∈ node.children.nodes, place ∈ child.marks := by
  rw [Node.marks, Node.ownedTokens_eq, marksOf_append, List.mem_append, marksOf, marksOf,
    List.filter_flatMap, List.map_flatMap, List.mem_flatMap]
  rfl

/-! ### Bounds -/

/-- The bounds are the first and the last of some places. -/
def Bound (places : List Nat) : Option Bounds → Prop
  | none => places = []
  | some bounds => bounds.first ∈ places ∧ bounds.last ∈ places ∧
    ∀ place ∈ places, bounds.first ≤ place ∧ place ≤ bounds.last

theorem Bound.join {places more : List Nat} {a b : Option Bounds} (first : Bound places a)
    (second : Bound more b) : Bound (places ++ more) (Bounds.join a b) := by
  cases a with
  | none =>
    rw [show places = [] from first]
    cases b <;> exact second
  | some a =>
    cases b with
    | none =>
      rw [show more = [] from second, List.append_nil]
      exact first
    | some b =>
      obtain ⟨aFirst, aLast, aAll⟩ := first
      obtain ⟨bFirst, bLast, bAll⟩ := second
      refine ⟨?_, ?_, fun place member => ?_⟩
      · show min a.first b.first ∈ places ++ more
        rcases min_choice a.first b.first with same | same <;> rw [same]
        · exact List.mem_append_left _ aFirst
        · exact List.mem_append_right _ bFirst
      · show max a.last b.last ∈ places ++ more
        rcases max_choice a.last b.last with same | same <;> rw [same]
        · exact List.mem_append_left _ aLast
        · exact List.mem_append_right _ bLast
      · rw [List.mem_append] at member
        dsimp only
        rcases member with one | other
        · have := aAll place one
          omega
        · have := bAll place other
          omega

theorem bound_ofTokens (cells : List Cell) : Bound (marksOf cells) (Bounds.ofTokens cells) := by
  have upTo : ∀ (cells : List Cell) (seen : List Nat) (bounds : Option Bounds), Bound seen bounds →
      Bound (seen ++ marksOf cells) (cells.foldl (fun bounds cell =>
        if cell.kind.isInsignificant then bounds
        else Bounds.join bounds (some ⟨cell.index, cell.index⟩)) bounds) := by
    intro cells
    induction cells with
    | nil => exact fun seen bounds holds => by simpa [marksOf] using holds
    | cons cell rest ih =>
      intro seen bounds holds
      rw [List.foldl_cons]
      split
      next layout => simpa [marksOf, layout] using ih seen bounds holds
      next mark =>
        have single : Bound [cell.index] (some ⟨cell.index, cell.index⟩) := by simp [Bound]
        simpa [marksOf, mark] using ih _ _ (holds.join single)
  exact upTo cells [] none rfl

mutual

theorem Node.bound : (node : Node) → Bound node.marks node.bounds
  | .mk info children => by
    rw [Node.marks, Node.ownedTokens, marksOf_append, Node.bounds]
    exact (bound_ofTokens info.tokens).join children.bound

theorem Children.bound : (children : Children) → Bound (marksOf children.ownedTokens) children.bounds
  | .nil => rfl
  | .gap _ rest => rest.bound
  | .cons _ node rest => by
    rw [Children.ownedTokens, marksOf_append, Children.bounds]
    exact node.bound.join rest.bound

end

/-- All bounds in a tree are marks of it. -/
theorem mem_outline (node : Node) : ∀ bounds ∈ node.outline.all,
    bounds.first ∈ node.marks ∧ bounds.last ∈ node.marks := by
  induction node using Node.of_children with
  | step node ih =>
    intro bounds listed
    rw [Node.all_outline, List.mem_append, Option.mem_toList] at listed
    rcases listed with own | below
    · have bound := node.bound
      rw [Option.mem_def.1 own] at bound
      exact ⟨bound.1, bound.2.1⟩
    · obtain ⟨child, member, inside⟩ := List.mem_flatMap.1 below
      obtain ⟨first, last⟩ := ih child member bounds inside
      exact ⟨mem_marks.2 (.inr ⟨child, member, first⟩), mem_marks.2 (.inr ⟨child, member, last⟩)⟩

/-! ### Trees whose parts lie apart -/

/-- The places of one part lie before those of the other, or behind them. -/
def Apart (places more : List Nat) : Prop :=
  (∀ place ∈ places, ∀ other ∈ more, place < other) ∨ ∀ place ∈ places, ∀ other ∈ more, other < place

theorem Apart.symm {places more : List Nat} (apart : Apart places more) : Apart more places := by
  rcases apart with before | behind
  · exact .inr fun place member other listed => before other listed place member
  · exact .inl fun place member other listed => behind other listed place member

theorem Apart.subset {places more fewer less : List Nat} (apart : Apart places more)
    (first : fewer ⊆ places) (second : less ⊆ more) : Apart fewer less :=
  apart.imp (fun before place member other listed => before place (first member) other (second listed))
    fun behind place member other listed => behind place (first member) other (second listed)

theorem Apart.not_mem {places more : List Nat} (apart : Apart places more) {place : Nat}
    (member : place ∈ places) : place ∉ more := fun listed =>
  apart.elim (fun before => Nat.lt_irrefl _ (before place member place listed))
    fun behind => Nat.lt_irrefl _ (behind place member place listed)

/-- In each node of the tree the children lie apart from each other and from the node's own tokens. -/
inductive Node.Separate : Node → Prop
  | mk {node : Node} (nodup : (node.tokens.map Cell.index).Nodup)
      (children : node.children.nodes.Pairwise fun a b => Apart a.places b.places)
      (own : ∀ cell ∈ node.tokens, ∀ child ∈ node.children.nodes, Apart [cell.index] child.places)
      (below : ∀ child ∈ node.children.nodes, Separate child) : Separate node

end TolerantParser
