import TolerantParser.Proofs.Printer.Written
import TolerantParser.Proofs.Tree.Alike
import TolerantParser.Tree.Depth
import TolerantParser.Tree.Renumber

/-!
Sketches of trees: the kinds of the nodes, what they say besides their tokens, their children under their labels,
and, of the tokens that they own and of where they stand, as much as is asked for. The comments of a document are not
in the sketch, so that hanging them on a tree does not change it. Trees that are alike have the same sketch.
-/

namespace TolerantParser

/-- A tree in which tokens are seen as `σ`, or not at all, and places as `τ`. -/
inductive Sketch (σ τ : Type) where
  | mk (kind : NodeKind) (detail : Detail) (tokens : List σ) (first last : τ)
      (children : List (Label × Option (Sketch σ τ)))

section

variable {σ τ : Type}

/-- The children that are there. -/
def Sketch.parts : Sketch σ τ → List (Sketch σ τ)
  | .mk _ _ _ _ _ children => children.filterMap Prod.snd

mutual

/-- The sketch of a tree, given how tokens and places are to be seen. -/
def Node.sketch (see : Cell → Option σ) (spot : Position → τ) : Node → Sketch σ τ
  | .mk info children =>
    .mk info.kind info.detail (info.tokens.filterMap see) (spot info.first) (spot info.last)
      (children.sketch see spot)

def Children.sketch (see : Cell → Option σ) (spot : Position → τ) :
    Children → List (Label × Option (Sketch σ τ))
  | .nil => []
  | .gap label rest => (label, none) :: rest.sketch see spot
  | .cons label node rest => (label, some (node.sketch see spot)) :: rest.sketch see spot

end

variable {see see' : Cell → Option σ} {spot spot' : Position → τ}

theorem Children.parts_sketch (children : Children) :
    (children.sketch see spot).filterMap Prod.snd = children.nodes.map (·.sketch see spot) := by
  induction children using Children.induction with
  | nil => rfl
  | gap _ rest ih => exact ih
  | cons _ node rest ih => exact congrArg (node.sketch see spot :: ·) ih

theorem Node.parts_sketch (node : Node) :
    (node.sketch see spot).parts = node.children.nodes.map (·.sketch see spot) := by
  cases node with
  | mk info children => exact children.parts_sketch

/-! ### Other tokens -/

mutual

theorem Node.sketch_mapTokens (f : Cell → Cell) :
    (node : Node) → (node.mapTokens f).sketch see spot = node.sketch (see ∘ f) spot
  | .mk info children => by
    simp only [Node.mapTokens, Node.sketch, List.filterMap_map, children.sketch_mapTokens f]

theorem Children.sketch_mapTokens (f : Cell → Cell) :
    (children : Children) → (children.mapTokens f).sketch see spot = children.sketch (see ∘ f) spot
  | .nil => rfl
  | .gap label rest => congrArg ((label, none) :: ·) (rest.sketch_mapTokens f)
  | .cons label node rest => by
    simp only [Children.mapTokens, Children.sketch, node.sketch_mapTokens f, rest.sketch_mapTokens f]

end

/-! ### Comments -/

namespace CommentPlan

/-- Everything that the plan places is a comment. -/
def OfComments (plan : CommentPlan) : Prop := ∀ spot, ∀ cell ∈ plan.commentsIn spot, cell.isComment

theorem ofComments_empty (size : Nat) : (empty size).OfComments := by
  intro spot cell member
  cases spot <;> simp [commentsIn, empty, Array.getD_eq_getD_getElem?, Array.getElem?_replicate] at member <;>
    (split at member <;> simp at member)

theorem OfComments.add {plan : CommentPlan} (planned : plan.OfComments) {comments : List Cell}
    (more : ∀ cell ∈ comments, cell.isComment) (spot : Spot) : (plan.add comments spot).OfComments := by
  intro other cell member
  rcases commentsIn_add plan comments spot other with same | ⟨-, grown⟩
  · exact planned other cell (same ▸ member)
  · rw [grown, List.mem_append] at member
    exact member.elim (planned other cell) (more cell)

theorem place_eq_add (plan : CommentPlan) (starts ends : Nat → Bool) (previous : Option Nat) (following : Nat)
    (comments : List Cell) : ∃ spot, plan.place starts ends previous following comments = plan.add comments spot := by
  unfold place
  split
  · exact ⟨.before following, rfl⟩
  cases previous with
  | none => exact ⟨.top, rfl⟩
  | some previous =>
    dsimp only
    split
    · exact ⟨.after previous, rfl⟩
    · exact ⟨.inside following, rfl⟩

theorem ofComments_visits (owned starts ends : Nat → Bool) (tokens : List Cell) {walk : Walk}
    (planned : walk.plan.OfComments) (pending : ∀ cell ∈ walk.pending, cell.isComment) :
    (tokens.foldl (visit owned starts ends) walk).plan.OfComments ∧
      ∀ cell ∈ (tokens.foldl (visit owned starts ends) walk).pending, cell.isComment := by
  induction tokens generalizing walk with
  | nil => exact ⟨planned, pending⟩
  | cons token tokens ih =>
    rw [List.foldl_cons]
    refine ih ?_ ?_
    · unfold visit
      split
      · exact planned
      split
      · exact planned
      dsimp only
      split
      · exact planned
      · obtain ⟨spot, same⟩ := place_eq_add walk.plan starts ends walk.previous token.index walk.pending
        rw [same]
        exact planned.add pending spot
    · unfold visit
      split
      next comment => simpa [or_imp, forall_and] using ⟨pending, comment⟩
      split
      · exact pending
      · exact List.forall_mem_nil _

theorem ofComments_ofDocument (tree : Node) (outlines : Outlines) (tokens : List Cell) :
    (ofDocument tree outlines tokens).OfComments := by
  let walk := tokens.foldl (visit ((marked tokens.length (tree.ownedTokens.map (·.index))).getD · false)
    ((marked tokens.length (outlines.all.map (·.first))).getD · false)
    ((marked tokens.length (outlines.all.map (·.last))).getD · false)) ⟨empty tokens.length, none, []⟩
  have walked : walk.plan.OfComments ∧ ∀ cell ∈ walk.pending, cell.isComment :=
    ofComments_visits _ _ _ tokens (ofComments_empty _) (List.forall_mem_nil _)
  show (walk.plan.add walk.pending .top).OfComments
  exact walked.1.add walked.2 .top

end CommentPlan

/-- Comments are not seen. -/
def Unseen (see : Cell → Option σ) : Prop := ∀ cell : Cell, cell.isComment → see cell = none

theorem filterMap_comments (unseen : Unseen see) {plan : CommentPlan} (planned : plan.OfComments)
    (tokens : List Cell) : (tokens ++ plan.insideOf tokens).filterMap see = tokens.filterMap see := by
  have none : (plan.insideOf tokens).filterMap see = [] := List.filterMap_eq_nil_iff.2 fun cell member => by
    obtain ⟨token, -, inside⟩ := mem_insideOf.1 member
    exact unseen cell (planned _ cell inside)
  rw [List.filterMap_append, none, List.append_nil]

mutual

theorem Node.sketch_withComments (unseen : Unseen see) {plan : CommentPlan} (planned : plan.OfComments)
    (around : Option Bounds) : (node : Node) → (outline : Outline) →
      (node.withComments plan around outline).sketch see spot = node.sketch see spot
  | .mk info children, .mk bounds inner => by
    simp only [Node.withComments, Node.sketch, filterMap_comments unseen planned,
      children.sketch_withComments unseen planned bounds inner]

theorem Children.sketch_withComments (unseen : Unseen see) {plan : CommentPlan} (planned : plan.OfComments)
    (around : Option Bounds) : (children : Children) → (outlines : Outlines) →
      (children.withComments plan around outlines).sketch see spot = children.sketch see spot
  | .nil, _ => rfl
  | .gap label rest, outlines => congrArg ((label, none) :: ·) (rest.sketch_withComments unseen planned around outlines)
  | .cons _ _ _, .nil => rfl
  | .cons label node rest, .cons outline outlines => by
    simp only [Children.withComments, Children.sketch, node.sketch_withComments unseen planned around outline,
      rest.sketch_withComments unseen planned around outlines]

end

/-- Hanging the comments of a document on a tree does not change the sketch. -/
theorem Node.sketch_attachComments (unseen : Unseen see) (tree : Node) (tokens : List Cell) :
    (tree.attachComments tokens).sketch see spot = tree.sketch see spot := by
  have planned := CommentPlan.ofComments_ofDocument tree tree.children.outlines tokens
  cases tree with
  | mk info children =>
    simp only [Node.attachComments, Node.sketch, Node.tokens, Node.info, Node.children] at planned ⊢
    rw [filterMap_comments unseen planned, children.sketch_withComments unseen planned]

/-! ### What a sketch tells -/

mutual

/-- Trees with the same sketch are as deep as each other and own the same tokens, as far as these are seen. -/
theorem Node.of_sketch_eq : (node other : Node) → node.sketch see spot = other.sketch see' spot' →
    node.depth = other.depth ∧ node.ownedTokens.filterMap see = other.ownedTokens.filterMap see'
  | .mk info children, .mk info' others, same => by
    simp only [Node.sketch, Sketch.mk.injEq] at same
    obtain ⟨-, -, tokens, -, -, below⟩ := same
    obtain ⟨depth, owned⟩ := Children.of_sketch_eq children others below
    simp only [Node.depth, Node.ownedTokens, List.filterMap_append, depth, tokens, owned, and_self]

theorem Children.of_sketch_eq : (children others : Children) →
    children.sketch see spot = others.sketch see' spot' →
    children.depth = others.depth ∧ children.ownedTokens.filterMap see = others.ownedTokens.filterMap see'
  | .nil, .nil, _ => ⟨rfl, rfl⟩
  | .gap _ rest, .gap _ rest', same => Children.of_sketch_eq rest rest' (List.cons.inj same).2
  | .cons _ node rest, .cons _ node' rest', same => by
    simp only [Children.sketch, List.cons.injEq, Prod.mk.injEq, Option.some.injEq] at same
    obtain ⟨depth, owned⟩ := Node.of_sketch_eq node node' same.1.2
    obtain ⟨depths, others⟩ := Children.of_sketch_eq rest rest' same.2
    simp only [Children.depth, Children.ownedTokens, List.filterMap_append, depth, depths, owned, others, and_self]
  | .nil, .gap .., same | .nil, .cons .., same | .gap .., .nil, same | .cons .., .nil, same => by
    simp only [Children.sketch, reduceCtorEq] at same
  | .gap .., .cons .., same | .cons .., .gap .., same => by
    simp only [Children.sketch, List.cons.injEq, Prod.mk.injEq, reduceCtorEq, and_false, false_and] at same

end

/-! ### Trees that are alike -/

variable {W : Pairing}

theorem filterMap_alike (same : ∀ cell other : Cell, W.tokens cell.index other.index → see cell = see' other)
    {tokens others : List Cell} (alike : Alike W tokens others) : tokens.filterMap see = others.filterMap see' := by
  induction alike with
  | nil => rfl
  | cons first _ ih =>
    rw [List.filterMap_cons, List.filterMap_cons, same _ _ (Cell.Alike.paired first), ih]

mutual

theorem Node.Alike.sketch_eq (same : ∀ cell other : Cell, W.tokens cell.index other.index → see cell = see' other)
    (equally : ∀ p q, W.places p q → spot p = spot' q) {node other : Node} (alike : node.Alike W other) :
    node.sketch see spot = other.sketch see' spot' :=
  match alike with
  | .mk info children => by
    simp only [Node.sketch, info.kind, info.detail, filterMap_alike same info.tokens, equally _ _ info.first,
      equally _ _ info.last, children.sketch_eq same equally]

theorem Children.Alike.sketch_eq (same : ∀ cell other : Cell, W.tokens cell.index other.index → see cell = see' other)
    (equally : ∀ p q, W.places p q → spot p = spot' q) {children others : Children} (alike : children.Alike W others) :
    children.sketch see spot = others.sketch see' spot' :=
  match alike with
  | .nil => rfl
  | .gap label rest => congrArg ((label, none) :: ·) (rest.sketch_eq same equally)
  | .cons label node rest => by
    simp only [Children.sketch, node.sketch_eq same equally, rest.sketch_eq same equally]

end

end

end TolerantParser
