import TolerantParser.Proofs.Printer.Attached

/-!
Comments on any tree. A tree over a document need not come from a parse: as long as its parts lie apart, the comments
of the document come to hang on it once each, nothing else in the tree changes, and the tree is printed with every
comment in its place.
-/

namespace TolerantParser

variable {plan : CommentPlan} {tree : Node} {tokens : List Cell}

mutual

/-- The tree without the comments on it. -/
def Node.uncommented : Node → Node
  | .mk info children =>
    .mk { info with tokens := info.tokens.filter (!·.isComment), before := [], after := [] } children.uncommented

def Children.uncommented : Children → Children
  | .nil => .nil
  | .gap label rest => .gap label rest.uncommented
  | .cons label node rest => .cons label node.uncommented rest.uncommented

end

theorem filter_comments {cells : List Cell} (comments : ∀ cell ∈ cells, cell.kind = .comment) :
    cells.filter (!·.isComment) = [] := by
  refine List.filter_eq_nil_iff.2 fun cell member => ?_
  simp [Cell.isComment, comments cell member]

theorem filter_plain {cells : List Cell} (plain : ∀ cell ∈ cells, cell.kind ≠ .comment) :
    cells.filter (!·.isComment) = cells := by
  refine List.filter_eq_self.2 fun cell member => ?_
  simp [Cell.isComment, plain cell member]

theorem filter_insideOf (comments : ∀ spot, ∀ cell ∈ plan.commentsIn spot, cell.kind = .comment) (cells : List Cell) :
    (cells ++ plan.insideOf cells).filter (!·.isComment) = cells.filter (!·.isComment) := by
  have inside : ∀ cell ∈ plan.insideOf cells, cell.kind = .comment := fun cell member => by
    obtain ⟨token, -, here⟩ := mem_insideOf.1 member
    exact comments _ cell here
  rw [List.filter_append, filter_comments inside, List.append_nil]

mutual

theorem Node.uncommented_withComments (comments : ∀ spot, ∀ cell ∈ plan.commentsIn spot, cell.kind = .comment)
    (around : Option Bounds) : (node : Node) → (outline : Outline) →
      (node.withComments plan around outline).uncommented = node.uncommented
  | .mk info children, .mk bounds inner => by
    rw [Node.withComments, Node.uncommented, Node.uncommented, filter_insideOf comments,
      Children.uncommented_withComments comments bounds children inner]

theorem Children.uncommented_withComments
    (comments : ∀ spot, ∀ cell ∈ plan.commentsIn spot, cell.kind = .comment) (around : Option Bounds) :
    (children : Children) → (outlines : Outlines) →
      (children.withComments plan around outlines).uncommented = children.uncommented
  | .nil, _ => rfl
  | .gap _ rest, outlines => by
    rw [Children.withComments, Children.uncommented, Children.uncommented,
      Children.uncommented_withComments comments around rest outlines]
  | .cons .., .nil => rfl
  | .cons _ node rest, .cons outline outlines => by
    rw [Children.withComments, Children.uncommented, Children.uncommented,
      Node.uncommented_withComments comments around node outline,
      Children.uncommented_withComments comments around rest outlines]

end

mutual

/-- A tree without comments is what it is. -/
theorem Node.uncommented_of_bare : (node : Node) → node.Bare → (∀ cell ∈ node.ownedTokens, cell.kind ≠ .comment) →
    node.uncommented = node
  | .mk info children, bare, plain => by
    obtain ⟨before, after⟩ := bare (.mk info children) (Node.mem_listed.2 (.inl rfl))
    have below := Children.uncommented_of_bare children (fun child member => Node.Bare.below bare member)
      fun cell owned => plain cell (List.mem_append_right _ owned)
    rw [Node.uncommented, below, filter_plain fun cell own => plain cell (List.mem_append_left _ own)]
    cases info
    obtain ⟨rfl, rfl⟩ : _ = _ ∧ _ = _ := ⟨before, after⟩
    rfl

theorem Children.uncommented_of_bare : (children : Children) → (∀ child ∈ children.nodes, child.Bare) →
    (∀ cell ∈ children.ownedTokens, cell.kind ≠ .comment) → children.uncommented = children
  | .nil, _, _ => rfl
  | .gap _ rest, bare, plain => by
    rw [Children.uncommented, Children.uncommented_of_bare rest bare plain]
  | .cons _ node rest, bare, plain => by
    have bare := List.forall_mem_cons.1 bare
    have here := Node.uncommented_of_bare node bare.1 fun cell owned => plain cell (List.mem_append_left _ owned)
    have later := Children.uncommented_of_bare rest bare.2 fun cell owned => plain cell (List.mem_append_right _ owned)
    rw [Children.uncommented, here, later]

end

/-- Comments are all that a tree gains. -/
theorem Node.Over.uncommented (covers : tree.Over tokens) : (tree.attachComments tokens).uncommented = tree := by
  have below := Children.uncommented_withComments covers.hangs.comment none tree.children tree.children.outlines
  have inside := filter_insideOf covers.hangs.comment tree.tokens
  have same := tree.uncommented_of_bare covers.bare covers.plain
  cases tree with
  | mk info children =>
    refine Eq.trans ?_ same
    exact congrArg₂ (fun tokens below => Node.mk { info with tokens, before := [], after := [] } below) inside below

/-- Each comment comes to hang in one place. -/
theorem Node.Over.count_comment (covers : tree.Over tokens) {comment : Cell} (listed : comment ∈ tokens)
    (isComment : comment.isComment) : (tree.attachComments tokens).held.count comment = 1 := by
  have nodup : tokens.Nodup :=
    (pairwise_index covers.numbered).imp fun less => ne_of_apply_ne Cell.index (Nat.ne_of_lt less)
  have loose : comment ∉ tree.ownedTokens := fun member => covers.plain comment member (eq_of_beq isComment)
  have among : comment ∈ tokens.filter Cell.isComment := List.mem_filter.2 ⟨listed, isComment⟩
  rw [(held_attachComments covers).count_eq, List.count_append, List.count_eq_zero_of_not_mem loose, Nat.zero_add]
  exact List.count_eq_one_of_mem (nodup.filter _) among

namespace Sample

/-- A token at a place, behind one blank. -/
def cell (kind : TokenKind) (text : String) (index : Nat) : Cell :=
  { kind, text, lead := " ", range := ⟨2 * index, 2 * index + 1, by omega⟩, first := ⟨1, 2 * index + 1⟩,
    last := ⟨1, 2 * index + 2⟩, startsLine := index == 0, synthetic := false, index }

/-- A node that owns one token. -/
def owner (kind : NodeKind) (cell : Cell) (children : Children) : Node :=
  .mk { kind, detail := .none, tokens := [cell], before := [], after := [], first := cell.first, last := cell.last }
    children

def left : Node := owner .name (cell .name "x" 0) .nil
def right : Node := owner .name (cell .name "y" 3) .nil

def sum : Node := owner .binary (cell .plus "+" 1) (.cons ⟨.left, none⟩ left (.cons ⟨.right, none⟩ right .nil))

def line : List Cell :=
  [cell .name "x" 0, cell .plus "+" 1, cell .comment "# c" 2, cell .name "y" 3, cell .endOfFile "" 4]

def document : Node := owner .document (cell .endOfFile "" 4) (.cons ⟨.body, some 0⟩ sum .nil)

end Sample

open Sample

end TolerantParser
