import TolerantParser.Proofs.Document.Spans
import TolerantParser.Proofs.Printer.InPlace

/-!
Subtrees. Whatever errors a text has, the tokens below each node of its tree are one piece of the document, and so is
what the node is printed as, comments included. Calls and parameter lists with several starred items of one sort, of
which the tree keeps the last, are left out.
-/

namespace TolerantParser

open TokenStream (significant)

variable {spaced calm : Prop} {node child inner tree : Node} {tokens run : List Cell} {plan : CommentPlan}
  {around : Option Bounds}

/-! ### Tokens -/

mutual

theorem Node.ownedTokens_uncommented : (node : Node) →
    node.uncommented.ownedTokens = node.ownedTokens.filter (!·.isComment)
  | .mk info children => by
    rw [Node.uncommented, Node.ownedTokens, Node.ownedTokens, List.filter_append,
      Children.ownedTokens_uncommented children]

theorem Children.ownedTokens_uncommented : (children : Children) →
    children.uncommented.ownedTokens = children.ownedTokens.filter (!·.isComment)
  | .nil => rfl
  | .gap _ rest => Children.ownedTokens_uncommented rest
  | .cons _ node rest => by
    rw [Children.uncommented, Children.ownedTokens, Children.ownedTokens, List.filter_append,
      Node.ownedTokens_uncommented node, Children.ownedTokens_uncommented rest]

end

/-- The tokens below a node are the same when comments have come to hang on it. -/
theorem Node.plainTokens_commented (comments : ∀ spot, ∀ cell ∈ plan.commentsIn spot, cell.kind = .comment)
    (bare : node.Bare) (plain : ∀ cell ∈ node.ownedTokens, cell.kind ≠ .comment) :
    (node.commented plan around).ownedTokens.filter (!·.isComment) = node.ownedTokens := by
  rw [← Node.ownedTokens_uncommented, Node.commented, Node.uncommented_withComments comments,
    Node.uncommented_of_bare node bare plain]

/-- Each node below was made of a piece of the run. -/
theorem Spans.listed (spans : Spans spaced calm node run) : ∀ inner ∈ node.listed,
    ∃ span, span <:+: run ∧ Spans spaced calm inner span := by
  induction spans with
  | @mk node pieces parts below ih =>
    intro inner listed
    rcases Node.mem_listed.1 listed with rfl | ⟨child, member, inside⟩
    · exact ⟨_, List.infix_rfl, .mk parts below⟩
    · obtain ⟨run, here⟩ := mem_nodesOf (parts.nodes.subset member)
      obtain ⟨span, within, spanned⟩ := ih child run here inner inside
      obtain ⟨front, rest, split⟩ := List.append_of_mem here
      refine ⟨span, within.trans ⟨cellsOf front, cellsOf rest, ?_⟩, spanned⟩
      rw [split, cellsOf_append, cellsOf_node, List.append_assoc]

/-- Where nothing is lost the tokens below a node are one piece of the document. -/
theorem Spans.owned_infix (numbered : tokens.map Cell.index = List.range tokens.length)
    (spans : Spans spaced calm tree (significant tokens)) (stars : ∀ node ∈ tree.listed, node.StarsOnce tokens)
    (listed : inner ∈ tree.listed) : ∃ span, span <:+: significant tokens ∧ inner.ownedTokens.Perm span := by
  have sorted : (significant tokens).Pairwise (·.index < ·.index) :=
    (pairwise_index numbered).sublist List.filter_sublist
  obtain ⟨span, ⟨before, after, within⟩, spanned⟩ := spans.listed inner listed
  obtain ⟨lost, lose⟩ := spanned.lost numbered sorted within.symm
  have below : ∀ node ∈ inner.listed, node.StarsOnce tokens := fun node inside =>
    stars node (Node.listed_trans listed inside)
  obtain rfl := lose.stars.2 below
  have whole := lose.whole
  rw [List.append_nil] at whole
  exact ⟨span, ⟨before, after, within⟩, whole.symm⟩

/-! ### Text -/

theorem infix_flatMap {α β : Type} {list : List α} {a : α} (f : α → List β) (member : a ∈ list) :
    f a <:+: list.flatMap f := by
  obtain ⟨before, after, rfl⟩ := List.append_of_mem member
  exact ⟨before.flatMap f, after.flatMap f, by simp⟩

/-- What is in one piece among the tokens that are kept is so among all of them. -/
theorem exists_infix_of_filter {α : Type} {keep : α → Bool} {list kept : List α} (within : kept <:+: list.filter keep) :
    ∃ run, run <:+: list ∧ run.filter keep = kept := by
  obtain ⟨before, after, same⟩ := within
  obtain ⟨front, last, rfl, here, -⟩ := List.filter_eq_append_iff.1 same.symm
  obtain ⟨first, run, rfl, -, rfl⟩ := List.filter_eq_append_iff.1 here
  exact ⟨run, ⟨first, last, rfl⟩, rfl⟩

section

variable {markings : Markings} (hangs : Hangs markings plan)

include hangs

/-- What a child is written as is one piece of what its parent is written as. -/
theorem Node.written_infix {parent : Node} (member : node.commented plan around ∈ parent.children.nodes)
    (fits : Fits markings node) (sided : Sided markings node) (outside : Around around node) :
    (node.commented plan around).written.2 <:+: parent.written.2 := by
  cases written : (node.commented plan around).written.1 with
  | none =>
    have nothing := Node.held_of_unwritten hangs fits sided outside written
    have same := Node.written_perm plan around fun child member =>
      childPart_perm hangs (fits.below member) (sided.below member) (around_bounds member)
    rw [nothing] at same
    rw [same.eq_nil]
    exact List.nil_infix
  | some place =>
    have part : (place, (node.commented plan around).written.2) ∈ byPlace parent.parts := by
      refine (List.mergeSort_perm _ _).mem_iff.2 (List.mem_append_right _ ?_)
      exact List.mem_filterMap.2 ⟨_, member, by rw [written]; rfl⟩
    rw [Node.written_eq parent]
    exact (infix_flatMap Prod.snd part).trans ⟨parent.info.before, parent.info.after, rfl⟩

/-- A node below is written in one piece. -/
theorem Node.listed_infix (fits : Fits markings node) (sided : Sided markings node) (outside : Around around node) :
    ∀ inner ∈ (node.commented plan around).listed,
      inner.written.2 <:+: (node.commented plan around).written.2 ∧ inner.written.2.Perm inner.held := by
  induction node using Node.of_children generalizing around with
  | step node ih =>
    intro inner listed
    rcases Node.mem_listed.1 listed with rfl | ⟨child, among, below⟩
    · exact ⟨List.infix_rfl, Node.written_perm plan around fun child member =>
        childPart_perm hangs (fits.below member) (sided.below member) (around_bounds member)⟩
    · rw [Node.nodes_commented] at among
      have here := among
      obtain ⟨bare, member, rfl⟩ := List.mem_map.1 among
      obtain ⟨within, same⟩ := ih bare member (fits.below member) (sided.below member)
        (around_bounds member) inner below
      rw [← Node.nodes_commented] at here
      have outer := Node.written_infix hangs here (fits.below member) (sided.below member) (around_bounds member)
      exact ⟨within.trans outer, same⟩

end

/-- Each node of a tree with the comments of its document is written in one piece, which has all that it and the nodes
below it hold. -/
theorem Node.Over.listed_infix (covers : tree.Over tokens) : ∀ inner ∈ (tree.attachComments tokens).listed,
    inner.written.2 <:+: (tree.attachComments tokens).written.2 ∧ inner.written.2.Perm inner.held := by
  intro inner listed
  rcases Node.mem_listed_attachComments.1 listed with rfl | ⟨child, member, below⟩
  · exact ⟨List.infix_rfl, covers.written_perm⟩
  · have fits := covers.fits.below member
    have sided := covers.sided member
    obtain ⟨within, same⟩ := Node.listed_infix covers.hangs fits sided (around_none child) inner below
    have here : child.commented (tree.plan tokens) none ∈ (tree.attachComments tokens).children.nodes := by
      rw [Node.nodes_attachComments]
      exact List.mem_map_of_mem member
    exact ⟨within.trans (Node.written_infix covers.hangs here fits sided (around_none child)), same⟩

/-! ### Documents -/

/-- The part of a document that a node has: one run of the tokens other than comments, which are those below the node,
and one run of all tokens, which besides has the comments on the node and below. Where blocks begin and end among
comments the tree does not say. -/
structure Document.Part (document : Document) (node : Node) (run whole : List Cell) : Prop where
  tokens : run <:+: document.tokens.filter (!·.isComment)
  owned : (node.ownedTokens.filter (!·.isComment)).Perm run
  within : whole <:+: document.tokens
  held : (visible node.held).Perm (visible whole)

variable {document : Document} {lost : List Cell}

/-- What is seen of a tree that has lost nothing are all tokens. -/
theorem Document.Kept.visible_all (kept : document.Kept spaced calm tree []) :
    visible document.tree.written.2 = visible document.tokens := by
  rw [kept.attached, visible_attachComments kept.covers]
  refine congrArg visible (List.filter_eq_self.2 fun cell listed => ?_)
  by_contra missing
  exact List.not_mem_nil (kept.mem_lost.2 ⟨listed, by simpa using missing⟩)

theorem Document.Kept.written_subset (kept : document.Kept spaced calm tree []) :
    ∀ cell ∈ document.tree.written.2, cell ∈ document.tokens := by
  intro cell member
  have whole := kept.covers.written_perm
  rw [← kept.attached] at whole
  exact (whole.trans kept.held).mem_iff.1 member

/-- The tokens below the nodes of a document that has lost nothing are runs of its tokens. -/
theorem Document.Kept.owned_infix (kept : document.Kept spaced calm tree []) (once : document.StarsOnce) :
    ∀ node ∈ document.tree.listed, ∃ run, run <:+: document.tokens.filter (!·.isComment) ∧
      (node.ownedTokens.filter (!·.isComment)).Perm run := by
  intro node listed
  have comments := kept.covers.hangs.comment
  have stars : ∀ node ∈ tree.listed, node.StarsOnce document.tokens := by
    refine (kept.covers.starsOnce_iff kept.root).1 ?_
    rw [← kept.attached]
    exact once
  rw [kept.attached] at listed
  rcases Node.mem_listed_attachComments.1 listed with rfl | ⟨child, member, inside⟩
  · rw [← Node.ownedTokens_uncommented, kept.covers.uncommented]
    exact kept.spans.owned_infix kept.covers.numbered stars (Node.mem_listed.2 (.inl rfl))
  · obtain ⟨bare, here, outer, rfl⟩ := Node.mem_listed_commented inside
    have among := Node.mem_listed.2 (.inr ⟨child, member, here⟩)
    have below : bare.Bare := fun inner more => kept.covers.bare inner (Node.listed_trans among more)
    rw [Node.plainTokens_commented comments below fun cell owned =>
      kept.covers.plain cell (Node.owned_of_listed among owned)]
    exact kept.spans.owned_infix kept.covers.numbered stars among

/-- Each node of the tree of a text, be it well formed or not, has one piece of the document, unless calls or parameter
lists have several starred items of one sort. What the node is printed as is the text of that piece; without errors it
is a piece of the source. -/
theorem Document.subtrees_contiguous (limits : Limits) (d : Dialect) (options : ParseOptions) (text : String) :
    ∃ document, Document.ofText? limits d options text = .ok document ∧
      (document.StarsOnce → ∀ node ∈ document.tree.subtrees, ∃ run whole, document.Part node run whole ∧
        ∀ printed, node.print? limits .keep = .ok printed → printed = textOf whole ∧
          (document.errors = [] → printed.toList <:+: text.toList)) := by
  obtain ⟨document, parses, parsed⟩ := Document.ofText?_ok limits d options text
  obtain ⟨tree, lost, kept⟩ := parsed.kept
  refine ⟨document, parses, fun once node member => ?_⟩
  obtain rfl := kept.stars.2 once
  have listed := document.tree.subtrees_perm.mem_iff.2 member
  obtain ⟨run, tokens, owned⟩ := kept.owned_infix once node listed
  have pieces := kept.covers.listed_infix
  rw [← kept.attached] at pieces
  obtain ⟨piece, same⟩ := pieces node listed
  have seen : visible node.written.2 <:+: visible document.tokens := by
    rw [← kept.visible_all]
    exact piece.filter _
  obtain ⟨whole, within, sees⟩ := exists_infix_of_filter seen
  have empty := parsed.written_layout
  have sameText : textOf node.written.2 = textOf whole := by
    calc textOf node.written.2 = textOf (visible node.written.2) :=
          (textOf_visible fun cell own => empty cell (kept.written_subset cell (piece.subset own))).symm
      _ = textOf (visible whole) := congrArg textOf sees.symm
      _ = textOf whole := textOf_visible fun cell own => empty cell (within.subset own)
  refine ⟨run, whole, ⟨tokens, owned, within, ?_⟩, fun printed prints => ?_⟩
  · rw [show visible whole = visible node.written.2 from sees]
    exact (same.filter _).symm
  · have print : printed = textOf whole := (Node.print?_keep prints).trans sameText
    refine ⟨print, fun none => ?_⟩
    obtain ⟨before, after, split⟩ := within
    have source := parsed.textOf_tokens none
    rw [← source, ← split, print]
    refine ⟨(textOf before).toList, (textOf after).toList, ?_⟩
    simp only [toList_textOf, List.flatMap_append]

end TolerantParser
