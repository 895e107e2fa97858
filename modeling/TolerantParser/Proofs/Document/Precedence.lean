import TolerantParser.Proofs.Document.Parsing
import TolerantParser.Proofs.Printer.Written
import TolerantParser.Proofs.Tree.Sketch
import TolerantParser.Proofs.Tree.Yield

/-!
Operands. Whatever errors a text has, each operator of its tree has the operands that its level of binding asks for.
Those that bind more loosely stand in parentheses, and the opening one comes before all else that they hold.
-/

namespace TolerantParser

open TokenStream (significant)

variable {spaced calm : Prop} {node tree : Node} {run : List Cell} {plan : CommentPlan}

/-- The node begins with an opening parenthesis of its own. Comments do not count. -/
def Node.Wrapped (node : Node) : Prop :=
  ∃ cell ∈ node.tokens, cell.kind = .leftParen ∧
    ∀ other ∈ node.ownedTokens, other.isComment = false → cell.index ≤ other.index

/-- Each child of the node binds as tightly as the node asks for, or it begins with a parenthesis. -/
def Node.Grouped (node : Node) : Prop :=
  ∀ part ∈ node.children.toList, ∀ operand ∈ part.2,
    operand.Wrapped ∨ Binding.Suits node.kind node.info.detail part.1.role operand.binding

/-! ### Trees without comments -/

/-- In a run that is in document order the parenthesis that a node has is the first of its tokens. -/
theorem Spans.wrapped (spans : Spans spaced calm node run) (sorted : run.Pairwise (·.index < ·.index))
    (enclosed : node.Enclosed) : node.Wrapped := by
  have owned := spans.owned_subset
  cases spans with
  | @mk _ pieces parts _ =>
    obtain ⟨loose, paren, own, opens⟩ := enclosed
    obtain ⟨cell, rest, rfl, first⟩ := parts.fenced loose ⟨paren, parts.tokens.mem_iff.2 own, opens⟩
    rw [cellsOf_token, List.pairwise_cons] at sorted
    refine ⟨cell, parts.tokens.mem_iff.1 (by simp), first, fun other member _ => ?_⟩
    have among := owned member
    rw [cellsOf_token, List.mem_cons] at among
    rcases among with rfl | later
    · exact le_refl _
    · exact (sorted.1 other later).le

theorem Spans.grouped (spans : Spans spaced calm tree run) (sorted : run.Pairwise (·.index < ·.index)) :
    ∀ node ∈ tree.listed, node.Grouped := by
  induction spans with
  | @mk tree pieces parts below ih =>
    have inOrder : ∀ inner span, .node inner span ∈ pieces → span.Pairwise (·.index < ·.index) :=
      fun inner span member => (List.pairwise_flatMap.1 sorted).1 _ member
    intro node listed
    rcases Node.mem_listed.1 listed with rfl | ⟨child, member, inside⟩
    · intro part among operand there
      refine (parts.groups part among operand there).imp_left fun enclosed => ?_
      have child : operand ∈ node.children.nodes := by
        rw [Children.nodes_eq_filterMap]
        exact List.mem_filterMap.2 ⟨part, among, there⟩
      obtain ⟨span, here⟩ := mem_nodesOf (parts.nodes.subset child)
      exact (below operand span here).wrapped (inOrder operand span here) enclosed
    · obtain ⟨span, here⟩ := mem_nodesOf (parts.nodes.subset member)
      exact ih child span here (inOrder child span here) node inside

/-! ### Trees with comments -/

theorem Node.Wrapped.commented (wrapped : node.Wrapped) (planned : plan.OfComments) (around : Option Bounds) :
    (node.commented plan around).Wrapped := by
  obtain ⟨cell, own, opens, first⟩ := wrapped
  refine ⟨cell, ?_, opens, fun other owned plain => ?_⟩
  · rw [Node.tokens_commented]
    exact List.mem_append_left _ own
  · refine first other ((Node.mem_ownedTokens_commented.1 owned).resolve_right ?_) plain
    rintro ⟨token, -, inside⟩
    have comment := planned _ other inside
    rw [plain] at comment
    cases comment

theorem Node.Grouped.commented (grouped : node.Grouped) (planned : plan.OfComments) (around : Option Bounds) :
    (node.commented plan around).Grouped := by
  intro part member operand there
  rw [Node.toList_commented] at member
  obtain ⟨before, listed, rfl⟩ := List.mem_map.1 member
  obtain ⟨bare, given, rfl⟩ := Option.map_eq_some_iff.1 there
  rw [Node.kind_commented, Node.detail_commented, Node.binding, Node.kind_commented, Node.detail_commented]
  exact (grouped before listed bare given).imp_left fun wrapped => wrapped.commented planned _

/-- Each operand in the tree of a text is of a level of binding that its operator takes, or it begins with a
parenthesis. -/
theorem Document.operands_grouped (limits : Limits) (d : Dialect) (options : ParseOptions) (text : String) :
    ∃ document, Document.ofText? limits d options text = .ok document ∧
      ∀ node ∈ document.tree.listed, node.Grouped := by
  obtain ⟨document, parses, parsed⟩ := Document.ofText?_ok limits d options text
  obtain ⟨tree, attached, root, spans, -⟩ := parsed.tree
  have sorted : (significant document.tokens).Pairwise (·.index < ·.index) :=
    (pairwise_index parsed.numbered).sublist List.filter_sublist
  refine ⟨document, parses, fun node listed => ?_⟩
  rw [attached] at listed
  rcases Node.mem_listed_attachComments.1 listed with rfl | ⟨child, member, inside⟩
  · have firm : (tree.attachComments document.tokens).kind.bindsLoosely = false := by
      rw [Node.kind_attachComments, root]
      rfl
    exact fun part _ operand _ => .inr (Binding.suits_of_firm firm _ _ _)
  · obtain ⟨bare, here, outer, rfl⟩ := Node.mem_listed_commented inside
    have grouped := spans.grouped sorted bare (Node.mem_listed.2 (.inr ⟨child, member, here⟩))
    exact grouped.commented (CommentPlan.ofComments_ofDocument tree _ document.tokens) outer

end TolerantParser
