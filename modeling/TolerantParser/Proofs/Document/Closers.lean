import TolerantParser.Proofs.Document.Spans
import TolerantParser.Proofs.Tree.Sketch

/-!
Closing brackets. Whatever errors a text has, the token that closes the brackets of a node comes behind all that the
node is made of. One thing is different: where a dictionary comprehension has no value the brackets are closed first,
and the name that stands for the value is taken from behind them.
-/

namespace TolerantParser

open TokenStream (significant)

variable {spaced calm : Prop} {node tree : Node} {run : List Cell} {closer : Cell}

/-- All tokens below the node come before the other token. -/
def Node.EndsBefore (node : Node) (closer : Cell) : Prop := ∀ cell ∈ node.ownedTokens, cell.index < closer.index

/-- All tokens below the node come behind the other token. -/
def Node.ComesBehind (node : Node) (closer : Cell) : Prop := ∀ cell ∈ node.ownedTokens, closer.index < cell.index

/-- The children of the node lie in front of the token that closes it. -/
def Node.ClosedBy (node : Node) (closer : Cell) : Prop := ∀ child ∈ node.children.nodes, child.EndsBefore closer

/-- The node is a dictionary comprehension that was closed before it had a value: the name that it has for one comes
behind the token that closes it, and all else in front of that. -/
structure Node.ClosedEarly (node : Node) (closer : Cell) : Prop where
  comprehension : node.kind = .dictComprehension
  value : ∃ value, (⟨.value, none⟩, some value) ∈ node.children.toList ∧ value.kind = .name ∧ value.ComesBehind closer
  others : ∀ part ∈ node.children.toList, part.1.role ≠ .value → ∀ child ∈ part.2, child.EndsBefore closer

/-- Whatever token closes the node, it is the right one for that. -/
def Node.WellClosed (node : Node) : Prop :=
  ∀ kind ∈ node.kind.closer?, ∀ closer ∈ node.tokens, closer.kind = kind →
    node.ClosedBy closer ∨ node.ClosedEarly closer

/-! ### Trees without comments -/

section

variable {pieces front back : List Piece}

/-- In a run that is in document order, nodes of the front end before all that is behind it. -/
theorem endsBefore_of_append (spans : ∀ inner span, .node inner span ∈ front → Spans spaced calm inner span)
    (sorted : (cellsOf (front ++ back)).Pairwise (·.index < ·.index)) {inner : Node} (early : inner ∈ nodesOf front)
    (late : closer ∈ cellsOf back) : inner.EndsBefore closer := by
  obtain ⟨span, member⟩ := mem_nodesOf early
  rw [cellsOf_append, List.pairwise_append] at sorted
  exact fun cell owned => sorted.2.2 cell
    (cells_subset member ((spans inner span member).owned_subset owned)) closer late

theorem comesBehind_of_append (spans : ∀ inner span, .node inner span ∈ back → Spans spaced calm inner span)
    (sorted : (cellsOf (front ++ back)).Pairwise (·.index < ·.index)) {inner : Node} (early : closer ∈ cellsOf front)
    (late : inner ∈ nodesOf back) : inner.ComesBehind closer := by
  obtain ⟨span, member⟩ := mem_nodesOf late
  rw [cellsOf_append, List.pairwise_append] at sorted
  exact fun cell owned => sorted.2.2 closer early cell
    (cells_subset member ((spans inner span member).owned_subset owned))

theorem endsBefore_of_front (spans : ∀ inner span, .node inner span ∈ front → Spans spaced calm inner span)
    (sorted : (cellsOf (front ++ .token closer :: back)).Pairwise (·.index < ·.index)) {inner : Node}
    (early : inner ∈ nodesOf front) : inner.EndsBefore closer :=
  endsBefore_of_append spans sorted early (by simp)

theorem comesBehind_of_back (spans : ∀ inner span, .node inner span ∈ back → Spans spaced calm inner span)
    (sorted : (cellsOf (front ++ .token closer :: back)).Pairwise (·.index < ·.index)) {inner : Node}
    (late : inner ∈ nodesOf back) : inner.ComesBehind closer := by
  have split : front ++ .token closer :: back = (front ++ [.token closer]) ++ back := by simp
  exact comesBehind_of_append spans (split ▸ sorted) (by simp) late

/-- A token that is one of the pieces parts them. -/
theorem exists_split_of_tokensOf (own : closer ∈ tokensOf pieces) :
    ∃ front back, pieces = front ++ .token closer :: back := by
  obtain ⟨piece, listed, here⟩ := List.mem_flatMap.1 own
  cases piece with
  | node => cases here
  | token cell =>
    obtain rfl := List.mem_singleton.1 here
    exact List.append_of_mem listed

theorem Sealed.nodes_front {kind : TokenKind} (sealed : Sealed kind (front ++ .token closer :: back))
    (closes : closer.kind = kind) : nodesOf back = [] :=
  List.flatMap_eq_nil_iff.2 fun later member =>
    (List.pairwise_cons.1 (List.pairwise_append.1 sealed).2.1).1 later member ⟨closer, List.mem_singleton.2 rfl, closes⟩

end

theorem Parts.wellClosed {pieces : List Piece} (parts : Parts spaced calm node pieces)
    (below : ∀ inner span, .node inner span ∈ pieces → Spans spaced calm inner span)
    (sorted : (cellsOf pieces).Pairwise (·.index < ·.index)) : node.WellClosed := by
  intro kind closes closer own same
  obtain ⟨front, back, split⟩ := exists_split_of_tokensOf (parts.tokens.mem_iff.2 own)
  rw [split] at sorted below
  have early : ∀ inner ∈ nodesOf front, inner.EndsBefore closer := fun inner =>
    endsBefore_of_front (fun inner span member => below inner span (List.mem_append_left _ member)) sorted
  have late : ∀ inner ∈ nodesOf back, inner.ComesBehind closer := fun inner =>
    comesBehind_of_back (fun inner span member => below inner span (by simp [member])) sorted
  cases parts.contained with
  | all sealed =>
    have none : nodesOf back = [] := (split ▸ sealed kind closes).nodes_front same
    have children : node.children.nodes ⊆ nodesOf front := by simpa [split, none] using parts.nodes.subset
    exact .inl fun child member => early child (children member)
  | late comprehension before after value span whole sealed last name child others =>
    obtain rfl : .rightBrace = kind := by simpa [comprehension, NodeKind.closer?] using closes
    rcases List.append_eq_append_iff.1 (split.symm.trans whole) with ⟨between, rfl, rest⟩ | ⟨between, rfl, rest⟩
    · -- the token stands in front of the value
      cases between with
      | nil => cases rest
      | cons _ between =>
        obtain ⟨rfl, rfl⟩ := List.cons.inj rest
        have none : nodesOf between = [] := sealed.nodes_front same
        refine .inr ⟨comprehension, ⟨value, child, name, late value (by simp)⟩, fun part member role inner there => ?_⟩
        exact early inner (by simpa [none] using others part member role inner there)
    · -- or behind it
      cases between with
      | nil => cases rest
      | cons _ between =>
        obtain ⟨rfl, rfl⟩ := List.cons.inj rest
        have none : nodesOf back = [] :=
          (List.append_eq_nil_iff.1 ((nodesOf_append between (.token closer :: back)).symm.trans last)).2
        have children : node.children.nodes ⊆ nodesOf (before ++ .node value span :: between) := by
          simpa [split, none] using parts.nodes.subset
        exact .inl fun child member => early child (children member)

/-- All nodes of a tree whose tokens are in document order are well closed. -/
theorem Spans.wellClosed (spans : Spans spaced calm tree run) (sorted : run.Pairwise (·.index < ·.index)) :
    ∀ node ∈ tree.listed, node.WellClosed := by
  induction spans with
  | @mk tree pieces parts below ih =>
    intro node listed
    rcases Node.mem_listed.1 listed with rfl | ⟨child, member, inside⟩
    · exact parts.wellClosed below sorted
    · obtain ⟨span, here⟩ := mem_nodesOf (parts.nodes.subset member)
      exact ih child span here ((List.pairwise_flatMap.1 sorted).1 _ here) node inside

/-! ### Trees with comments -/

section

variable {plan : CommentPlan} {markings : Markings}

/-- A comment below a node is no further on than the last token of it. -/
theorem Node.EndsBefore.commented (ends : node.EndsBefore closer) (hangs : Hangs markings plan)
    (fits : Fits markings node)
    (sided : Sided markings node) (around : Option Bounds) : (node.commented plan around).EndsBefore closer := by
  intro cell owned
  obtain ⟨-, last, own, le⟩ := Node.between_commented hangs fits sided owned
  exact Nat.lt_of_le_of_lt le (ends last own)

theorem Node.ComesBehind.commented (behind : node.ComesBehind closer) (hangs : Hangs markings plan)
    (fits : Fits markings node) (sided : Sided markings node) (around : Option Bounds) :
    (node.commented plan around).ComesBehind closer := by
  intro cell owned
  obtain ⟨⟨first, own, le⟩, -⟩ := Node.between_commented hangs fits sided owned
  exact Nat.lt_of_lt_of_le (behind first own) le

theorem Node.WellClosed.commented (wellClosed : node.WellClosed) (hangs : Hangs markings plan)
    (planned : plan.OfComments) (fits : Fits markings node) (sided : Sided markings node) (around : Option Bounds) :
    (node.commented plan around).WellClosed := by
  intro kind closes closer own same
  rw [Node.kind_commented] at closes
  have bare : closer ∈ node.tokens := by
    rw [Node.tokens_commented, List.mem_append, mem_insideOf] at own
    refine own.resolve_right fun ⟨token, _, inside⟩ => ?_
    have comment : closer.kind = .comment := eq_of_beq (planned _ closer inside)
    have closing := NodeKind.isClosing_of_closer closes
    rw [← same, comment] at closing
    cases closing
  have below : ∀ child ∈ node.children.nodes, Fits markings child ∧ Sided markings child := fun child member =>
    ⟨fits.below member, sided.below member⟩
  refine (wellClosed kind closes closer bare same).imp (fun closed => ?_) fun early => ?_
  · intro child member
    rw [Node.nodes_commented] at member
    obtain ⟨inner, among, rfl⟩ := List.mem_map.1 member
    exact (closed inner among).commented hangs (below inner among).1 (below inner among).2 _
  · have listed : ∀ {label inner}, (label, some inner) ∈ node.children.toList → inner ∈ node.children.nodes :=
      fun member => Children.nodes_eq_filterMap _ ▸ List.mem_filterMap.2 ⟨_, member, rfl⟩
    obtain ⟨value, child, name, behind⟩ := early.value
    refine ⟨(Node.kind_commented ..).trans early.comprehension, ⟨value.commented plan node.bounds, ?_,
      (Node.kind_commented ..).trans name, ?_⟩, fun part member role inner there => ?_⟩
    · rw [Node.toList_commented]
      exact List.mem_map_of_mem (f := fun part => (part.1, part.2.map (Node.commented plan node.bounds))) child
    · exact behind.commented hangs (below value (listed child)).1 (below value (listed child)).2 _
    · rw [Node.toList_commented] at member
      obtain ⟨⟨label, operand⟩, among, rfl⟩ := List.mem_map.1 member
      obtain ⟨bare, rfl, rfl⟩ := Option.map_eq_some_iff.1 there
      exact (early.others _ among role bare rfl).commented hangs (below bare (listed among)).1
        (below bare (listed among)).2 _

end

/-- In the tree of a text no token of a node lies behind the brackets of the node above it, unless that is a
comprehension closed early. -/
theorem Document.nodes_wellClosed (limits : Limits) (d : Dialect) (options : ParseOptions) (text : String) :
    ∃ document, Document.ofText? limits d options text = .ok document ∧
      ∀ node ∈ document.tree.listed, node.WellClosed := by
  obtain ⟨document, parses, parsed⟩ := Document.ofText?_ok limits d options text
  obtain ⟨tree, lost, kept⟩ := parsed.kept
  have sorted : (significant document.tokens).Pairwise (·.index < ·.index) :=
    (pairwise_index parsed.numbered).sublist List.filter_sublist
  refine ⟨document, parses, fun node listed => ?_⟩
  rw [kept.attached] at listed
  rcases Node.mem_listed_attachComments.1 listed with rfl | ⟨child, member, inside⟩
  · intro kind closes
    rw [Node.kind_attachComments, kept.root] at closes
    cases closes
  · obtain ⟨bare, here, outer, rfl⟩ := Node.mem_listed_commented inside
    obtain ⟨fits, sided⟩ := (kept.covers.fits.below member).listed (kept.covers.sided member) bare here
    have wellClosed := kept.spans.wellClosed sorted bare (Node.mem_listed.2 (.inr ⟨child, member, here⟩))
    exact wellClosed.commented kept.covers.hangs (CommentPlan.ofComments_ofDocument tree _ document.tokens) fits sided
      outer

end TolerantParser
