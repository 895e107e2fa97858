import TolerantParser.Proofs.Document.RoundTrip
import TolerantParser.Proofs.Lexer.Standing

/-!
Where the nodes of a document are. Whatever errors a text has, each node of its tree covers its children, which lie
one behind the other in the order of where they begin; and in that order lie the tokens below them as well. So to go
over a tree by places, as `collect?` does, and to go over it by tokens, as the printer does, is the same.
-/

namespace TolerantParser

open TokenStream (significant)

variable {spaced calm : Prop} {node tree : Node} {tokens run : List Cell} {plan : CommentPlan} {markings : Markings}

/-! ### Tokens of a text -/

/-- The tokens below the one node all come before those below the other. -/
def Node.Before (node next : Node) : Prop :=
  ∀ cell ∈ node.ownedTokens, ∀ other ∈ next.ownedTokens, cell.index < other.index

/-- Children by where they begin are in the order of their tokens. -/
theorem Spans.inOrder (spans : Spans spaced calm tree run) (sorted : run.Pairwise (·.index < ·.index)) (now : spaced) :
    ∀ node ∈ tree.listed, node.ordered.Pairwise Node.Before := by
  induction spans with
  | @mk tree pieces parts below ih =>
    intro node listed
    rcases Node.mem_listed.1 listed with rfl | ⟨child, member, inside⟩
    · refine List.Pairwise.sublist (parts.order now) ?_
      have apart := (List.pairwise_flatMap.1 sorted).2
      refine List.pairwise_flatMap.2 ⟨fun piece _ => ?_, apart.imp_of_mem fun {piece next} member later before => ?_⟩
      · cases piece with
        | token => exact .nil
        | node made span => exact List.pairwise_singleton _ made
      · intro a one b two cell owned other also
        cases piece with
        | token => cases one
        | node made span =>
          cases next with
          | token => cases two
          | node then_ behind =>
            obtain rfl := List.mem_singleton.1 one
            obtain rfl := List.mem_singleton.1 two
            exact before cell ((below a span member).owned_subset owned) other
              ((below b behind later).owned_subset also)
    · obtain ⟨span, here⟩ := mem_nodesOf (parts.nodes.subset member)
      have inOrder : span.Pairwise (·.index < ·.index) := (List.pairwise_flatMap.1 sorted).1 _ here
      exact ih child span here inOrder node inside

/-! ### Trees with comments -/

theorem Node.ends_commented (plan : CommentPlan) (around : Option Bounds) (node : Node) :
    (node.commented plan around).first = node.first ∧ (node.commented plan around).last = node.last := by
  cases node
  exact ⟨rfl, rfl⟩

theorem Node.Placed.commented (placed : node.Placed) (plan : CommentPlan) (around : Option Bounds) :
    (node.commented plan around).Placed := by
  induction placed generalizing around with
  | @mk node le covers apart below ih =>
    exact (Node.Placed.mk le covers apart below).map (Node.nodes_commented plan around node)
      (node.ends_commented plan around) (Node.ends_commented plan node.bounds) fun child member => ih child member _

theorem Node.Placed.attachComments (placed : tree.Placed) (tokens : List Cell) :
    (tree.attachComments tokens).Placed := by
  have ends : (tree.attachComments tokens).first = tree.first ∧ (tree.attachComments tokens).last = tree.last := by
    cases tree
    exact ⟨rfl, rfl⟩
  cases placed with
  | mk le covers apart below =>
    exact (Node.Placed.mk le covers apart below).map (Node.nodes_attachComments tree tokens) ends
      (Node.ends_commented _ none) fun child member => (below child member).commented _ none

/-- A comment among the tokens below a node lies behind the first of them and before the last. -/
theorem Node.between_commented (hangs : Hangs markings plan) (fits : Fits markings node) (sided : Sided markings node)
    {around : Option Bounds} {cell : Cell} (owned : cell ∈ (node.commented plan around).ownedTokens) :
    (∃ token ∈ node.ownedTokens, token.index ≤ cell.index) ∧ ∃ token ∈ node.ownedTokens, cell.index ≤ token.index := by
  rcases Node.mem_ownedTokens_commented.1 owned with own | ⟨token, own, inside⟩
  · exact ⟨⟨cell, own, le_refl _⟩, ⟨cell, own, le_refl _⟩⟩
  have fresh := hangs.fresh _ cell inside
  cases hangs.goes _ cell inside with
  | inside next notStarting =>
    have mark := fits.mark_of_visible own (fits.consistent token own next.listed)
    have bound := node.bound
    cases bounds : node.bounds with
    | none =>
      rw [bounds] at bound
      rw [show node.marks = [] from bound] at mark
      cases mark
    | some ends =>
      rw [bounds] at bound
      have starts := (sided.own bounds).1
      obtain ⟨first, among, -, same⟩ := mem_marksOf.1 bound.1
      have differs : ends.first ≠ token.index := fun equal => by simp [equal, notStarting] at starts
      have sooner := (bound.2.2 _ mark).1
      have behind := next.le_of_mark fresh (fits.within bound.1) (by omega)
      exact ⟨⟨first, among, by omega⟩, ⟨token, own, next.behind.le⟩⟩

/-- Comments do not change the order of nodes. -/
theorem Node.Before.commented {next : Node} (before : node.Before next) (hangs : Hangs markings plan)
    (fits : Fits markings node) (sided : Sided markings node) (nextFits : Fits markings next)
    (nextSided : Sided markings next)
    (around : Option Bounds) : (node.commented plan around).Before (next.commented plan around) := by
  intro cell owned other also
  obtain ⟨-, last, mine, le⟩ := Node.between_commented hangs fits sided owned
  obtain ⟨⟨first, theirs, ge⟩, -⟩ := Node.between_commented hangs nextFits nextSided also
  have less := before last mine first theirs
  omega

/-! ### Going over a tree -/

theorem Node.Placed.listed (placed : node.Placed) : ∀ inner ∈ node.listed, inner.Placed := by
  induction placed with
  | @mk node le covers apart below ih =>
    intro inner listed
    rcases Node.mem_listed.1 listed with rfl | ⟨child, member, inside⟩
    · exact .mk le covers apart below
    · exact ih child member inner inside

/-- All nodes below a node lie within its span. -/
theorem Node.Placed.within (placed : node.Placed) : ∀ inner ∈ node.listed,
    node.first ≤ inner.first ∧ inner.last ≤ node.last := by
  induction placed with
  | @mk node le covers apart below ih =>
    intro inner listed
    rcases Node.mem_listed.1 listed with rfl | ⟨child, member, inside⟩
    · exact ⟨le_refl _, le_refl _⟩
    · obtain ⟨first, last⟩ := covers child member
      obtain ⟨behind, before⟩ := ih child member inner inside
      exact ⟨first.trans behind, before.trans last⟩

theorem Node.listed_eq (node : Node) : node.listed = node :: node.ordered.flatMap Node.listed := by
  cases node with
  | mk info children =>
    have parts : (children.nodes.map fun child => (child.first, child.listed)).mergeSort
        (fun a b => a.1.le b.1) = (children.nodes.mergeSort fun a b => a.first.le b.first).map
          fun child => (child.first, child.listed) := by
      refine (List.map_mergeSort fun a _ b _ => ?_).symm
      rfl
    rw [Node.listed, inOrder, children.listed_eq, parts, List.flatMap_map]
    rfl

/-- Nodes are listed in the order of where they begin. -/
theorem Node.Placed.sorted (placed : node.Placed) : node.listed.Pairwise (·.first ≤ ·.first) := by
  induction placed with
  | @mk node le covers apart below ih =>
    have same := List.mergeSort_perm node.children.nodes fun a b => a.first.le b.first
    rw [Node.listed_eq, List.pairwise_cons, List.pairwise_flatMap]
    refine ⟨fun inner member => ?_, fun child member => ih child (same.mem_iff.1 member),
      apart.imp_of_mem fun {child next} member later before inner inside other also => ?_⟩
    · obtain ⟨child, among, inside⟩ := List.mem_flatMap.1 member
      have listed := Node.mem_listed.2 (.inr ⟨child, same.mem_iff.1 among, inside⟩)
      exact ((Node.Placed.mk le covers apart below).within inner listed).1
    · have one := below child (same.mem_iff.1 member)
      have two := below next (same.mem_iff.1 later)
      calc inner.first ≤ inner.last := (one.listed inner inside).le
        _ ≤ child.last := (one.within inner inside).2
        _ ≤ next.first := before
        _ ≤ other.first := (two.within other also).1

mutual

/-- The nodes of a tree, each before its children, these in the order of the fields. -/
def Node.subtrees : Node → List Node
  | .mk info children => .mk info children :: children.subtrees

def Children.subtrees : Children → List Node
  | .nil => []
  | .gap _ rest => rest.subtrees
  | .cons _ node rest => node.subtrees ++ rest.subtrees

end

theorem Children.subtrees_eq (children : Children) : children.subtrees = children.nodes.flatMap Node.subtrees := by
  induction children using Children.induction with
  | nil => rfl
  | gap _ rest ih => exact ih
  | cons _ node rest ih => exact congrArg (node.subtrees ++ ·) ih

theorem Node.subtrees_perm (node : Node) : node.listed.Perm node.subtrees := by
  induction node using Node.of_children with
  | step node ih =>
    refine node.listed_perm.trans ?_
    cases node with
    | mk info children =>
      rw [Node.subtrees, Children.subtrees_eq]
      exact (List.Perm.flatMap_left _ ih).cons _

/-- The place that a node is written by is one of its tokens. -/
theorem Node.exists_of_written {place : Nat} (node : Node) (written : node.written.1 = some place) :
    ∃ cell ∈ node.ownedTokens, cell.index = place := by
  induction node using Node.of_children generalizing place with
  | step node ih =>
    rw [Node.written_eq, Option.map_eq_some_iff] at written
    obtain ⟨part, head, rfl⟩ := written
    have listed : part ∈ node.parts := (List.mergeSort_perm _ _).mem_iff.1 (List.mem_of_head? head)
    rw [Node.ownedTokens_eq]
    rcases List.mem_append.1 listed with own | below
    · obtain ⟨cell, among, rfl⟩ := List.mem_map.1 own
      exact ⟨cell, List.mem_append_left _ among, rfl⟩
    · obtain ⟨child, member, here⟩ := List.mem_filterMap.1 below
      obtain ⟨first, found, rfl⟩ := Option.map_eq_some_iff.1 here
      obtain ⟨cell, owned, same⟩ := ih child member found
      exact ⟨cell, List.mem_append_right _ (List.mem_flatMap.2 ⟨child, member, owned⟩), same⟩

/-! ### Documents -/

/-- A node reaches from its start to its end and over its children. By where they begin these lie one behind the
other, and so do the tokens below them; the order in which the printer puts them is the same. -/
structure Node.Laid (node : Node) : Prop where
  le : node.first ≤ node.last
  covers : ∀ child ∈ node.children.nodes, node.first ≤ child.first ∧ child.last ≤ node.last
  apart : node.ordered.Pairwise fun child next => child.last ≤ next.first ∧ child.Before next
  written : (node.ordered.filterMap fun child => child.written.1).Pairwise (· < ·)

theorem Node.Placed.laid (placed : node.Placed) (inOrder : node.ordered.Pairwise Node.Before) : node.Laid := by
  cases placed with
  | mk le covers apart below =>
    refine ⟨le, covers, apart.and inOrder, List.pairwise_filterMap.2 (inOrder.imp fun {child next} before => ?_)⟩
    intro place here other there
    obtain ⟨cell, owned, rfl⟩ := child.exists_of_written here
    obtain ⟨later, also, rfl⟩ := next.exists_of_written there
    exact before cell owned later also

theorem Fits.listed (fits : Fits markings node) (sided : Sided markings node) :
    ∀ inner ∈ node.listed, Fits markings inner ∧ Sided markings inner := by
  induction node using Node.of_children with
  | step node ih =>
    intro inner listed
    rcases Node.mem_listed.1 listed with rfl | ⟨child, member, inside⟩
    · exact ⟨fits, sided⟩
    · exact ih child member (fits.below member) (sided.below member) inner inside

end TolerantParser
