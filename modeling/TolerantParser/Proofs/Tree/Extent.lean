import Mathlib.Data.List.Pairwise
import Mathlib.Data.List.Perm.Subperm
import TolerantParser.Proofs.Token.Order

/-!
Where nodes are. A node reaches over its children, and those lie one behind the other (`Node.Placed`). Pieces
that a parse makes lie in the order in which they are made (`Lies`), and a node made of them lies where they do.
To put children in order by where they begin is to put them in the order of the pieces (`Settled`), for which it
is enough that no two of them begin at one place unless the fields of the node are in that order.
-/

namespace TolerantParser

/-! ### Children in order -/

/-- Nodes in the order of where they begin are in the order in which they were made. -/
def Settled (children made : List Node) : Prop :=
  (children.mergeSort fun a b => a.first.le b.first).Sublist made

theorem settled_of_pairwise {made : List Node} (sorted : made.Pairwise (·.first ≤ ·.first)) : Settled made made := by
  rw [Settled, List.mergeSort_of_pairwise sorted]

/-- Nodes that begin at different places are settled in whichever order they are written down. -/
theorem settled_of_strict {children made lost : List Node} (parts : made.Perm (children ++ lost))
    (strict : made.Pairwise (·.first < ·.first)) : Settled children made := by
  obtain ⟨kept, same, sublist⟩ : children.Subperm made :=
    (List.sublist_append_left children lost).subperm.trans parts.symm.subperm
  have rising := strict.sublist sublist
  have sorted : (children.mergeSort fun a b => a.first.le b.first).Pairwise (·.first ≤ ·.first) :=
    List.pairwise_mergeSort (fun a b c => @le_trans Position _ a.first b.first c.first)
      (fun a b => Bool.or_eq_true_iff.2 (le_total a.first b.first)) children
  have perm := (List.mergeSort_perm children fun a b => a.first.le b.first).trans same.symm
  have equal : (children.mergeSort fun a b => a.first.le b.first) = kept := by
    refine List.Perm.eq_of_pairwise (fun a b inside among le ge => ?_) sorted (rising.imp le_of_lt) perm
    have symm : Std.Symm fun a b : Node => a.first ≠ b.first := ⟨fun _ _ ne => ne.symm⟩
    have distinct : kept.Pairwise fun a b => a.first ≠ b.first := rising.imp ne_of_lt
    by_contra other
    exact distinct.forall (perm.subset inside) among other (le_antisymm le ge)
  rw [Settled, equal]
  exact sublist

/-! ### Places of nodes -/

/-- A node begins no later than its children and ends no earlier, and each child ends before the next one begins;
and so all the way down. -/
inductive Node.Placed : Node → Prop
  | mk {node : Node} (le : node.first ≤ node.last)
      (covers : ∀ child ∈ node.children.nodes, node.first ≤ child.first ∧ child.last ≤ node.last)
      (apart : node.ordered.Pairwise (·.last ≤ ·.first))
      (below : ∀ child ∈ node.children.nodes, child.Placed) : node.Placed

theorem Node.Placed.le {node : Node} (placed : node.Placed) : node.first ≤ node.last := by
  cases placed with
  | mk le => exact le

/-- Tokens outside of its span do not move a node. -/
theorem Node.Placed.addTokens {node : Node} (placed : node.Placed) (cells : List Cell) :
    (node.addTokens cells).Placed := by
  cases placed with
  | mk le covers apart below => exact .mk le covers apart below

/-- Where children begin does not depend on what else is known of them. -/
theorem Node.ordered_map {node moved : Node} {move : Node → Node}
    (nodes : moved.children.nodes = node.children.nodes.map move)
    (firsts : ∀ child, (move child).first = child.first) : moved.ordered = node.ordered.map move := by
  rw [Node.ordered, Node.ordered, nodes]
  refine (List.map_mergeSort fun a _ b _ => ?_).symm
  rw [firsts a, firsts b]

/-- A node whose children stay where they are stays in order. -/
theorem Node.Placed.map {node moved : Node} {move : Node → Node} (placed : node.Placed)
    (nodes : moved.children.nodes = node.children.nodes.map move)
    (ends : moved.first = node.first ∧ moved.last = node.last)
    (same : ∀ child, (move child).first = child.first ∧ (move child).last = child.last)
    (below : ∀ child ∈ node.children.nodes, (move child).Placed) : moved.Placed := by
  cases placed with
  | mk le covers apart _ =>
    refine .mk (by rwa [ends.1, ends.2]) ?_ ?_ ?_
    · rw [nodes, List.forall_mem_map]
      intro child member
      rw [ends.1, ends.2, (same child).1, (same child).2]
      exact covers child member
    · rw [Node.ordered_map nodes fun child => (same child).1, List.pairwise_map]
      refine apart.imp fun {a b} le => ?_
      rwa [(same a).2, (same b).1]
    · rw [nodes, List.forall_mem_map]
      exact below

namespace Piece

def first : Piece → Position
  | .token cell => cell.first
  | .node made _ => made.first

def last : Piece → Position
  | .token cell => cell.last
  | .node made _ => made.last

/-- What a piece stands for is where it should be. -/
structure Placed (piece : Piece) : Prop where
  le : piece.first ≤ piece.last
  nodes : ∀ node ∈ piece.made, node.Placed
  cells : ∀ cell ∈ piece.cells, cell.Stretches

end Piece

/-- Pieces that lie between two places, one behind the other. -/
def Lies (lo : Position) : List Piece → Position → Prop
  | [], hi => lo ≤ hi
  | piece :: rest, hi => lo ≤ piece.first ∧ piece.Placed ∧ Lies piece.last rest hi

section

variable {lo mid hi : Position} {ps qs : List Piece}

theorem Lies.sooner (lies : Lies mid ps hi) (le : lo ≤ mid) : Lies lo ps hi := by
  cases ps with
  | nil => exact le.trans lies
  | cons piece rest => exact ⟨le.trans lies.1, lies.2⟩

theorem lies_append : Lies lo (ps ++ qs) hi ↔ ∃ mid, Lies lo ps mid ∧ Lies mid qs hi := by
  induction ps generalizing lo with
  | nil => exact ⟨fun lies => ⟨lo, le_refl lo, lies⟩, fun ⟨_, le, lies⟩ => lies.sooner le⟩
  | cons piece rest ih =>
    constructor
    · rintro ⟨le, placed, later⟩
      obtain ⟨mid, first, second⟩ := ih.1 later
      exact ⟨mid, ⟨le, placed, first⟩, second⟩
    · rintro ⟨mid, ⟨le, placed, first⟩, second⟩
      exact ⟨le, placed, ih.2 ⟨mid, first, second⟩⟩

theorem Lies.append (first : Lies lo ps mid) (second : Lies mid qs hi) : Lies lo (ps ++ qs) hi :=
  lies_append.2 ⟨mid, first, second⟩

theorem Lies.le (lies : Lies lo ps hi) : lo ≤ hi := by
  induction ps generalizing lo with
  | nil => exact lies
  | cons piece rest ih =>
    obtain ⟨le, placed, later⟩ := lies
    exact le.trans (placed.le.trans (ih later))

theorem Lies.mem (lies : Lies lo ps hi) {piece : Piece} (member : piece ∈ ps) :
    lo ≤ piece.first ∧ piece.last ≤ hi ∧ piece.Placed := by
  obtain ⟨before, after, rfl⟩ := List.append_of_mem member
  obtain ⟨mid, first, le, placed, later⟩ := lies_append.1 lies
  exact ⟨first.le.trans le, later.le, placed⟩

theorem Lies.stretches (lies : Lies lo ps hi) : ∀ cell ∈ cellsOf ps, cell.Stretches := by
  intro cell member
  obtain ⟨piece, listed, own⟩ := List.mem_flatMap.1 member
  exact (lies.mem listed).2.2.cells cell own

theorem Lies.token (lies : Lies lo ps hi) {cell : Cell} (member : cell ∈ tokensOf ps) :
    lo ≤ cell.first ∧ cell.first ≤ cell.last ∧ cell.last ≤ hi := by
  obtain ⟨piece, listed, own⟩ := List.mem_flatMap.1 member
  cases piece with
  | node => cases own
  | token =>
    obtain rfl := List.mem_singleton.1 own
    obtain ⟨first, last, placed⟩ := lies.mem listed
    exact ⟨first, placed.le, last⟩

theorem Lies.node (lies : Lies lo ps hi) {node : Node} (member : node ∈ nodesOf ps) :
    lo ≤ node.first ∧ node.last ≤ hi ∧ node.Placed := by
  obtain ⟨run, listed⟩ := mem_nodesOf member
  obtain ⟨first, last, placed⟩ := lies.mem listed
  exact ⟨first, last, placed.nodes node (List.mem_singleton.2 rfl)⟩

/-- Nodes lie in the order in which they were made. -/
theorem Lies.pairwise (lies : Lies lo ps hi) : (nodesOf ps).Pairwise (·.last ≤ ·.first) := by
  induction ps generalizing lo with
  | nil => exact .nil
  | cons piece rest ih =>
    obtain ⟨-, -, later⟩ := lies
    cases piece with
    | token => exact ih later
    | node node run =>
      rw [nodesOf_node, List.pairwise_cons]
      exact ⟨fun other member => (later.node member).1, ih later⟩

theorem Lies.sorted (lies : Lies lo ps hi) : (nodesOf ps).Pairwise (·.first ≤ ·.first) :=
  lies.pairwise.imp_of_mem fun member _ le => (lies.node member).2.2.le.trans le

end

theorem lies_node {lo hi : Position} {node : Node} {run : List Cell} (first : lo ≤ node.first) (last : node.last ≤ hi)
    (placed : node.Placed) (stretches : ∀ cell ∈ run, cell.Stretches) : Lies lo [.node node run] hi :=
  ⟨first, ⟨placed.le, fun _ member => List.mem_singleton.1 member ▸ placed, stretches⟩, last⟩

/-! ### Nodes that begin at different places -/

section

variable {ps qs : List Piece} {cell : Cell}

/-- No two of the nodes begin at one place. -/
def Rising (ps : List Piece) : Prop := ∀ lo hi, Lies lo ps hi → (nodesOf ps).Pairwise (·.first < ·.first)

/-- The nodes begin before the end of the pieces. -/
def Shut (ps : List Piece) : Prop := ∀ lo hi, Lies lo ps hi → ∀ node ∈ nodesOf ps, node.first < hi

/-- The nodes begin behind the start of the pieces. -/
def Fresh (ps : List Piece) : Prop := ∀ lo hi, Lies lo ps hi → ∀ node ∈ nodesOf ps, lo < node.first

theorem rising_of_bare (none : nodesOf ps = []) : Rising ps := fun _ _ _ => none ▸ .nil

theorem rising_of_toList {node? : Option Node} (made : nodesOf ps = node?.toList) : Rising ps := by
  intro lo hi lies
  rw [made]
  cases node? with
  | none => exact .nil
  | some node => exact List.pairwise_singleton _ node

theorem rising_node (node : Node) (run : List Cell) : Rising [.node node run] :=
  fun _ _ _ => List.pairwise_singleton _ node

theorem Rising.append (first : Rising ps) (apart : Shut ps ∨ Fresh qs) (second : Rising qs) : Rising (ps ++ qs) := by
  intro lo hi lies
  obtain ⟨mid, early, late⟩ := lies_append.1 lies
  rw [nodesOf_append, List.pairwise_append]
  refine ⟨first lo mid early, second mid hi late, fun node member other listed => ?_⟩
  rcases apart with shut | fresh
  · exact (shut lo mid early node member).trans_le (late.node listed).1
  · obtain ⟨-, last, placed⟩ := early.node member
    exact (placed.le.trans last).trans_lt (fresh mid hi late other listed)

theorem shut_of_bare (none : nodesOf ps = []) : Shut ps := by
  intro lo hi _ node member
  rw [none] at member
  cases member

theorem fresh_of_bare (none : nodesOf ps = []) : Fresh ps := by
  intro lo hi _ node member
  rw [none] at member
  cases member

theorem Shut.append (first : Shut ps) (second : Shut qs) : Shut (ps ++ qs) := by
  intro lo hi lies node member
  obtain ⟨mid, early, late⟩ := lies_append.1 lies
  rw [nodesOf_append, List.mem_append] at member
  rcases member with before | behind
  · exact (first lo mid early node before).trans_le late.le
  · exact second mid hi late node behind

/-- A token in between takes up some space. -/
theorem Lies.wide {lo hi : Position} (lies : Lies lo [.token cell] hi) (inline : cell.kind.isInline)
    (other : cell.kind ≠ .name) : lo < hi := by
  have cells := lies.stretches cell (List.mem_singleton.2 rfl)
  obtain ⟨first, -, last⟩ := lies.token (List.mem_singleton.2 rfl : cell ∈ tokensOf [.token cell])
  exact first.trans_lt ((cells.lt inline other).trans_le last)

theorem shut_snoc (ps : List Piece) (inline : cell.kind.isInline) (other : cell.kind ≠ .name) :
    Shut (ps ++ [.token cell]) := by
  intro lo hi lies node member
  obtain ⟨mid, early, late⟩ := lies_append.1 lies
  obtain ⟨-, last, placed⟩ := early.node (by simpa using member)
  exact (placed.le.trans last).trans_lt (late.wide inline other)

theorem fresh_cons (ps : List Piece) (inline : cell.kind.isInline) (other : cell.kind ≠ .name) :
    Fresh (.token cell :: ps) := by
  intro lo hi lies node member
  obtain ⟨mid, early, late⟩ := lies_append.1 (show Lies lo ([.token cell] ++ ps) hi from lies)
  exact (early.wide inline other).trans_le (late.node member).1

/-- A node that covers a token of its own begins before its end. -/
theorem shut_node {node : Node} {run : List Cell} (inline : cell.kind.isInline) (other : cell.kind ≠ .name)
    (own : cell ∈ run) (covers : node.first ≤ cell.first ∧ cell.last ≤ node.last) : Shut [.node node run] := by
  intro lo hi lies made member
  obtain rfl := List.mem_singleton.1 member
  have stretches := lies.stretches cell (by simpa using own)
  have last := (lies.node member).2.1
  exact covers.1.trans_lt ((stretches.lt inline other).trans_le (covers.2.trans last))

end

/-! ### The place of a new node -/

theorem Position.min_eq (p q : Position) : p.min q = Min.min p q := by
  unfold Position.min
  split
  next lt => exact (min_eq_right_of_lt lt).symm
  next other => exact (min_eq_left (le_of_not_gt other)).symm

theorem Position.max_eq (p q : Position) : p.max q = Max.max p q := by
  unfold Position.max
  split
  next lt => exact (max_eq_right_of_lt lt).symm
  next other => exact (max_eq_left (le_of_not_gt other)).symm

theorem Position.min_le (p q : Position) : p.min q ≤ p ∧ p.min q ≤ q :=
  Position.min_eq p q ▸ ⟨min_le_left p q, min_le_right p q⟩

theorem Position.le_max (p q : Position) : p ≤ p.max q ∧ q ≤ p.max q :=
  Position.max_eq p q ▸ ⟨le_max_left p q, le_max_right p q⟩

section

variable {lo hi anchor : Position} {parts : List (Position × Position)}

/-- A span that was widened covers what it was and all that it was widened by. -/
theorem foldl_covers (span : Position × Position) :
    let whole := parts.foldl (fun span next => (span.1.min next.1, span.2.max next.2)) span
    ∀ part ∈ span :: parts, whole.1 ≤ part.1 ∧ part.2 ≤ whole.2 := by
  induction parts generalizing span with
  | nil => exact List.forall_mem_singleton.2 ⟨le_refl span.1, le_refl span.2⟩
  | cons part parts ih =>
    obtain ⟨widened, others⟩ := List.forall_mem_cons.1 (ih (span.1.min part.1, span.2.max part.2))
    have least := Position.min_le span.1 part.1
    have greatest := Position.le_max span.2 part.2
    refine List.forall_mem_cons.2 ⟨?_, List.forall_mem_cons.2 ⟨?_, others⟩⟩
    · exact ⟨widened.1.trans least.1, greatest.1.trans widened.2⟩
    · exact ⟨widened.1.trans least.2, greatest.2.trans widened.2⟩

/-- A span that was widened goes no further than what it was widened by. -/
theorem foldl_within {span : Position × Position} (within : ∀ part ∈ span :: parts, lo ≤ part.1 ∧ part.2 ≤ hi) :
    let whole := parts.foldl (fun span next => (span.1.min next.1, span.2.max next.2)) span
    lo ≤ whole.1 ∧ whole.2 ≤ hi := by
  induction parts generalizing span with
  | nil => exact within span List.mem_cons_self
  | cons part parts ih =>
    rw [List.forall_mem_cons, List.forall_mem_cons] at within
    obtain ⟨first, second, others⟩ := within
    have widened : ∀ next ∈ (span.1.min part.1, span.2.max part.2) :: parts, lo ≤ next.1 ∧ next.2 ≤ hi := by
      refine List.forall_mem_cons.2 ⟨?_, others⟩
      rw [Position.min_eq, Position.max_eq]
      exact ⟨le_min first.1 second.1, max_le first.2 second.2⟩
    exact ih widened

theorem spanOver_covers (anchor : Position) :
    ∀ part ∈ parts, (spanOver anchor parts).1 ≤ part.1 ∧ part.2 ≤ (spanOver anchor parts).2 := by
  cases parts with
  | nil => exact nofun
  | cons span parts => exact foldl_covers span

theorem spanOver_within (here : lo ≤ anchor ∧ anchor ≤ hi)
    (within : ∀ part ∈ parts, lo ≤ part.1 ∧ part.1 ≤ part.2 ∧ part.2 ≤ hi) :
    lo ≤ (spanOver anchor parts).1 ∧ (spanOver anchor parts).1 ≤ (spanOver anchor parts).2 ∧
      (spanOver anchor parts).2 ≤ hi := by
  cases parts with
  | nil => exact ⟨here.1, le_refl anchor, here.2⟩
  | cons span parts =>
    have bounds := foldl_within fun part member => ⟨(within part member).1, (within part member).2.2⟩
    have first := (foldl_covers span : ∀ part ∈ span :: parts, _) span List.mem_cons_self
    exact ⟨bounds.1, first.1.trans ((within span List.mem_cons_self).2.1.trans first.2), bounds.2⟩

end

/-- A node made of pieces lies where they do, if it was begun there. -/
theorem Lies.make {lo hi : Position} {ps : List Piece} (lies : Lies lo ps hi) {kind : NodeKind} {detail : Detail}
    {anchor : Cell} {tokens : List Cell} {children : Children} (here : lo ≤ anchor.first ∧ anchor.first ≤ hi)
    (own : tokens ⊆ tokensOf ps) (made : children.nodes ⊆ nodesOf ps) (settled : Settled children.nodes (nodesOf ps)) :
    let node := Node.make kind detail anchor tokens children
    lo ≤ node.first ∧ node.last ≤ hi ∧ node.Placed := by
  have within : ∀ part ∈ extents tokens children.nodes, lo ≤ part.1 ∧ part.1 ≤ part.2 ∧ part.2 ≤ hi := by
    intro part member
    rcases List.mem_append.1 member with token | child
    · obtain ⟨cell, listed, rfl⟩ := List.mem_map.1 token
      exact lies.token (own (List.mem_filter.1 listed).1)
    · obtain ⟨node, listed, rfl⟩ := List.mem_map.1 child
      obtain ⟨first, last, placed⟩ := lies.node (made listed)
      exact ⟨first, placed.le, last⟩
  obtain ⟨first, le, last⟩ := spanOver_within here within
  refine ⟨first, last, .mk le (fun child member => ?_) (lies.pairwise.sublist settled) fun child member => ?_⟩
  · exact spanOver_covers anchor.first _ (List.mem_append_right _ (List.mem_map_of_mem member))
  · exact (lies.node (made member)).2.2

/-- A node covers each of its own tokens that count. -/
theorem Node.covers_make (kind : NodeKind) (detail : Detail) (anchor : Cell) {tokens : List Cell}
    (children : Children) {cell : Cell} (member : cell ∈ tokens) (counts : cell.kind.isSpanless = false) :
    (Node.make kind detail anchor tokens children).first ≤ cell.first ∧
      cell.last ≤ (Node.make kind detail anchor tokens children).last := by
  have owned : cell ∈ tokens.filter (!·.kind.isSpanless) := List.mem_filter.2 ⟨member, by simpa using counts⟩
  exact spanOver_covers anchor.first _ (List.mem_append_left _ (List.mem_map_of_mem owned))

end TolerantParser
