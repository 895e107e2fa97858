import Mathlib.Data.List.Perm.Basic
import TolerantParser.Proofs.Tree.Placing
import TolerantParser.Tree.Collect

/-!
Comments come to hang on exactly one node. Of the nodes that begin at one mark the outermost takes the
comments before it, and of those that end at one the outermost those behind it; below the root a mark is
taken once (`takes_spec`). So what the nodes of a tree hold after comments have been attached are the tokens
that they held before and all comments.
-/

namespace TolerantParser

/-! ### What nodes hold -/

/-- The tokens of a node, and the comments before and after it. -/
def Node.holds (node : Node) : List Cell := node.info.before ++ node.tokens ++ node.info.after

/-- All that the nodes of a tree hold. -/
def Node.held (node : Node) : List Cell := node.listed.flatMap Node.holds

theorem inOrder_perm {α : Type} (parts : List (Position × List α)) :
    (inOrder parts).Perm (parts.flatMap Prod.snd) :=
  (List.mergeSort_perm parts _).flatMap_right _

theorem Children.listed_eq (children : Children) :
    children.listed = children.nodes.map fun child => (child.first, child.listed) := by
  induction children using Children.induction with
  | nil => rfl
  | gap _ rest ih => exact ih
  | cons _ node rest ih => exact congrArg ((node.first, node.listed) :: ·) ih

theorem Node.listed_perm (node : Node) :
    node.listed.Perm (node :: node.children.nodes.flatMap Node.listed) := by
  cases node with
  | mk info children =>
    rw [Node.listed]
    refine ((inOrder_perm _).trans ?_).cons _
    rw [children.listed_eq, List.flatMap_map]
    exact .refl _

theorem Node.mem_listed {node inner : Node} : inner ∈ node.listed ↔
    inner = node ∨ ∃ child ∈ node.children.nodes, inner ∈ child.listed := by
  rw [node.listed_perm.mem_iff, List.mem_cons, List.mem_flatMap]

theorem Node.listed_trans {tree inner node : Node} (listed : inner ∈ tree.listed) (inside : node ∈ inner.listed) :
    node ∈ tree.listed := by
  induction tree using Node.of_children with
  | step tree ih =>
    rcases Node.mem_listed.1 listed with rfl | ⟨child, member, below⟩
    · exact inside
    · exact Node.mem_listed.2 (.inr ⟨child, member, ih child member below⟩)

theorem Node.owned_below {node child : Node} (member : child ∈ node.children.nodes) {cell : Cell}
    (owned : cell ∈ child.ownedTokens) : cell ∈ node.ownedTokens := by
  rw [Node.ownedTokens_eq]
  exact List.mem_append_right _ (List.mem_flatMap.2 ⟨child, member, owned⟩)

theorem Node.owned_of_mem {node : Node} {cell : Cell} (own : cell ∈ node.tokens) :
    cell ∈ node.ownedTokens := by
  rw [Node.ownedTokens_eq]
  exact List.mem_append_left _ own

theorem Node.mem_ownedTokens {node : Node} {cell : Cell} :
    cell ∈ node.ownedTokens ↔ ∃ inner ∈ node.listed, cell ∈ inner.tokens := by
  induction node using Node.of_children with
  | step node ih =>
    rw [Node.ownedTokens_eq, List.mem_append, List.mem_flatMap]
    constructor
    · rintro (own | ⟨child, member, owned⟩)
      · exact ⟨node, Node.mem_listed.2 (.inl rfl), own⟩
      · obtain ⟨inner, listed, own⟩ := (ih child member).1 owned
        exact ⟨inner, Node.mem_listed.2 (.inr ⟨child, member, listed⟩), own⟩
    · rintro ⟨inner, listed, own⟩
      rcases Node.mem_listed.1 listed with rfl | ⟨child, member, below⟩
      · exact .inl own
      · exact .inr ⟨child, member, (ih child member).2 ⟨inner, below, own⟩⟩

theorem Node.owned_of_listed {tree inner : Node} (listed : inner ∈ tree.listed) :
    inner.ownedTokens ⊆ tree.ownedTokens := fun _ owned => by
  obtain ⟨node, inside, own⟩ := Node.mem_ownedTokens.1 owned
  exact Node.mem_ownedTokens.2 ⟨node, Node.listed_trans listed inside, own⟩

theorem Node.held_perm (node : Node) :
    node.held.Perm (node.holds ++ node.children.nodes.flatMap Node.held) := by
  have all := node.listed_perm.flatMap_right Node.holds
  rwa [List.flatMap_cons, List.flatMap_assoc] at all

/-! ### Attaching -/

/-- The node with the comments of a plan, given the bounds of the node around. -/
def Node.commented (plan : CommentPlan) (around : Option Bounds) (node : Node) : Node :=
  node.withComments plan around node.outline

section

variable (plan : CommentPlan) (around : Option Bounds) (node : Node)

theorem Children.nodes_withComments (children : Children) :
    (children.withComments plan around children.outlines).nodes =
      children.nodes.map (Node.commented plan around) := by
  induction children using Children.induction with
  | nil => rfl
  | gap _ rest ih => exact ih
  | cons _ node rest ih => exact congrArg (node.commented plan around :: ·) ih

theorem Children.toList_withComments (children : Children) :
    (children.withComments plan around children.outlines).toList =
      children.toList.map fun part => (part.1, part.2.map (Node.commented plan around)) := by
  induction children using Children.induction with
  | nil => rfl
  | gap label rest ih => exact congrArg ((label, none) :: ·) ih
  | cons label node rest ih => exact congrArg ((label, some (node.commented plan around)) :: ·) ih

theorem Node.tokens_commented :
    (node.commented plan around).tokens = node.tokens ++ plan.insideOf node.tokens := by
  cases node
  rfl

theorem Node.before_commented : (node.commented plan around).info.before =
    node.info.before ++ commentsAt plan.before Bounds.first around node.bounds := by
  cases node with
  | mk info children =>
    rw [← Node.outline_bounds]
    rfl

theorem Node.after_commented : (node.commented plan around).info.after =
    node.info.after ++ commentsAt plan.after Bounds.last around node.bounds := by
  cases node with
  | mk info children =>
    rw [← Node.outline_bounds]
    rfl

theorem Node.nodes_commented : (node.commented plan around).children.nodes =
    node.children.nodes.map (Node.commented plan node.bounds) := by
  cases node with
  | mk info children =>
    rw [← Node.outline_bounds]
    exact children.nodes_withComments plan _

theorem Node.toList_commented : (node.commented plan around).children.toList =
    node.children.toList.map fun part => (part.1, part.2.map (Node.commented plan node.bounds)) := by
  cases node with
  | mk info children =>
    rw [← Node.outline_bounds]
    exact children.toList_withComments plan _

end

theorem Node.mem_listed_commented {plan : CommentPlan} {around : Option Bounds} {node inner : Node}
    (member : inner ∈ (node.commented plan around).listed) :
    ∃ bare ∈ node.listed, ∃ outer, inner = bare.commented plan outer := by
  induction node using Node.of_children generalizing around with
  | step node ih =>
    rw [Node.mem_listed, Node.nodes_commented] at member
    rcases member with rfl | ⟨child, listed, inside⟩
    · exact ⟨node, Node.mem_listed.2 (.inl rfl), around, rfl⟩
    · obtain ⟨bare, among, rfl⟩ := List.mem_map.1 listed
      obtain ⟨found, here, outer, same⟩ := ih bare among inside
      exact ⟨found, Node.mem_listed.2 (.inr ⟨bare, among, here⟩), outer, same⟩

theorem Node.listed_commented (plan : CommentPlan) (around : Option Bounds) {node inner : Node}
    (member : inner ∈ node.listed) :
    ∃ outer, inner.commented plan outer ∈ (node.commented plan around).listed := by
  induction node using Node.of_children generalizing around with
  | step node ih =>
    rcases Node.mem_listed.1 member with rfl | ⟨child, listed, inside⟩
    · exact ⟨around, Node.mem_listed.2 (.inl rfl)⟩
    · obtain ⟨outer, here⟩ := ih child listed node.bounds inside
      refine ⟨outer, Node.mem_listed.2 (.inr ⟨child.commented plan node.bounds, ?_, here⟩)⟩
      rw [Node.nodes_commented]
      exact List.mem_map_of_mem listed

theorem Node.kind_commented (plan : CommentPlan) (around : Option Bounds) (node : Node) :
    (node.commented plan around).kind = node.kind := by
  cases node
  rfl

theorem Node.detail_commented (plan : CommentPlan) (around : Option Bounds) (node : Node) :
    (node.commented plan around).info.detail = node.info.detail := by
  cases node
  rfl

/-! ### Marks that are taken -/

/-- The mark at one end of a node, unless a node around it has the same end. -/
def taken (side : Bounds → Nat) (around : Option Bounds) : Option Bounds → List Nat
  | none => []
  | some bounds => if around.any (side · == side bounds) then [] else [side bounds]

theorem commentsAt_eq (comments : Array (List Cell)) (side : Bounds → Nat)
    (around bounds : Option Bounds) : commentsAt comments side around bounds =
      (taken side around bounds).flatMap (comments.getD · []) := by
  cases bounds with
  | none => rfl
  | some bounds =>
    rw [commentsAt, taken]
    split <;> simp

mutual

/-- The marks at one end of a node and of the nodes below it, each only for the outermost of them. -/
def Node.takes (side : Bounds → Nat) (around : Option Bounds) : Node → List Nat
  | .mk info children =>
    taken side around (Node.mk info children).bounds ++
      children.takes side (Node.mk info children).bounds

def Children.takes (side : Bounds → Nat) (around : Option Bounds) : Children → List Nat
  | .nil => []
  | .gap _ rest => rest.takes side around
  | .cons _ node rest => node.takes side around ++ rest.takes side around

end

theorem Children.takes_eq (side : Bounds → Nat) (around : Option Bounds) (children : Children) :
    children.takes side around = children.nodes.flatMap (Node.takes side around) := by
  induction children using Children.induction with
  | nil => rfl
  | gap _ rest ih => exact ih
  | cons _ node rest ih => exact congrArg (node.takes side around ++ ·) ih

theorem Node.takes_eq (side : Bounds → Nat) (around : Option Bounds) (node : Node) :
    node.takes side around = taken side around node.bounds ++
      node.children.nodes.flatMap (Node.takes side node.bounds) := by
  cases node with
  | mk info children => exact congrArg (_ ++ ·) (children.takes_eq side _)

/-- One end of bounds, the first or the last of the places that they are over. -/
structure IsEnd (side : Bounds → Nat) : Prop where
  mark {places : List Nat} {bounds : Bounds} : Bound places (some bounds) → side bounds ∈ places
  outermost {places inner : List Nat} {around bounds : Bounds} : Bound places (some around) →
    Bound inner (some bounds) → inner ⊆ places → side around ∈ inner → side bounds = side around

theorem isEnd_first : IsEnd Bounds.first where
  mark bound := bound.1
  outermost outer inner within listed :=
    Nat.le_antisymm (inner.2.2 _ listed).1 (outer.2.2 _ (within inner.1)).1

theorem isEnd_last : IsEnd Bounds.last where
  mark bound := bound.2.1
  outermost outer inner within listed :=
    Nat.le_antisymm (outer.2.2 _ (within inner.2.1)).2 (inner.2.2 _ listed).2

/-- The bounds around a node reach over it. -/
def Around (around : Option Bounds) (node : Node) : Prop :=
  ∀ bounds, around = some bounds → ∃ places, Bound places (some bounds) ∧ node.marks ⊆ places

theorem around_none (node : Node) : Around none node := nofun

theorem around_bounds {node child : Node} (member : child ∈ node.children.nodes) :
    Around node.bounds child := fun _ same =>
  ⟨node.marks, same ▸ node.bound, fun _ mark => mem_marks.2 (.inr ⟨child, member, mark⟩)⟩

/-- The node around does not have its end there. -/
def Frees (side : Bounds → Nat) (around : Option Bounds) (mark : Nat) : Prop :=
  ∀ bounds, around = some bounds → side bounds ≠ mark

/-- What ends the node around and lies in a node ends that node too. -/
theorem Frees.outer {side : Bounds → Nat} (isEnd : IsEnd side) {node : Node} {around : Option Bounds}
    {mark : Nat} (free : Frees side node.bounds mark) (outside : Around around node)
    (own : mark ∈ node.marks) : Frees side around mark := by
  intro outer same ended
  obtain ⟨places, bound, within⟩ := outside outer same
  have mine := node.bound
  cases bounds : node.bounds with
  | none =>
    rw [bounds] at mine
    rw [show node.marks = [] from mine] at own
    cases own
  | some inner =>
    rw [bounds] at mine
    have reached := isEnd.outermost bound mine within (ended ▸ own)
    exact free inner bounds (reached.trans ended)

theorem mem_taken {side : Bounds → Nat} {around bounds : Option Bounds} {mark : Nat} :
    mark ∈ taken side around bounds ↔
      (∃ own, bounds = some own ∧ side own = mark) ∧ Frees side around mark := by
  cases bounds with
  | none => simp [taken]
  | some own =>
    cases around with
    | none => simp [taken, Frees, eq_comm]
    | some outer =>
      by_cases same : side outer = side own
      · simp [taken, Frees, same]
      · simp only [taken, Frees, Option.any_some, beq_iff_eq, if_neg same, List.mem_singleton,
          Option.some.injEq, exists_eq_left', forall_eq']
        constructor
        · rintro rfl
          exact ⟨rfl, same⟩
        · exact fun both => both.1.symm

theorem nodup_taken (side : Bounds → Nat) (around bounds : Option Bounds) :
    (taken side around bounds).Nodup := by
  unfold taken
  split
  · exact List.nodup_nil
  · split
    · exact List.nodup_nil
    · exact List.nodup_singleton _

theorem mem_sides {side : Bounds → Nat} {node : Node} {mark : Nat} :
    mark ∈ node.outline.all.map side ↔ (∃ own, node.bounds = some own ∧ side own = mark) ∨
      ∃ child ∈ node.children.nodes, mark ∈ child.outline.all.map side := by
  rw [Node.all_outline, List.map_append, List.mem_append, List.map_flatMap, List.mem_flatMap]
  simp

theorem marks_of_sides {side : Bounds → Nat} (isEnd : IsEnd side) (node : Node) :
    ∀ mark ∈ node.outline.all.map side, mark ∈ node.marks := by
  induction node using Node.of_children with
  | step node ih =>
    intro mark listed
    rcases mem_sides.1 listed with ⟨own, bounds, rfl⟩ | ⟨child, member, inner⟩
    · exact isEnd.mark (bounds ▸ node.bound)
    · exact mem_marks.2 (.inr ⟨child, member, ih child member mark inner⟩)

/-- What is taken below one child is not taken below another. -/
theorem nodup_takes {side : Bounds → Nat} (isEnd : IsEnd side) {children : List Node}
    {around : Option Bounds} (apart : children.Pairwise fun a b => Apart a.places b.places)
    (each : ∀ child ∈ children, (child.takes side around).Nodup)
    (sides : ∀ child ∈ children, ∀ mark ∈ child.takes side around, mark ∈ child.outline.all.map side) :
    (children.flatMap (Node.takes side around)).Nodup := by
  refine List.nodup_flatMap.2 ⟨each, apart.imp_of_mem fun {a b} first second apart mark one other => ?_⟩
  have inA := marks_of_sides isEnd a mark (sides a first mark one)
  have inB := marks_of_sides isEnd b mark (sides b second mark other)
  exact apart.not_mem (places_of_marks inA) (places_of_marks inB)

/-- Each end of a node in the tree is taken once, unless the node around has it. -/
theorem takes_spec {side : Bounds → Nat} (isEnd : IsEnd side) {node : Node} (separate : node.Separate)
    {around : Option Bounds} (outside : Around around node) :
    (node.takes side around).Nodup ∧ ∀ mark, mark ∈ node.takes side around ↔
      mark ∈ node.outline.all.map side ∧ Frees side around mark := by
  induction separate generalizing around with
  | @mk node nodup children own below ih =>
    have inner := fun child member => (ih child member (around_bounds member)).2
    rw [Node.takes_eq]
    constructor
    · rw [List.nodup_append']
      refine ⟨nodup_taken .., nodup_takes isEnd children
        (fun child member => (ih child member (around_bounds member)).1)
        (fun child member mark listed => ((inner child member mark).1 listed).1),
        fun mark early late => ?_⟩
      obtain ⟨⟨bounds, here, same⟩, -⟩ := mem_taken.1 early
      obtain ⟨child, member, listed⟩ := List.mem_flatMap.1 late
      exact ((inner child member mark).1 listed).2 bounds here same
    · intro mark
      rw [List.mem_append, mem_taken, List.mem_flatMap, mem_sides]
      constructor
      · rintro (⟨here, free⟩ | ⟨child, member, listed⟩)
        · exact ⟨.inl here, free⟩
        · obtain ⟨side', free⟩ := (inner child member mark).1 listed
          exact ⟨.inr ⟨child, member, side'⟩, free.outer isEnd outside
            (mem_marks.2 (.inr ⟨child, member, marks_of_sides isEnd child mark side'⟩))⟩
      · rintro ⟨here | ⟨child, member, listed⟩, free⟩
        · exact .inl ⟨here, free⟩
        · by_cases mine : ∃ own, node.bounds = some own ∧ side own = mark
          · exact .inl ⟨mine, free⟩
          · exact .inr ⟨child, member, (inner child member mark).2
              ⟨listed, fun bound same ended => mine ⟨bound, same, ended⟩⟩⟩

/-! ### What hangs where -/

/-- No comment hangs on any node of the tree. -/
def Node.Bare (tree : Node) : Prop := ∀ node ∈ tree.listed, node.info.before = [] ∧ node.info.after = []

theorem Node.Bare.below {node child : Node} (bare : node.Bare) (member : child ∈ node.children.nodes) :
    child.Bare := fun inner listed => bare inner (Node.mem_listed.2 (.inr ⟨child, member, listed⟩))

theorem insideOf_perm (plan : CommentPlan) (tokens : List Cell) : (plan.insideOf tokens).Perm
    ((tokens.map Cell.index).flatMap (plan.inside.getD · [])) :=
  (List.mergeSort_perm _ _).flatMap_right _

/-- The comments that a plan brings to the nodes of a tree. -/
def brought (plan : CommentPlan) (around : Option Bounds) (node : Node) : List Cell :=
  node.places.flatMap (plan.inside.getD · []) ++
  (node.takes Bounds.first around).flatMap (plan.before.getD · []) ++
  (node.takes Bounds.last around).flatMap (plan.after.getD · [])

theorem flatMap_brought_perm (plan : CommentPlan) (around : Option Bounds) (children : List Node) :
    (children.flatMap (brought plan around)).Perm
      ((children.flatMap Node.places).flatMap (plan.inside.getD · []) ++
        (children.flatMap (Node.takes Bounds.first around)).flatMap (plan.before.getD · []) ++
        (children.flatMap (Node.takes Bounds.last around)).flatMap (plan.after.getD · [])) := by
  rw [List.flatMap_assoc, List.flatMap_assoc, List.flatMap_assoc]
  exact ((List.flatMap_append_perm ..).append_right _ |>.trans (List.flatMap_append_perm ..)).symm

theorem brought_perm (plan : CommentPlan) (around : Option Bounds) (node : Node) :
    (brought plan around node).Perm (plan.insideOf node.tokens ++
      commentsAt plan.before Bounds.first around node.bounds ++
      commentsAt plan.after Bounds.last around node.bounds ++
      node.children.nodes.flatMap (brought plan node.bounds)) := by
  rw [brought, node.places_eq, Node.takes_eq, Node.takes_eq, commentsAt_eq, commentsAt_eq, List.flatMap_append,
    List.flatMap_append, List.flatMap_append, List.perm_iff_count]
  intro cell
  have own := (insideOf_perm plan node.tokens).count_eq cell
  have others := (flatMap_brought_perm plan node.bounds node.children.nodes).count_eq cell
  simp only [List.count_append] at own others ⊢
  omega

/-- A node with comments holds what it held before and the comments brought to it. -/
theorem held_commented (plan : CommentPlan) {node : Node} (bare : node.Bare) (around : Option Bounds) :
    (node.commented plan around).held.Perm (node.ownedTokens ++ brought plan around node) := by
  induction node using Node.of_children generalizing around with
  | step node ih =>
    have children : ((node.children.nodes.map (Node.commented plan node.bounds)).flatMap Node.held).Perm
        (node.children.nodes.flatMap Node.ownedTokens ++
          node.children.nodes.flatMap (brought plan node.bounds)) := by
      rw [List.flatMap_map]
      refine (List.Perm.flatMap_left _ fun child member =>
        ih child member (bare.below member) node.bounds).trans ?_
      exact (List.flatMap_append_perm ..).symm
    obtain ⟨before, after⟩ := bare node (Node.mem_listed.2 (.inl rfl))
    refine (Node.held_perm _).trans ?_
    rw [Node.holds, Node.tokens_commented, Node.before_commented, Node.after_commented,
      Node.nodes_commented, before, after, Node.ownedTokens_eq, List.perm_iff_count]
    intro cell
    have inner := children.count_eq cell
    have all := (brought_perm plan around node).count_eq cell
    simp only [List.count_append, List.count_nil] at inner all ⊢
    omega

/-! ### Whole documents -/

theorem flatMap_filter_ne_nil {α β : Type} (list : List α) (f : α → List β) :
    (list.filter fun a => !(f a).isEmpty).flatMap f = list.flatMap f := by
  induction list with
  | nil => rfl
  | cons first rest ih =>
    rw [List.filter_cons]
    split
    next => rw [List.flatMap_cons, List.flatMap_cons, ih]
    next empty =>
      have none : f first = [] := by simpa using empty
      rw [List.flatMap_cons, none, ih, List.nil_append]

/-- Lists under numbers, each number once and none left out whose list holds something, are all lists. -/
theorem flatMap_getD_perm {α : Type} (lists : Array (List α)) {numbers : List Nat}
    (nodup : numbers.Nodup) (all : ∀ number, lists.getD number [] ≠ [] → number ∈ numbers) :
    (numbers.flatMap (lists.getD · [])).Perm lists.toList.flatten := by
  have whole : lists.toList.flatten = (List.range lists.size).flatMap (lists.getD · []) := by
    rw [List.flatMap]
    refine congrArg List.flatten (List.ext_getElem (by simp) fun number first second => ?_)
    have inside : number < lists.size := by simpa using first
    simp [inside]
  rw [whole, ← flatMap_filter_ne_nil numbers, ← flatMap_filter_ne_nil (List.range _)]
  refine List.Perm.flatMap_right _ ((List.perm_ext_iff_of_nodup (nodup.filter _)
    (List.nodup_range.filter _)).2 fun number => ?_)
  simp only [List.mem_filter, List.mem_range]
  refine and_congr_left fun filled => ?_
  have filled : lists.getD number [] ≠ [] := by simpa using filled
  refine ⟨fun _ => ?_, fun _ => all number filled⟩
  by_contra outside
  exact filled (by simp [Array.getD_eq_getD_getElem?, Nat.le_of_not_lt outside])

theorem Node.Separate.nodup_places {node : Node} (separate : node.Separate) : node.places.Nodup := by
  induction separate with
  | @mk node nodup children own below ih =>
    rw [node.places_eq, List.nodup_append', List.nodup_flatMap]
    refine ⟨nodup, ⟨ih, children.imp fun apart place one other => apart.not_mem one other⟩, ?_⟩
    intro place first second
    obtain ⟨cell, owned, rfl⟩ := List.mem_map.1 first
    obtain ⟨child, member, listed⟩ := List.mem_flatMap.1 second
    exact (own cell owned child member).not_mem (List.mem_singleton_self _) listed

section

variable {tree : Node} {tokens : List Cell}

theorem pairwise_index (numbered : tokens.map Cell.index = List.range tokens.length) :
    tokens.Pairwise (·.index < ·.index) := by
  have sorted := List.pairwise_lt_range (n := tokens.length)
  rwa [← numbered, List.pairwise_map] at sorted

/-- The plan for the comments of a document. -/
def Node.plan (tree : Node) (tokens : List Cell) : CommentPlan :=
  .ofDocument tree tree.children.outlines tokens

theorem Node.nodes_attachComments (tree : Node) (tokens : List Cell) :
    (tree.attachComments tokens).children.nodes =
      tree.children.nodes.map (Node.commented (tree.plan tokens) none) :=
  Children.nodes_withComments _ none tree.children

theorem Node.holds_attachComments (tree : Node) (tokens : List Cell) :
    (tree.attachComments tokens).holds = (tree.info.before ++ (tree.plan tokens).document) ++
      (tree.tokens ++ (tree.plan tokens).insideOf tree.tokens) ++ tree.info.after := rfl

theorem Node.kind_attachComments (tree : Node) (tokens : List Cell) :
    (tree.attachComments tokens).kind = tree.kind := by
  cases tree
  rfl

/-- The nodes of a tree with the comments of its document, besides the root. -/
theorem Node.mem_listed_attachComments {inner : Node} :
    inner ∈ (tree.attachComments tokens).listed ↔ inner = tree.attachComments tokens ∨
      ∃ child ∈ tree.children.nodes, inner ∈ (child.commented (tree.plan tokens) none).listed := by
  rw [Node.mem_listed, Node.nodes_attachComments]
  simp only [List.mem_map, exists_exists_and_eq_and]

/-- Each node of a tree is still there, with all its tokens, when comments have been attached. -/
theorem Node.exists_tokens_subset {inner : Node} (tokens : List Cell) (listed : inner ∈ tree.listed) :
    ∃ node ∈ (tree.attachComments tokens).listed, inner.tokens ⊆ node.tokens := by
  rcases Node.mem_listed.1 listed with rfl | ⟨child, member, inside⟩
  · refine ⟨_, Node.mem_listed_attachComments.2 (.inl rfl), ?_⟩
    cases inner
    exact List.subset_append_left _ _
  · obtain ⟨outer, here⟩ := Node.listed_commented (tree.plan tokens) none inside
    refine ⟨_, Node.mem_listed_attachComments.2 (.inr ⟨child, member, here⟩), ?_⟩
    rw [Node.tokens_commented]
    exact List.subset_append_left _ _

/-- A tree over the tokens of a document, the last of which it owns. -/
structure Node.Over (tree : Node) (tokens : List Cell) : Prop where
  separate : tree.Separate
  bare : tree.Bare
  numbered : tokens.map Cell.index = List.range tokens.length
  owned : ∀ cell ∈ tree.ownedTokens, cell ∈ tokens
  plain : ∀ cell ∈ tree.ownedTokens, cell.kind ≠ .comment
  ended : ∀ last ∈ tokens.getLast?, last.index ∈ tree.marks

/-- Whether a node below the root starts at a mark. -/
def Node.starts (tree : Node) (tokens : List Cell) (mark : Nat) : Bool :=
  (CommentPlan.marked tokens.length (tree.children.outlines.all.map (·.first))).getD mark false

/-- Whether a node below the root ends at a mark. -/
def Node.ends (tree : Node) (tokens : List Cell) (mark : Nat) : Bool :=
  (CommentPlan.marked tokens.length (tree.children.outlines.all.map (·.last))).getD mark false

theorem Node.Over.planned (covers : tree.Over tokens) : CommentPlan.Planned tree.marks
    (tree.starts tokens) (tree.ends tokens) tokens.length (tree.plan tokens)
    (tokens.filter Cell.isComment) :=
  CommentPlan.ofDocument_planned tree.children.outlines covers.numbered covers.owned covers.ended

theorem Node.mem_of_starts {mark : Nat} (starts : tree.starts tokens mark) :
    ∃ child ∈ tree.children.nodes, mark ∈ child.outline.all.map Bounds.first := by
  obtain ⟨-, listed⟩ := CommentPlan.getD_marked.1 starts
  rwa [Children.all_outlines, List.map_flatMap, List.mem_flatMap] at listed

theorem Node.mem_of_ends {mark : Nat} (ends : tree.ends tokens mark) :
    ∃ child ∈ tree.children.nodes, mark ∈ child.outline.all.map Bounds.last := by
  obtain ⟨-, listed⟩ := CommentPlan.getD_marked.1 ends
  rwa [Children.all_outlines, List.map_flatMap, List.mem_flatMap] at listed

/-- Comments at one end of nodes are all taken, if there is a node below the root for each. -/
theorem takes_none_perm {side : Bounds → Nat} (isEnd : IsEnd side) (separate : tree.Separate)
    (comments : Array (List Cell)) (found : ∀ mark, comments.getD mark [] ≠ [] →
      ∃ child ∈ tree.children.nodes, mark ∈ child.outline.all.map side) :
    ((tree.children.nodes.flatMap (Node.takes side none)).flatMap (comments.getD · [])).Perm
      comments.toList.flatten := by
  obtain ⟨-, children, -, below⟩ := separate
  have spec := fun child member => takes_spec isEnd (below child member) (around_none child)
  refine flatMap_getD_perm comments (nodup_takes isEnd children (fun child member => (spec child member).1)
    fun child member mark listed => (((spec child member).2 mark).1 listed).1) fun mark filled => ?_
  obtain ⟨child, member, listed⟩ := found mark filled
  exact List.mem_flatMap.2 ⟨child, member, ((spec child member).2 mark).2 ⟨listed, nofun⟩⟩

/-- The nodes of the tree hold its tokens and all comments of the document, each once. -/
theorem held_attachComments (covers : tree.Over tokens) : (tree.attachComments tokens).held.Perm
    (tree.ownedTokens ++ tokens.filter Cell.isComment) := by
  have planned := covers.planned
  obtain ⟨rootBefore, rootAfter⟩ := covers.bare tree (Node.mem_listed.2 (.inl rfl))
  have inside : (tree.places.flatMap ((tree.plan tokens).inside.getD · [])).Perm
      (tree.plan tokens).inside.toList.flatten := by
    refine flatMap_getD_perm _ covers.separate.nodup_places fun mark filled => ?_
    obtain ⟨cell, listed⟩ := List.exists_mem_of_ne_nil _ filled
    cases planned.goes (.inside mark) cell listed with
    | inside next => exact places_of_marks next.listed
  have before := takes_none_perm isEnd_first covers.separate (tree.plan tokens).before fun mark filled => by
    obtain ⟨cell, listed⟩ := List.exists_mem_of_ne_nil _ filled
    cases planned.goes (.before mark) cell listed with
    | before _ starts => exact Node.mem_of_starts starts
  have after := takes_none_perm isEnd_last covers.separate (tree.plan tokens).after fun mark filled => by
    obtain ⟨cell, listed⟩ := List.exists_mem_of_ne_nil _ filled
    cases planned.goes (.after mark) cell listed with
    | after _ ends => exact Node.mem_of_ends ends
  have children : ((tree.attachComments tokens).children.nodes.flatMap Node.held).Perm
      (tree.children.nodes.flatMap Node.ownedTokens ++
        tree.children.nodes.flatMap (brought (tree.plan tokens) none)) := by
    rw [Node.nodes_attachComments, List.flatMap_map]
    refine (List.Perm.flatMap_left _ fun child member =>
      held_commented (tree.plan tokens) (covers.bare.below member) none).trans ?_
    exact (List.flatMap_append_perm ..).symm
  refine (Node.held_perm _).trans ?_
  rw [Node.places_eq, List.flatMap_append] at inside
  rw [Node.holds_attachComments, rootBefore, rootAfter, Node.ownedTokens_eq, List.perm_iff_count]
  intro cell
  have own := (insideOf_perm (tree.plan tokens) tree.tokens).count_eq cell
  have one := inside.count_eq cell
  have two := before.count_eq cell
  have three := after.count_eq cell
  have four := children.count_eq cell
  have five := (flatMap_brought_perm (tree.plan tokens) none tree.children.nodes).count_eq cell
  have all := planned.whole.count_eq cell
  simp only [CommentPlan.contents, List.count_append, List.count_nil] at own one two three four five all ⊢
  omega

end

end TolerantParser
