import Mathlib.Algebra.BigOperators.Ring.List
import Mathlib.Algebra.Ring.Nat
import Mathlib.Logic.Function.Basic
import TolerantParser.Proofs.Tree.Attaching

/-!
The outermost node that starts or ends at a place. By ancestry it is the one that no node around it starts or ends with
(`Node.Topmost`). An index of a tree finds it in another way: it goes over the tree with a stack of its own, children
before parents, hands the bounds of each node on to its parent, and lets what is entered later take the place of what is
there. In a tree that owns no token twice both give the same node, however deep the tree is.
-/

namespace TolerantParser

variable {node inner tree : Node} {side : Bounds → Nat} {place : Nat} {plan : CommentPlan}

/-! ### By ancestry -/

/-- A node has one of its ends, the first or the last of its tokens that count, at a place. -/
def Node.At (side : Bounds → Nat) (place : Nat) (node : Node) : Prop := node.bounds.map side = some place

/-- The node below another one that is the first on its way down to hold. -/
inductive Node.Topmost (holds : Node → Prop) : Node → Node → Prop
  | here {node : Node} (here : holds node) : Topmost holds node node
  | inside {node child inner : Node} (passed : ¬ holds node) (member : child ∈ node.children.nodes)
      (below : Topmost holds child inner) : Topmost holds node inner

/-- The outermost node below the root of a tree that has one of its ends at a place. -/
def Node.Outermost (side : Bounds → Nat) (place : Nat) (tree node : Node) : Prop :=
  ∃ child ∈ tree.children.nodes, child.Topmost (Node.At side place) node

theorem Node.Topmost.listed {holds : Node → Prop} (topmost : node.Topmost holds inner) : inner ∈ node.listed := by
  induction topmost with
  | here => exact Node.mem_listed.2 (.inl rfl)
  | inside passed member below ih => exact Node.mem_listed.2 (.inr ⟨_, member, ih⟩)

theorem Node.Topmost.holds {holds : Node → Prop} (topmost : node.Topmost holds inner) : holds inner := by
  induction topmost with
  | here here => exact here
  | inside _ _ _ ih => exact ih

theorem Node.topmost_iff {holds : Node → Prop} : node.Topmost holds inner ↔
    holds node ∧ inner = node ∨ ¬ holds node ∧ ∃ child ∈ node.children.nodes, child.Topmost holds inner := by
  constructor
  · intro topmost
    cases topmost with
    | here here => exact .inl ⟨here, rfl⟩
    | inside passed member below => exact .inr ⟨passed, _, member, below⟩
  · rintro (⟨here, rfl⟩ | ⟨passed, child, member, below⟩)
    · exact .here here
    · exact .inside passed member below

theorem Node.At.mem_sides (at_ : node.At side place) : place ∈ node.outline.all.map side := by
  obtain ⟨bounds, own, same⟩ := Option.map_eq_some_iff.1 at_
  exact TolerantParser.mem_sides.2 (.inl ⟨bounds, own, same⟩)

/-- A place is an end of some node below just when some node is the outermost of them. -/
theorem Node.exists_topmost_iff : (∃ inner, node.Topmost (Node.At side place) inner) ↔
    place ∈ node.outline.all.map side := by
  induction node using Node.of_children with
  | step node ih =>
    constructor
    · rintro ⟨inner, topmost⟩
      cases topmost with
      | here at_ => exact at_.mem_sides
      | inside _ member below => exact TolerantParser.mem_sides.2 (.inr ⟨_, member, (ih _ member).1 ⟨inner, below⟩⟩)
    · intro listed
      by_cases at_ : node.At side place
      · exact ⟨node, .here at_⟩
      rcases TolerantParser.mem_sides.1 listed with ⟨own, bounds, same⟩ | ⟨child, member, below⟩
      · exact absurd (Option.map_eq_some_iff.2 ⟨own, bounds, same⟩) at_
      · obtain ⟨inner, inside⟩ := (ih child member).2 below
        exact ⟨inner, .inside at_ member inside⟩

theorem Node.Topmost.mark (isEnd : IsEnd side) (topmost : node.Topmost (Node.At side place) inner) :
    place ∈ node.marks :=
  marks_of_sides isEnd node place (Node.exists_topmost_iff.1 ⟨inner, topmost⟩)

/-! ### By a stack -/

/-- For each place the node that owns it, and the node to be taken for one that starts or ends there. -/
structure CommentIndex where
  owners : Nat → Option Node
  starts : Nat → Option Node
  ends : Nat → Option Node

namespace CommentIndex

/-- A node with the way to it, the child numbers from the node up to the root. It is closed once its children have been
gone over. -/
structure Entry where
  path : List Nat
  node : Node
  closing : Bool

/-- The children of a node, each with the way to it. -/
def childrenOf (path : List Nat) (node : Node) : List (List Nat × Node) :=
  node.children.nodes.zipIdx.map fun (child, number) => (number :: path, child)

/-- What has been found on the way over a tree: the entries so far, and the bounds of the nodes whose parents have not
been closed. -/
structure Walk where
  index : CommentIndex
  bounds : List Nat → Option (Option Bounds)

/-- The tokens of a node. -/
def own (index : CommentIndex) (node : Node) : CommentIndex :=
  { index with
    owners := node.tokens.foldl (fun owners cell => Function.update owners cell.index (some node)) index.owners }

/-- The ends of a node. -/
def enter (index : CommentIndex) (node : Node) (bounds : Bounds) : CommentIndex :=
  { index with
    starts := Function.update index.starts bounds.first (some node)
    ends := Function.update index.ends bounds.last (some node) }

/-- Closes a node: its bounds are made of its own tokens and of what its children have left. The root is not entered. -/
def Walk.close (walk : Walk) (path : List Nat) (node : Node) : Walk :=
  let parts := (childrenOf path node).map Prod.fst
  let bounds := parts.foldl (fun bounds part => Bounds.join bounds (walk.bounds part).join)
    (Bounds.ofTokens node.tokens)
  let owned := walk.index.own node
  { index :=
      match bounds with
      | none => owned
      | some bounds => if path = [] then owned else owned.enter node bounds
    bounds := Function.update (fun part => if part ∈ parts then none else walk.bounds part) path (some bounds) }

/-- The steps that an entry of the stack takes. -/
def Entry.weight (entry : Entry) : Nat := if entry.closing then 1 else 2 * entry.node.listed.length

def weight (stack : List Entry) : Nat := (stack.map Entry.weight).sum

/-- What a node is on the stack, when it is reached first. -/
def opening (part : List Nat × Node) : Entry := ⟨part.1, part.2, false⟩

theorem weight_append (stack more : List Entry) : weight (stack ++ more) = weight stack + weight more := by
  rw [weight, List.map_append, List.sum_append]
  rfl

theorem nodes_childrenOf (path : List Nat) (node : Node) :
    (childrenOf path node).map Prod.snd = node.children.nodes := by
  rw [childrenOf, List.map_map]
  exact List.zipIdx_map_fst 0 _

theorem paths_childrenOf (path : List Nat) (node : Node) :
    (childrenOf path node).map Prod.fst = (List.range node.children.nodes.length).map (· :: path) := by
  rw [childrenOf, List.map_map, List.range_eq_range', ← List.zipIdx_map_snd, List.map_map]
  rfl

theorem weight_children (path : List Nat) (node : Node) :
    weight ((childrenOf path node).map opening).reverse + 2 = 2 * node.listed.length := by
  have each : ((childrenOf path node).map opening).map Entry.weight =
      node.children.nodes.map fun child => 2 * child.listed.length := by
    rw [← nodes_childrenOf path, List.map_map, List.map_map]
    rfl
  rw [weight, List.map_reverse, List.sum_reverse, each, node.listed_perm.length_eq, List.length_cons,
    List.length_flatMap, List.sum_map_mul_left]
  omega

/-- Goes over what is on the stack. -/
def Walk.run : List Entry → Walk → Walk
  | [], walk => walk
  | ⟨path, node, true⟩ :: rest, walk => run rest (walk.close path node)
  | ⟨path, node, false⟩ :: rest, walk =>
    run (((childrenOf path node).map opening).reverse ++ ⟨path, node, true⟩ :: rest) walk
  termination_by stack => weight stack
  decreasing_by
  · simp [weight, Entry.weight]
  · have := weight_children path node
    rw [weight_append]
    simp only [weight, List.map_cons, List.sum_cons, Entry.weight, if_true, Bool.false_eq_true, if_false] at *
    omega

/-- The index of a tree. -/
def ofTree (tree : Node) : CommentIndex :=
  (Walk.run [⟨[], tree, false⟩] ⟨⟨fun _ => none, fun _ => none, fun _ => none⟩, fun _ => none⟩).index

/-! ### What is entered -/

/-- A table where each place leads to what is found for it, or else to where it led before. -/
def Overlay (finds : Nat → Node → Prop) (old new : Nat → Option Node) : Prop :=
  ∀ place, (∀ node, finds place node → new place = some node) ∧ ((∀ node, ¬ finds place node) → new place = old place)

variable {finds more : Nat → Node → Prop} {old mid new : Nat → Option Node}

theorem Overlay.congr (overlay : Overlay finds old new) (same : ∀ place node, finds place node ↔ more place node) :
    Overlay more old new := by
  rwa [show finds = more from funext₂ fun place node => propext (same place node)] at overlay

/-- A table that was empty leads to what is found. -/
theorem Overlay.found (overlay : Overlay finds (fun _ => none) new) : new place = some node ↔ finds place node := by
  refine ⟨fun same => ?_, (overlay place).1 node⟩
  by_cases some : ∃ other, finds place other
  · obtain ⟨other, found⟩ := some
    rw [(overlay place).1 other found] at same
    exact Option.some.inj same ▸ found
  · rw [(overlay place).2 (not_exists.1 some)] at same
    cases same

/-- What is entered later counts. -/
theorem Overlay.trans (first : Overlay finds old mid) (second : Overlay more mid new) :
    Overlay (fun place node => more place node ∨ finds place node ∧ ∀ other, ¬ more place other) old new := by
  intro place
  refine ⟨fun node => ?_, fun nothing => ?_⟩
  · rintro (late | ⟨early, none⟩)
    · exact (second place).1 node late
    · rw [(second place).2 none]
      exact (first place).1 node early
  · have none : ∀ other, ¬ more place other := fun other found => nothing other (.inl found)
    rw [(second place).2 none]
    exact (first place).2 fun node found => nothing node (.inr ⟨found, none⟩)

/-- Where the two find nothing for one place, the order does not count. -/
theorem Overlay.union (first : Overlay finds old mid) (second : Overlay more mid new)
    (apart : ∀ place a b, finds place a → ¬ more place b) :
    Overlay (fun place node => finds place node ∨ more place node) old new := by
  refine (first.trans second).congr fun place node => ?_
  constructor
  · rintro (late | ⟨early, -⟩)
    · exact .inr late
    · exact .inl early
  · rintro (early | late)
    · exact .inr ⟨early, fun other => apart place node other early⟩
    · exact .inl late

theorem overlay_update (old : Nat → Option Node) (place : Nat) (node : Node) :
    Overlay (fun other found => other = place ∧ found = node) old (Function.update old place (some node)) := by
  refine fun other => ⟨?_, fun nothing => ?_⟩
  · rintro found ⟨rfl, rfl⟩
    exact Function.update_self ..
  · exact Function.update_of_ne (fun same => nothing node ⟨same, rfl⟩) ..

theorem overlay_own (node : Node) (cells : List Cell) (old : Nat → Option Node) :
    Overlay (fun place found => found = node ∧ ∃ cell ∈ cells, cell.index = place) old
      (cells.foldl (fun owners cell => Function.update owners cell.index (some node)) old) := by
  induction cells generalizing old with
  | nil => exact fun place => ⟨by simp, fun _ => rfl⟩
  | cons cell rest ih =>
    refine ((overlay_update old cell.index node).trans (ih _)).congr fun place found => ?_
    constructor
    · rintro (⟨rfl, other, member, same⟩ | ⟨⟨rfl, rfl⟩, -⟩)
      · exact ⟨rfl, other, List.mem_cons_of_mem _ member, same⟩
      · exact ⟨rfl, cell, List.mem_cons_self, rfl⟩
    · rintro ⟨rfl, other, member, rfl⟩
      by_cases later : ∃ cell ∈ rest, cell.index = other.index
      · exact .inl ⟨rfl, later⟩
      · rcases List.mem_cons.1 member with rfl | member
        · exact .inr ⟨⟨rfl, rfl⟩, fun _ found => later found.2⟩
        · exact absurd ⟨other, member, rfl⟩ later

/-- A node owns its tokens besides what is owned below it. -/
theorem Overlay.own (below : Overlay (fun place found => ∃ child ∈ node.children.nodes, found ∈ child.listed ∧
      ∃ cell ∈ found.tokens, cell.index = place) old mid) (nodup : node.places.Nodup) :
    Overlay (fun place found => ∃ inner ∈ [node], found ∈ inner.listed ∧ ∃ cell ∈ found.tokens, cell.index = place) old
      (node.tokens.foldl (fun owners cell => Function.update owners cell.index (some node)) mid) := by
  rw [Node.places_eq, List.nodup_append'] at nodup
  refine (below.union (overlay_own node node.tokens mid) ?_).congr fun place found => ?_
  · rintro place a b ⟨child, member, listed, cell, own, rfl⟩ ⟨rfl, token, owned, same⟩
    have inside := List.mem_map_of_mem (f := Cell.index) (Node.mem_ownedTokens.2 ⟨a, listed, own⟩)
    exact nodup.2.2 (List.mem_map.2 ⟨token, owned, same⟩) (List.mem_flatMap.2 ⟨child, member, inside⟩)
  · simp only [List.mem_singleton, exists_eq_left, @Node.mem_listed node]
    constructor
    · rintro (⟨child, member, listed, own⟩ | ⟨rfl, own⟩)
      · exact ⟨.inr ⟨child, member, listed⟩, own⟩
      · exact ⟨.inl rfl, own⟩
    · rintro ⟨rfl | ⟨child, member, listed⟩, own⟩
      · exact .inr ⟨rfl, own⟩
      · exact .inl ⟨child, member, listed, own⟩

/-- What an index has once some trees have been gone over, their roots included. -/
structure Indexed (nodes : List Node) (index index' : CommentIndex) : Prop where
  owners : Overlay (fun place found => ∃ node ∈ nodes, found ∈ node.listed ∧ ∃ cell ∈ found.tokens, cell.index = place)
    index.owners index'.owners
  starts : Overlay (fun place found => ∃ node ∈ nodes, node.Topmost (Node.At Bounds.first place) found)
    index.starts index'.starts
  ends : Overlay (fun place found => ∃ node ∈ nodes, node.Topmost (Node.At Bounds.last place) found)
    index.ends index'.ends

theorem Indexed.refl (index : CommentIndex) : Indexed [] index index := by
  refine ⟨fun place => ⟨?_, fun _ => rfl⟩, fun place => ⟨?_, fun _ => rfl⟩, fun place => ⟨?_, fun _ => rfl⟩⟩ <;> simp

/-- Trees that have no token in common, one after the other. -/
theorem Indexed.append {nodes later : List Node} {index index' index'' : CommentIndex}
    (first : Indexed nodes index index') (second : Indexed later index' index'')
    (apart : ∀ a ∈ nodes, ∀ b ∈ later, ∀ place ∈ a.places, place ∉ b.places) :
      Indexed (nodes ++ later) index index'' := by
  have ends : ∀ {side}, IsEnd side → ∀ place a b, (∃ node ∈ nodes, node.Topmost (Node.At side place) a) →
      ¬ ∃ node ∈ later, node.Topmost (Node.At side place) b := by
    rintro side isEnd place a b ⟨node, member, one⟩ ⟨other, among, two⟩
    exact apart node member other among place (places_of_marks (one.mark isEnd)) (places_of_marks (two.mark isEnd))
  refine ⟨(first.owners.union second.owners ?_).congr ?_,
    (first.starts.union second.starts (ends isEnd_first)).congr ?_,
    (first.ends.union second.ends (ends isEnd_last)).congr ?_⟩
  · rintro _ a b ⟨node, member, listed, cell, own, rfl⟩ ⟨other, among, also, token, owned, same⟩
    have one := List.mem_map_of_mem (f := Cell.index) (Node.mem_ownedTokens.2 ⟨a, listed, own⟩)
    have two := List.mem_map_of_mem (f := Cell.index) (Node.mem_ownedTokens.2 ⟨b, also, owned⟩)
    exact apart node member other among _ one (same ▸ two)
  all_goals
    intro place found
    simp only [List.mem_append, or_and_right, exists_or]

theorem Indexed.congr {nodes others : List Node} {index index' : CommentIndex} (indexed : Indexed nodes index index')
    (same : ∀ node, node ∈ nodes ↔ node ∈ others) : Indexed others index index' := by
  constructor
  · simpa only [same] using indexed.owners
  · simpa only [same] using indexed.starts
  · simpa only [same] using indexed.ends

/-- The ends of a node stand over those of the nodes below it. -/
theorem overlay_enter (node : Node) (side : Bounds → Nat)
    (below : Overlay
      (fun place found => ∃ child ∈ node.children.nodes, child.Topmost (Node.At side place) found) old mid) :
    Overlay (fun place found => ∃ inner ∈ [node], inner.Topmost (Node.At side place) found) old
      (match node.bounds with
        | none => mid
        | some bounds => Function.update mid (side bounds) (some node)) := by
  cases bounds : node.bounds with
  | none =>
    refine below.congr fun place found => ?_
    simp only [List.mem_singleton, exists_eq_left, @Node.topmost_iff node]
    simp [Node.At, bounds]
  | some ends =>
    refine (below.trans (overlay_update mid (side ends) node)).congr fun place found => ?_
    simp only [List.mem_singleton, exists_eq_left, @Node.topmost_iff node, Node.At, bounds, Option.map_some,
      Option.some.injEq,
      not_and, eq_comm (a := side ends)]
    exact or_congr Iff.rfl (and_comm.trans (and_congr_left fun _ =>
      ⟨fun other same => other node same rfl, fun other _ same => absurd same other⟩))

/-- A node is entered once the nodes below it are. -/
theorem Indexed.closed {index mid : CommentIndex} (nodup : node.places.Nodup)
    (below : Indexed node.children.nodes index mid) : Indexed [node] index (match node.bounds with
      | none => mid.own node
      | some bounds => (mid.own node).enter node bounds) := by
  have starts := overlay_enter node Bounds.first below.starts
  have ends := overlay_enter node Bounds.last below.ends
  have owners := below.owners.own nodup
  cases bounds : node.bounds with
  | none =>
    rw [bounds] at starts ends
    exact ⟨owners, starts, ends⟩
  | some inner =>
    rw [bounds] at starts ends
    exact ⟨owners, starts, ends⟩

/-! ### Going over a tree -/

/-- What comes to lie on a node's children's way once they have been gone over. -/
def Walk.Left (parts : List (List Nat × Node)) (walk after : Walk) : Prop :=
  (∀ part ∈ parts, after.bounds part.1 = some part.2.bounds) ∧
    ∀ path ∉ parts.map Prod.fst, after.bounds path = walk.bounds path

/-- No bounds are left for a node that is reached first, nor for those below it. -/
def Walk.Fresh (walk : Walk) (path : List Nat) : Prop := ∀ part, path <:+ part → walk.bounds part = none

/-- A node that is reached is entered with all nodes below it, and only its own bounds are left. -/
def Passes (part : List Nat × Node) : Prop :=
  ∀ rest walk, walk.Fresh part.1 → ∃ after : Walk, Walk.run (opening part :: rest) walk = Walk.run rest after ∧
    Indexed [part.2] walk.index after.index ∧ after.bounds = Function.update walk.bounds part.1 (some part.2.bounds)

/-- Nodes none of which lies below another are gone over one after the other. -/
theorem Walk.run_parts {parts : List (List Nat × Node)} (passes : ∀ part ∈ parts, Passes part)
    (beside : parts.Pairwise fun a b => ¬ b.1 <:+ a.1)
    (apart : parts.Pairwise fun a b => ∀ place ∈ a.2.places, place ∉ b.2.places)
    (rest : List Entry) (walk : Walk) (fresh : ∀ part ∈ parts, walk.Fresh part.1) :
    ∃ after : Walk, run (parts.map opening ++ rest) walk = run rest after ∧
      Indexed (parts.map Prod.snd) walk.index after.index ∧ walk.Left parts after := by
  induction parts generalizing walk with
  | nil => exact ⟨walk, rfl, .refl _, by simp [Walk.Left]⟩
  | cons first more ih =>
    rw [List.forall_mem_cons] at passes fresh
    rw [List.pairwise_cons] at beside apart
    obtain ⟨mid, runs, indexed, bounds⟩ := passes.1 (more.map opening ++ rest) walk fresh.1
    have stays : ∀ part ∈ more, mid.Fresh part.1 := by
      intro part member path below
      rw [bounds, Function.update_of_ne (by rintro rfl; exact beside.1 part member below)]
      exact fresh.2 part member path below
    obtain ⟨after, later, also, kept, other⟩ := ih passes.2 beside.2 apart.2 mid stays
    refine ⟨after, runs.trans later, indexed.append also ?_, ?_, fun path missing => ?_⟩
    · intro a one b two
      obtain ⟨part, member, rfl⟩ := List.mem_map.1 two
      rw [List.mem_singleton.1 one]
      exact apart.1 part member
    · refine List.forall_mem_cons.2 ⟨?_, kept⟩
      rw [other, bounds, Function.update_self]
      intro again
      obtain ⟨part, member, same⟩ := List.mem_map.1 again
      exact beside.1 part member (same ▸ List.suffix_rfl)
    · rw [List.map_cons, List.mem_cons, not_or] at missing
      rw [other path missing.2, bounds, Function.update_of_ne missing.1]

theorem Bounds.join_assoc (a b c : Option Bounds) :
    Bounds.join (Bounds.join a b) c = Bounds.join a (Bounds.join b c) := by
  cases a <;> cases b <;> cases c <;> simp [Bounds.join, min_assoc, max_assoc]

theorem foldl_bounds : (children : Children) → (bounds : Option Bounds) →
    children.nodes.foldl (fun bounds child => Bounds.join bounds child.bounds) bounds =
      Bounds.join bounds children.bounds
  | .nil, bounds => by cases bounds <;> rfl
  | .gap _ rest, bounds => foldl_bounds rest bounds
  | .cons _ node rest, bounds => by
    rw [Children.nodes, List.foldl_cons, foldl_bounds rest, Bounds.join_assoc]
    rfl

/-- A node is closed with its bounds. -/
theorem Walk.close_left {walk after : Walk} {path : List Nat} (left : walk.Left (childrenOf path node) after)
    (fresh : walk.Fresh path) : after.close path node =
      { index := match node.bounds with
          | none => after.index.own node
          | some bounds => if path = [] then after.index.own node else (after.index.own node).enter node bounds
        bounds := Function.update walk.bounds path (some node.bounds) } := by
  have bounds : ((childrenOf path node).map Prod.fst).foldl
      (fun bounds part => Bounds.join bounds (after.bounds part).join) (Bounds.ofTokens node.tokens) = node.bounds := by
    calc _ = (childrenOf path node).foldl (fun bounds part => Bounds.join bounds part.2.bounds)
          (Bounds.ofTokens node.tokens) := by
          rw [List.foldl_map]
          refine List.foldl_ext _ _ _ fun bounds part member => ?_
          rw [left.1 part member]
          rfl
      _ = Bounds.join (Bounds.ofTokens node.tokens) node.children.bounds := by
          rw [← foldl_bounds, ← nodes_childrenOf path, List.foldl_map]
      _ = node.bounds := by
          cases node
          rfl
  rw [Walk.close, bounds]
  refine congrArg (Walk.mk _) (funext fun part => ?_)
  by_cases here : part = path
  · rw [here, Function.update_self, Function.update_self]
  rw [Function.update_of_ne here, Function.update_of_ne here]
  split
  next below =>
    rw [paths_childrenOf] at below
    obtain ⟨number, -, rfl⟩ := List.mem_map.1 below
    exact (fresh _ (List.suffix_cons number path)).symm
  next other => exact left.2 part other

/-- The children of a node are gone over before it. -/
theorem Walk.run_children {path : List Nat} (nodup : node.places.Nodup)
    (passes : ∀ part ∈ childrenOf path node, Passes part) (rest : List Entry) (walk : Walk) (fresh : walk.Fresh path) :
    ∃ after : Walk, run (⟨path, node, false⟩ :: rest) walk = run rest (after.close path node) ∧
      Indexed node.children.nodes walk.index after.index ∧ walk.Left (childrenOf path node) after := by
  rw [Node.places_eq, List.nodup_append', List.nodup_flatMap, ← nodes_childrenOf path, List.pairwise_map] at nodup
  have beside : (childrenOf path node).Pairwise fun a b => ¬ a.1 <:+ b.1 := by
    rw [← List.pairwise_map (R := fun a b => ¬ a <:+ b), paths_childrenOf, List.pairwise_map]
    refine List.nodup_range.imp fun {a b} different below => different ?_
    have same := below.eq_of_length rfl
    exact (List.cons.inj same).1
  have inside : ∀ part ∈ (childrenOf path node).reverse, walk.Fresh part.1 := by
    intro part member way below
    have among := List.mem_map_of_mem (f := Prod.fst) (List.mem_reverse.1 member)
    rw [paths_childrenOf] at among
    obtain ⟨number, -, same⟩ := List.mem_map.1 among
    exact fresh way ((List.suffix_cons number path).trans (same ▸ below))
  obtain ⟨after, runs, indexed, kept, other⟩ := run_parts (fun part member => passes part (List.mem_reverse.1 member))
    (List.pairwise_reverse.2 beside)
    (List.pairwise_reverse.2 (nodup.2.1.2.imp fun {_ _} (apart : List.Disjoint _ _) _ one two => apart two one))
    (⟨path, node, true⟩ :: rest) walk inside
  refine ⟨after, ?_, indexed.congr fun node => ?_, fun part member => kept part (List.mem_reverse.2 member),
    fun way missing => other way ?_⟩
  · rw [run, ← List.map_reverse, runs, run]
  · rw [List.map_reverse, List.mem_reverse, nodes_childrenOf]
  · rwa [List.map_reverse, List.mem_reverse]

theorem nodup_child {child : Node} (nodup : node.places.Nodup) (member : child ∈ node.children.nodes) :
    child.places.Nodup := by
  rw [Node.places_eq, List.nodup_append', List.nodup_flatMap] at nodup
  exact nodup.2.1.1 child member

theorem passes_node (nodup : node.places.Nodup) (path : List Nat) (named : path ≠ []) : Passes (path, node) := by
  induction node using Node.of_children generalizing path with
  | step node ih =>
    intro rest walk fresh
    have below : ∀ part ∈ childrenOf path node, Passes part := by
      intro part member
      have child := List.mem_map_of_mem (f := Prod.snd) member
      have way := List.mem_map_of_mem (f := Prod.fst) member
      rw [nodes_childrenOf] at child
      rw [paths_childrenOf] at way
      obtain ⟨number, -, same⟩ := List.mem_map.1 way
      exact ih part.2 child (nodup_child nodup child) part.1 (same ▸ List.cons_ne_nil _ _)
    obtain ⟨after, runs, indexed, left⟩ := Walk.run_children nodup below rest walk fresh
    refine ⟨after.close path node, runs, ?_, ?_⟩
    · rw [Walk.close_left left fresh]
      have closed := indexed.closed nodup
      simp only [if_neg named]
      exact closed
    · rw [Walk.close_left left fresh]

/-- An index that has for each place the node of a tree that owns it and the outermost nodes that start and end
there. -/
structure Of (index : CommentIndex) (tree : Node) : Prop where
  owners : ∀ place node, index.owners place = some node ↔ node ∈ tree.listed ∧ ∃ cell ∈ node.tokens, cell.index = place
  starts : ∀ place node, index.starts place = some node ↔ tree.Outermost Bounds.first place node
  ends : ∀ place node, index.ends place = some node ↔ tree.Outermost Bounds.last place node

/-- The stack finds what there is by ancestry. -/
theorem ofTree_of (nodup : tree.places.Nodup) : (ofTree tree).Of tree := by
  have below : ∀ part ∈ childrenOf [] tree, Passes part := by
    intro part member
    have child := List.mem_map_of_mem (f := Prod.snd) member
    have way := List.mem_map_of_mem (f := Prod.fst) member
    rw [nodes_childrenOf] at child
    rw [paths_childrenOf] at way
    obtain ⟨number, -, same⟩ := List.mem_map.1 way
    exact passes_node (nodup_child nodup child) part.1 (same ▸ List.cons_ne_nil _ _)
  obtain ⟨after, runs, indexed, left⟩ := Walk.run_children nodup below []
    ⟨⟨fun _ => none, fun _ => none, fun _ => none⟩,
    fun _ => none⟩ fun _ _ => rfl
  have index : ofTree tree = after.index.own tree := by
    rw [ofTree, runs, Walk.run, Walk.close_left left fun _ _ => rfl]
    cases tree.bounds <;> rfl
  rw [index]
  refine ⟨fun place node => ?_, fun _ _ => indexed.starts.found, fun _ _ => indexed.ends.found⟩
  have owners := @Overlay.found node place _ _ (indexed.owners.own nodup)
  simp only [List.mem_singleton, exists_eq_left] at owners
  exact owners

/-! ### What is looked up -/

/-- Where the comments of a document go if what is asked on the way is looked up in an index. -/
def planOf (index : CommentIndex) (tokens : List Cell) : CommentPlan :=
  .ofPlaces (fun place => (index.owners place).isSome) (fun place => (index.starts place).isSome)
    (fun place => (index.ends place).isSome) tokens

theorem isSome_side {table : Nat → Option Node} {size : Nat} (isEnd : IsEnd side)
    (finds : ∀ place node, table place = some node ↔ tree.Outermost side place node)
    (below : ∀ place ∈ tree.places, place < size) (place : Nat) :
    (table place).isSome = (CommentPlan.marked size (tree.children.outlines.all.map side)).getD place false := by
  rw [Bool.eq_iff_iff, Option.isSome_iff_exists, CommentPlan.getD_marked, Children.all_outlines, List.map_flatMap,
    List.mem_flatMap]
  constructor
  · rintro ⟨node, found⟩
    obtain ⟨child, member, topmost⟩ := (finds place node).1 found
    have ended := Node.exists_topmost_iff.1 ⟨node, topmost⟩
    have mark := mem_marks.2 (.inr ⟨child, member, marks_of_sides isEnd child place ended⟩)
    exact ⟨below place (places_of_marks mark), child, member, ended⟩
  · rintro ⟨-, child, member, ended⟩
    obtain ⟨node, topmost⟩ := Node.exists_topmost_iff.2 ended
    exact ⟨node, (finds place node).2 ⟨child, member, topmost⟩⟩

theorem Of.isSome_owners {index : CommentIndex} {size : Nat} (of : index.Of tree)
    (below : ∀ place ∈ tree.places, place < size) (place : Nat) :
    (index.owners place).isSome = (CommentPlan.marked size (tree.ownedTokens.map (·.index))).getD place false := by
  rw [Bool.eq_iff_iff, Option.isSome_iff_exists, CommentPlan.getD_marked]
  constructor
  · rintro ⟨node, found⟩
    obtain ⟨listed, cell, own, rfl⟩ := (of.owners place node).1 found
    have owned := List.mem_map_of_mem (f := Cell.index) (Node.mem_ownedTokens.2 ⟨node, listed, own⟩)
    exact ⟨below _ owned, owned⟩
  · rintro ⟨-, owned⟩
    obtain ⟨cell, listed, rfl⟩ := List.mem_map.1 owned
    obtain ⟨node, among, own⟩ := Node.mem_ownedTokens.1 listed
    exact ⟨node, (of.owners _ node).2 ⟨among, cell, own, rfl⟩⟩

/-- Comments go where the index says. -/
theorem Of.plan_eq {index : CommentIndex} {tokens : List Cell} (of : index.Of tree)
    (below : ∀ place ∈ tree.places, place < tokens.length) : index.planOf tokens = tree.plan tokens := by
  rw [planOf, funext (of.isSome_owners below), funext (isSome_side isEnd_first of.starts below),
    funext (isSome_side isEnd_last of.ends below)]
  rfl

end CommentIndex

end TolerantParser
