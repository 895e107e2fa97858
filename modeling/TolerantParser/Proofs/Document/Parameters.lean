import Mathlib.Data.List.ReduceOption
import TolerantParser.Proofs.Document.Closers
import TolerantParser.Proofs.Document.Outermost

/-!
Parameters and what is written for them. Whatever errors a text has, each hint and each default that a list of
parameters has stands behind a mark of its own, and this behind the parameter that it is for, before any other one.
The defaults of parameters that may be given by place are kept without gaps, and the parser does not ask that those
parameters be the last ones: counted from the end, defaults and parameters agree if and only if no parameter without
a default comes behind one with a default.
-/

namespace TolerantParser

open TokenStream (significant)

/-! ### Columns and gaps -/

section

variable {R : Node → Node → Prop} {nodes : List Node} {own : List (Option Node)}

theorem Columns.forall₂ (columns : Columns R nodes own) (full : ∀ part ∈ own, part.isSome) :
    List.Forall₂ R nodes (own.filterMap id) := by
  induction columns with
  | nil => exact .nil
  | @cons parameter part? nodes own there rest ih =>
    obtain ⟨part, rfl⟩ := Option.isSome_iff_exists.1 (full part? (by simp))
    exact .cons (there part rfl) (ih fun other member => full other (by simp [member]))

theorem isSome_of_length {own : List (Option Node)} (all : (own.filterMap id).length = own.length) :
    ∀ part ∈ own, part.isSome := by
  rw [List.length_filterMap_eq_countP, List.countP_eq_length] at all
  exact all

/-- If the first parameter has a part of its own, the parts are those of the last parameters only if all have one. -/
theorem Columns.forall₂_drop_cons_iff {parameter part : Node} (columns : Columns R nodes own) (here : R parameter part)
    (fresh : parameter ∉ nodes) (one : ∀ {a}, a ∈ nodes → R a part → a = parameter) :
    List.Forall₂ R ((parameter :: nodes).drop ((parameter :: nodes).length - (part :: own.filterMap id).length))
      (part :: own.filterMap id) ↔ ∀ next ∈ own, next.isSome := by
  constructor
  · intro tail
    refine isSome_of_length ?_
    by_contra differs
    have shorter := List.length_filterMap_le id own
    have same := columns.length_eq
    have later : (parameter :: nodes).length - (part :: own.filterMap id).length =
        nodes.length - (own.filterMap id).length - 1 + 1 := by
      simp only [List.length_cons]
      omega
    rw [later, List.drop_succ_cons] at tail
    cases dropped : nodes.drop (nodes.length - (own.filterMap id).length - 1) with
    | nil =>
      rw [dropped] at tail
      cases tail
    | cons other _ =>
      rw [dropped] at tail
      cases tail with
      | cons first _ =>
        have member : other ∈ nodes := List.mem_of_mem_drop (dropped ▸ List.mem_cons_self)
        exact fresh (one member first ▸ member)
  · intro full
    have length := (columns.forall₂ full).length_eq
    rw [List.length_cons, List.length_cons, length, Nat.sub_self, List.drop_zero]
    exact .cons here (columns.forall₂ full)

/-- What belongs to some of the parameters belongs to the last of them if and only if there is no gap behind the first
part. -/
theorem Columns.forall₂_drop_iff (columns : Columns R nodes own) (nodup : nodes.Nodup)
    (one : ∀ {a b part}, a ∈ nodes → b ∈ nodes → R a part → R b part → a = b) :
    List.Forall₂ R (nodes.drop (nodes.length - (own.filterMap id).length)) (own.filterMap id) ↔
      own.Pairwise fun part next => part.isSome → next.isSome := by
  induction columns with
  | nil => simp
  | @cons parameter part? nodes own there rest ih =>
    obtain ⟨fresh, nodup⟩ := List.nodup_cons.1 nodup
    cases part? with
    | none =>
      have shorter := List.length_filterMap_le id own
      have same := rest.length_eq
      have later : (parameter :: nodes).length - (own.filterMap id).length =
          nodes.length - (own.filterMap id).length + 1 := by
        rw [List.length_cons]
        omega
      rw [List.filterMap_cons_none rfl, later, List.drop_succ_cons, List.pairwise_cons,
        ih nodup fun one' two => one (by simp [one']) (by simp [two])]
      simp
    | some part =>
      have given : (some part :: own).filterMap id = part :: own.filterMap id := rfl
      rw [given, Columns.forall₂_drop_cons_iff rest (there part rfl) fresh fun member related =>
        one (by simp [member]) (by simp) related (there part rfl), List.pairwise_cons]
      refine ⟨fun full => ⟨fun next member _ => full next member, ?_⟩,
        fun ordered next member => ordered.1 next member rfl⟩
      exact List.Pairwise.imp_of_mem (fun _ member _ _ => full _ member) (List.pairwise_of_forall fun _ _ => trivial)

end

/-! ### Nodes for parameters -/

variable {spaced calm : Prop} {node tree : Node} {run : List Cell} {mark : TokenKind} {parameter part : Node}

/-- The part is written for the parameter: behind it and a mark of the node's own, and before any other parameter
that comes later. -/
structure Node.Announces (node : Node) (mark : TokenKind) (parameter part : Node) : Prop where
  marked : ∃ cell ∈ node.tokens, cell.kind = mark ∧ parameter.EndsBefore cell ∧ part.ComesBehind cell
  filled : part.ownedTokens ≠ []
  apart : ∀ other ∈ parametersOf node.children.toList, other.Before parameter ∨ other = parameter ∨ part.Before other

/-- What the parameters of a list have is written for them, and none of them is empty. -/
structure Node.WellPaired (node : Node) : Prop where
  pairs : Pairs node.Announces node.children.toList
  filled : ∀ parameter ∈ parametersOf node.children.toList, parameter.ownedTokens ≠ []

theorem parametersOf_subset (children : Children) : parametersOf children.toList ⊆ children.nodes := by
  rw [Children.nodes_eq_filterMap]
  exact List.filterMap_subset _ (List.filter_subset_self _)

/-! ### Trees without comments -/

theorem before_of_append {ps qs : List Piece} {next : Node}
    (spans : ∀ inner span, .node inner span ∈ ps ++ qs → Spans spaced calm inner span)
    (sorted : (cellsOf (ps ++ qs)).Pairwise (·.index < ·.index)) (early : node ∈ nodesOf ps)
    (late : next ∈ nodesOf qs) :
    node.Before next := by
  obtain ⟨rest, there⟩ := mem_nodesOf late
  intro cell owned other also
  have here := (spans next rest (List.mem_append_right _ there)).owned_subset also
  exact endsBefore_of_append (fun inner span member => spans inner span (List.mem_append_left _ member)) sorted early
    (cells_subset there here) cell owned

theorem Parts.announces {pieces : List Piece} (parts : Parts spaced calm node pieces)
    (below : ∀ inner span, .node inner span ∈ pieces → Spans spaced calm inner span)
    (sorted : (cellsOf pieces).Pairwise (·.index < ·.index))
    (behind : Behind mark (parametersOf node.children.toList) pieces parameter part) :
    node.Announces mark parameter part := by
  obtain ⟨front, run, middle, cell, span, back, split, kind, -, filled, apart⟩ := behind
  have own : cell ∈ node.tokens := parts.tokens.mem_iff.1 (by simp [split])
  have atMark : pieces = (front ++ .node parameter run :: middle) ++ .token cell :: .node part span :: back := by
    simpa using split
  have atBack : pieces = (front ++ .node parameter run :: (middle ++ [.token cell, .node part span])) ++ back := by
    simpa using split
  refine ⟨⟨cell, own, kind, ?_, ?_⟩, (below part span (by simp [split])).exists_owned filled, fun other member =>
    (apart other member).imp (fun early => ?_) (Or.imp_right fun late => ?_)⟩
  · rw [atMark] at below sorted
    exact endsBefore_of_front (fun inner rest early => below inner rest (List.mem_append_left _ early)) sorted (by simp)
  · rw [atMark] at below sorted
    exact comesBehind_of_back
      (fun inner rest late => below inner rest (List.mem_append_right _ (List.mem_cons_of_mem _ late))) sorted (by simp)
  · exact before_of_append (split ▸ below) (split ▸ sorted) early (by simp)
  · exact before_of_append (atBack ▸ below) (atBack ▸ sorted) (by simp) late

theorem Parts.wellPaired {pieces : List Piece} (parts : Parts spaced calm node pieces)
    (below : ∀ inner span, .node inner span ∈ pieces → Spans spaced calm inner span)
    (sorted : (cellsOf pieces).Pairwise (·.index < ·.index)) (same : node.kind = .parameters) : node.WellPaired where
  pairs := Pairs.mono (parts.paired same) (parts.announces below sorted)
  filled parameter member := by
    obtain ⟨span, here⟩ := mem_nodesOf (parts.nodes.subset (parametersOf_subset _ member))
    exact (below parameter span here).exists_owned ((parts.starred (same ▸ rfl)).filled _ here)

theorem Spans.wellPaired (spans : Spans spaced calm tree run) (sorted : run.Pairwise (·.index < ·.index)) :
    ∀ node ∈ tree.listed, node.kind = .parameters → node.WellPaired := by
  induction spans with
  | @mk tree pieces parts below ih =>
    intro node listed same
    rcases Node.mem_listed.1 listed with rfl | ⟨child, member, inside⟩
    · exact parts.wellPaired below sorted same
    · obtain ⟨span, here⟩ := mem_nodesOf (parts.nodes.subset member)
      exact ih child span here ((List.pairwise_flatMap.1 sorted).1 _ here) node inside same

/-! ### Trees with comments -/

section

variable {plan : CommentPlan} {markings : Markings}

theorem Node.owned_commented (plan : CommentPlan) (around : Option Bounds) (filled : node.ownedTokens ≠ []) :
    (node.commented plan around).ownedTokens ≠ [] := by
  obtain ⟨cell, owned⟩ := List.exists_mem_of_ne_nil _ filled
  exact List.ne_nil_of_mem (Node.mem_ownedTokens_commented.2 (.inl owned))

theorem Node.WellPaired.commented (wellPaired : node.WellPaired) (hangs : Hangs markings plan)
    (fits : Fits markings node)
    (sided : Sided markings node) (around : Option Bounds) : (node.commented plan around).WellPaired := by
  have parts : (node.commented plan around).children.toList =
      mapParts (Node.commented plan node.bounds) node.children.toList := Node.toList_commented ..
  have below : ∀ child ∈ node.children.nodes, Fits markings child ∧ Sided markings child := fun child member =>
    ⟨fits.below member, sided.below member⟩
  have before : ∀ {child next}, child ∈ node.children.nodes → next ∈ node.children.nodes → child.Before next →
      (child.commented plan node.bounds).Before (next.commented plan node.bounds) := fun {child next} one two inOrder =>
    inOrder.commented hangs (below child one).1 (below child one).2 (below next two).1 (below next two).2 _
  constructor
  · rw [parts]
    refine wellPaired.pairs.among.map fun {mark parameter part} ⟨announces, child, among⟩ => ?_
    rw [← Children.nodes_eq_filterMap] at child among
    obtain ⟨cell, own, kind, ends, behind⟩ := announces.marked
    refine ⟨⟨cell, ?_, kind, ends.commented hangs (below parameter child).1 (below parameter child).2 _,
      behind.commented hangs (below part among).1 (below part among).2 _⟩, Node.owned_commented plan _ announces.filled,
      fun other member => ?_⟩
    · rw [Node.tokens_commented]
      exact List.mem_append_left _ own
    · rw [parts, parametersOf_mapParts] at member
      obtain ⟨bare, listed, rfl⟩ := List.mem_map.1 member
      have inside := parametersOf_subset _ listed
      exact (announces.apart bare listed).imp (before inside child) (Or.imp (congrArg _) (before among inside))
  · rw [parts, parametersOf_mapParts]
    exact List.forall_mem_map.2 fun parameter member => Node.owned_commented plan _ (wellPaired.filled parameter member)

end

/-! ### Documents -/

theorem Node.Before.not_before {next : Node} (before : node.Before next) (filled : node.ownedTokens ≠ [])
    (filled' : next.ownedTokens ≠ []) : ¬ next.Before node := by
  obtain ⟨cell, owned⟩ := List.exists_mem_of_ne_nil _ filled
  obtain ⟨other, also⟩ := List.exists_mem_of_ne_nil _ filled'
  exact fun back => Nat.lt_asymm (before cell owned other also) (back other also cell owned)

/-- What is written for a parameter comes behind it. -/
theorem Node.Announces.before (announces : node.Announces mark parameter part) : parameter.Before part := by
  obtain ⟨cell, -, -, ends, behind⟩ := announces.marked
  exact fun first owned last also => (ends first owned).trans (behind last also)

/-- No part is written for two parameters. -/
theorem Node.WellPaired.one (wellPaired : node.WellPaired) {other : Node} {mark' : TokenKind}
    (listed : parameter ∈ parametersOf node.children.toList) (among : other ∈ parametersOf node.children.toList)
    (announces : node.Announces mark parameter part) (announces' : node.Announces mark' other part) :
      parameter = other := by
  have filled := wellPaired.filled parameter listed
  have filled' := wellPaired.filled other among
  rcases announces.apart other among with before | same | late
  · rcases announces'.apart parameter listed with back | same | late
    · exact absurd back (before.not_before filled' filled)
    · exact same
    · exact absurd late (announces.before.not_before filled announces.filled)
  · exact same.symm
  · exact absurd late (announces'.before.not_before filled' announces.filled)

/-- What the node for some parameters tells of them. Each hint and each default is written for the parameter that it
is listed with, and for no other one. The defaults of parameters that may be given by place are those of the last of
these if and only if each parameter behind one with a default has one, too. -/
structure Node.TellsParameters (node : Node) : Prop where
  pairs : Pairs node.Announces node.children.toList
  one : ∀ {mark mark' parameter other part}, parameter ∈ parametersOf node.children.toList →
    other ∈ parametersOf node.children.toList → node.Announces mark parameter part →
      node.Announces mark' other part → parameter = other
  tail : ∀ own, Columns (node.Announces .equal) (nodesUnder .args node.children.toList) own →
    nodesUnder .defaults node.children.toList = own.reduceOption →
      let args := nodesUnder .args node.children.toList
      let defaults := nodesUnder .defaults node.children.toList
      List.Forall₂ (node.Announces .equal) (args.drop (args.length - defaults.length)) defaults ↔
        own.Pairwise fun default next => default.isSome → next.isSome

theorem nodesUnder_args_sublist (children : List (Label × Option Node)) :
    (nodesUnder .args children).Sublist (parametersOf children) := by
  have fewer : (children.filter (·.1.role == .args)).Sublist (children.filter (·.1.role.isParameter)) :=
    List.monotone_filter_right children fun part here => by
      rw [eq_of_beq here]
      rfl
  have same : nodesUnder .args children = (children.filter (·.1.role == .args)).filterMap Prod.snd := by
    rw [nodesUnder, entriesOf, List.filterMap_map]
    rfl
  exact same ▸ fewer.filterMap Prod.snd

theorem nodup_listed (nodup : tree.places.Nodup) : ∀ inner ∈ tree.listed, inner.places.Nodup := by
  induction tree using Node.of_children with
  | step tree ih =>
    intro inner listed
    rcases Node.mem_listed.1 listed with rfl | ⟨child, member, inside⟩
    · exact nodup
    · exact ih child member (CommentIndex.nodup_child nodup member) inner inside

/-- Nodes that own something are not listed twice in a tree that owns nothing twice. -/
theorem Node.WellPaired.nodup_args (wellPaired : node.WellPaired) (nodup : node.places.Nodup) :
    (nodesUnder .args node.children.toList).Nodup := by
  have sublist : (nodesUnder .args node.children.toList).Sublist node.children.nodes := by
    rw [Children.nodes_eq_filterMap]
    exact (nodesUnder_args_sublist _).trans (List.filter_sublist.filterMap _)
  rw [Node.places_eq, List.nodup_append', List.nodup_flatMap] at nodup
  have apart := nodup.2.1.2.sublist sublist
  refine apart.imp_of_mem fun {parameter other} listed _ disjoint same => ?_
  have filled := wellPaired.filled parameter ((nodesUnder_args_sublist _).subset listed)
  obtain ⟨cell, owned⟩ := List.exists_mem_of_ne_nil _ filled
  exact disjoint (List.mem_map_of_mem owned) (same ▸ List.mem_map_of_mem owned)

theorem Node.WellPaired.tells (wellPaired : node.WellPaired) (nodup : node.places.Nodup) : node.TellsParameters := by
  refine ⟨wellPaired.pairs, wellPaired.one, fun own columns same => ?_⟩
  have among := (nodesUnder_args_sublist node.children.toList).subset
  dsimp only
  rw [same]
  exact columns.forall₂_drop_iff (wellPaired.nodup_args nodup) fun one two =>
    wellPaired.one (among one) (among two)

/-- The hints and defaults of all parameters in the tree of a text are told right, but for defaults that are followed
by a parameter without one. -/
theorem Document.parameters_told (limits : Limits) (d : Dialect) (options : ParseOptions) (text : String) :
    ∃ document, Document.ofText? limits d options text = .ok document ∧
      ∀ node ∈ document.tree.listed, node.kind = .parameters → node.TellsParameters := by
  obtain ⟨document, parses, parsed⟩ := Document.ofText?_ok limits d options text
  obtain ⟨tree, lost, kept⟩ := parsed.kept
  have sorted : (significant document.tokens).Pairwise (·.index < ·.index) :=
    (pairwise_index parsed.numbered).sublist List.filter_sublist
  refine ⟨document, parses, fun node listed kind => ?_⟩
  rw [kept.attached] at listed
  have nodup := nodup_listed kept.covers.nodup_places node listed
  rcases Node.mem_listed_attachComments.1 listed with rfl | ⟨child, member, inside⟩
  · rw [Node.kind_attachComments, kept.root] at kind
    cases kind
  · obtain ⟨bare, here, outer, rfl⟩ := Node.mem_listed_commented inside
    obtain ⟨fits, sided⟩ := (kept.covers.fits.below member).listed (kept.covers.sided member) bare here
    rw [Node.kind_commented] at kind
    have wellPaired := kept.spans.wellPaired sorted bare (Node.mem_listed.2 (.inr ⟨child, member, here⟩)) kind
    exact (wellPaired.commented kept.covers.hangs fits sided outer).tells nodup

end TolerantParser
