import Mathlib.Data.List.Forall2
import TolerantParser.Proofs.Tree.Pieces

/-!
Parameters with what is written behind them. A hint or a default stands behind a mark of its own, and this behind the
parameter it is for, with no other parameter of the list between them (`Behind`). `Paired` says so of all the lists
that a node for parameters has.
-/

namespace TolerantParser

/-! ### One parameter -/

/-- Among the pieces the part stands behind a mark and the mark behind the parameter. All others are in front of the
parameter or behind the part. -/
def Behind (mark : TokenKind) (others : List Node) (pieces : List Piece) (parameter part : Node) : Prop :=
  ∃ front run middle cell span back,
    pieces = front ++ .node parameter run :: (middle ++ .token cell :: .node part span :: back) ∧
    cell.kind = mark ∧ run ≠ [] ∧ span ≠ [] ∧
    ∀ other ∈ others, other ∈ nodesOf front ∨ other = parameter ∨ other ∈ nodesOf back

section

variable {mark : TokenKind} {others wider : List Node} {ps qs : List Piece} {parameter part : Node}

/-- Pieces around those there were hold what has come to the others. -/
theorem Behind.around (behind : Behind mark others qs parameter part) (ps rs : List Piece)
    (more : ∀ other ∈ wider, other ∈ nodesOf ps ∨ other ∈ others ∨ other ∈ nodesOf rs) :
    Behind mark wider (ps ++ qs ++ rs) parameter part := by
  obtain ⟨front, run, middle, cell, span, back, rfl, kind, filled, filled', apart⟩ := behind
  refine ⟨ps ++ front, run, middle, cell, span, back ++ rs, by simp, kind, filled, filled', fun other member => ?_⟩
  rw [nodesOf_append, nodesOf_append, List.mem_append, List.mem_append]
  rcases more other member with early | here | late
  · exact .inl (.inl early)
  · exact (apart other here).imp .inr (Or.imp_right .inl)
  · exact .inr (.inr (.inr late))

theorem Behind.append (behind : Behind mark others ps parameter part) (qs : List Piece)
    (more : ∀ other ∈ wider, other ∈ others ∨ other ∈ nodesOf qs) :
    Behind mark wider (ps ++ qs) parameter part := by
  simpa using behind.around [] qs fun other member => .inr (more other member)

theorem Behind.prepend (behind : Behind mark others qs parameter part) (ps : List Piece)
    (more : ∀ other ∈ wider, other ∈ nodesOf ps ∨ other ∈ others) :
    Behind mark wider (ps ++ qs) parameter part := by
  simpa using behind.around ps [] fun other member => (more other member).imp_right .inl

end

/-! ### Lists of parameters -/

/-- Of two columns, what there is in the second is related to what stands beside it in the first. -/
def Columns (R : Node → Node → Prop) : List Node → List (Option Node) → Prop :=
  List.Forall₂ fun parameter part? => ∀ part ∈ part?, R parameter part

/-- The children that are parameters. -/
def Role.isParameter : Role → Bool
  | .args | .starParameter | .keywordOnly | .doubleStarParameter => true
  | _ => false

/-- The entries under a role, gaps included. -/
def entriesOf (role : Role) (children : List (Label × Option Node)) : List (Option Node) :=
  (children.filter (·.1.role == role)).map Prod.snd

/-- The nodes under a role. -/
def nodesUnder (role : Role) (children : List (Label × Option Node)) : List Node :=
  (entriesOf role children).filterMap id

/-- All parameters, be they starred or not. -/
def parametersOf (children : List (Label × Option Node)) : List Node :=
  (children.filter (·.1.role.isParameter)).filterMap Prod.snd

section

variable (role other : Role) (node : Node) (node? : Option Node) (nodes : List Node) (entries : List (Option Node))
  (children more : List (Label × Option Node))

theorem entriesOf_append : entriesOf role (children ++ more) = entriesOf role children ++ entriesOf role more := by
  simp [entriesOf]

theorem entriesOf_sparse : entriesOf role (sparse other entries) = if other = role then entries else [] := by
  have all : (entries.zipIdx.map Prod.fst) = entries := List.zipIdx_map_fst 0 entries
  by_cases same : other = role
  · simp [entriesOf, sparse, List.filter_map, Function.comp_def, same, all]
  · simp [entriesOf, sparse, List.filter_map, Function.comp_def, same]

theorem entriesOf_several : entriesOf role (several other nodes) = if other = role then nodes.map some else [] := by
  rw [several, entriesOf_sparse]

theorem entriesOf_child? : entriesOf role (child? other node?) = if other =
    role then node?.toList.map some else [] := by
  by_cases same : other = role <;> cases node? <;> simp [entriesOf, child?, child, same]

theorem entriesOf_child : entriesOf role (child other node) = if other = role then [some node] else [] :=
  entriesOf_child? role other (some node)

end

/-- Every hint and every default is related to the parameter that it is for. The defaults of parameters that may be
given by place are listed without gaps: they belong to some of those parameters, in their order. -/
structure Pairs (R : TokenKind → Node → Node → Prop) (children : List (Label × Option Node)) : Prop where
  hints : Columns (R .colon) (nodesUnder .args children) (entriesOf .hints children)
  defaults : ∃ own, Columns (R .equal) (nodesUnder .args children) own ∧
    nodesUnder .defaults children = own.filterMap id
  keywordHints : Columns (R .colon) (nodesUnder .keywordOnly children) (entriesOf .keywordHints children)
  keywordDefaults : Columns (R .equal) (nodesUnder .keywordOnly children) (entriesOf .keywordDefaults children)
  starHint : ∀ hint ∈ nodesUnder .starHint children, ∃ parameter ∈ nodesUnder .starParameter children,
    R .colon parameter hint
  doubleStarHint : ∀ hint ∈ nodesUnder .doubleStarHint children, ∃ parameter ∈ nodesUnder .doubleStarParameter children,
    R .colon parameter hint

/-- The children under the same labels, each changed. -/
def mapParts (f : Node → Node) (children : List (Label × Option Node)) : List (Label × Option Node) :=
  children.map fun part => (part.1, part.2.map f)

section

variable (f : Node → Node) (role : Role) (children : List (Label × Option Node))

theorem entriesOf_mapParts : entriesOf role (mapParts f children) = (entriesOf role children).map (Option.map f) := by
  simp [entriesOf, mapParts, List.filter_map, Function.comp_def]

theorem nodesUnder_mapParts : nodesUnder role (mapParts f children) = (nodesUnder role children).map f := by
  simp [nodesUnder, entriesOf_mapParts, List.filterMap_map, List.map_filterMap]

theorem parametersOf_mapParts : parametersOf (mapParts f children) = (parametersOf children).map f := by
  simp [parametersOf, mapParts, List.filter_map, List.filterMap_map, List.map_filterMap, Function.comp_def]

end

section

variable {f : Node → Node} {R S : TokenKind → Node → Node → Prop} {children : List (Label × Option Node)}

theorem Columns.map {R S : Node → Node → Prop} {nodes : List Node} {parts : List (Option Node)}
    (columns : Columns R nodes parts) (goes : ∀ {parameter part}, R parameter part → S (f parameter) (f part)) :
    Columns S (nodes.map f) (parts.map (Option.map f)) := by
  rw [Columns, List.forall₂_map_left_iff, List.forall₂_map_right_iff]
  refine columns.imp fun parameter part? there part given => ?_
  obtain ⟨bare, among, rfl⟩ := Option.map_eq_some_iff.1 given
  exact goes (there bare among)

theorem Pairs.map (pairs : Pairs R children)
    (goes : ∀ {mark parameter part}, R mark parameter part → S mark (f parameter) (f part)) :
    Pairs S (mapParts f children) := by
  obtain ⟨own, columns, same⟩ := pairs.defaults
  refine ⟨?_, ?_, ?_, ?_, fun hint member => ?_, fun hint member => ?_⟩
  · simpa only [nodesUnder_mapParts, entriesOf_mapParts] using pairs.hints.map goes
  · refine ⟨own.map (Option.map f), by simpa only [nodesUnder_mapParts] using columns.map goes, ?_⟩
    simp [nodesUnder_mapParts, same, List.filterMap_map, List.map_filterMap]
  · simpa only [nodesUnder_mapParts, entriesOf_mapParts] using pairs.keywordHints.map goes
  · simpa only [nodesUnder_mapParts, entriesOf_mapParts] using pairs.keywordDefaults.map goes
  · rw [nodesUnder_mapParts] at member ⊢
    obtain ⟨bare, among, rfl⟩ := List.mem_map.1 member
    obtain ⟨parameter, listed, related⟩ := pairs.starHint bare among
    exact ⟨f parameter, List.mem_map_of_mem listed, goes related⟩
  · rw [nodesUnder_mapParts] at member ⊢
    obtain ⟨bare, among, rfl⟩ := List.mem_map.1 member
    obtain ⟨parameter, listed, related⟩ := pairs.doubleStarHint bare among
    exact ⟨f parameter, List.mem_map_of_mem listed, goes related⟩

theorem Pairs.mono (pairs : Pairs R children)
    (goes : ∀ {mark parameter part}, R mark parameter part → S mark parameter part) : Pairs S children := by
  have same : mapParts id children = children := by simp [mapParts]
  exact same ▸ pairs.map (f := id) goes

end

theorem mem_of_entriesOf {role : Role} {node : Node} (member : some node ∈ entriesOf role children) :
    node ∈ children.filterMap Prod.snd := by
  obtain ⟨part, listed, same⟩ := List.mem_map.1 member
  exact List.mem_filterMap.2 ⟨part, List.mem_of_mem_filter listed, same⟩

theorem mem_of_nodesUnder {role : Role} {node : Node} (member : node ∈ nodesUnder role children) :
    node ∈ children.filterMap Prod.snd := by
  obtain ⟨entry, listed, rfl⟩ := List.mem_filterMap.1 member
  exact mem_of_entriesOf listed

theorem Columns.among {R : Node → Node → Prop} {nodes : List Node} {parts : List (Option Node)}
    (columns : Columns R nodes parts) :
    Columns (fun parameter part => R parameter part ∧ parameter ∈ nodes ∧ some part ∈ parts) nodes parts := by
  induction columns with
  | nil => exact .nil
  | @cons parameter part? nodes parts there rest ih =>
    refine .cons (fun part given => ⟨there part given, by simp, by simp [Option.mem_def.1 given]⟩) ?_
    refine ih.imp fun other other? all part given => ?_
    obtain ⟨related, listed, among⟩ := all part given
    exact ⟨related, List.mem_cons_of_mem _ listed, List.mem_cons_of_mem _ among⟩

/-- Only children are related. -/
theorem Pairs.among (pairs : Pairs R children) : Pairs (fun mark parameter part => R mark parameter part ∧
    parameter ∈ children.filterMap Prod.snd ∧ part ∈ children.filterMap Prod.snd) children := by
  have both : ∀ {mark role other}, Columns (R mark) (nodesUnder role children) (entriesOf other children) →
      Columns (fun parameter part => R mark parameter part ∧ parameter ∈ children.filterMap Prod.snd ∧
        part ∈ children.filterMap Prod.snd) (nodesUnder role children) (entriesOf other children) :=
    fun columns => columns.among.imp fun _ _ all part given =>
      (all part given).imp_right (And.imp mem_of_nodesUnder mem_of_entriesOf)
  obtain ⟨own, columns, same⟩ := pairs.defaults
  refine ⟨both pairs.hints, ⟨own, ?_, same⟩, both pairs.keywordHints, both pairs.keywordDefaults, fun hint member => ?_,
    fun hint member => ?_⟩
  · refine columns.among.imp fun _ _ all part given => (all part given).imp_right
      (And.imp mem_of_nodesUnder fun among => ?_)
    have default : part ∈ own.filterMap id := List.mem_filterMap.2 ⟨some part, among, rfl⟩
    exact mem_of_nodesUnder (same ▸ default)
  · obtain ⟨parameter, listed, related⟩ := pairs.starHint hint member
    exact ⟨parameter, listed, related, mem_of_nodesUnder listed, mem_of_nodesUnder member⟩
  · obtain ⟨parameter, listed, related⟩ := pairs.doubleStarHint hint member
    exact ⟨parameter, listed, related, mem_of_nodesUnder listed, mem_of_nodesUnder member⟩

/-- Each hint and each default is written behind the parameter that it is for. -/
def Paired (children : List (Label × Option Node)) (pieces : List Piece) : Prop :=
  Pairs (fun mark => Behind mark (parametersOf children) pieces) children

/-- Pieces around those of the parameters make no difference. -/
theorem Paired.around {children : List (Label × Option Node)} {pieces : List Piece} (paired : Paired children pieces)
    (ps rs : List Piece) : Paired children (ps ++ pieces ++ rs) :=
  paired.mono fun behind => behind.around ps rs fun _ member => .inr (.inl member)

end TolerantParser
