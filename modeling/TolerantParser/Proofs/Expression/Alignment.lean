import TolerantParser.Parser.Expression.Parameters
import TolerantParser.Proofs.Expression.Nested

/-!
Which parameter a hint or a default is for. One entry of a parameter list names a parameter and says in marked parts
what it is (`Introduces`); however many entries are added, each list that is kept goes on telling which part is
written behind which parameter (`Aligned`).
-/

namespace TolerantParser

/-! ### Lists that grow -/

namespace ParameterList

/-- All parameters of the list, be they starred or not. -/
def parameters (list : ParameterList) : List Node :=
  list.args.toList ++ (list.star.map Prod.fst).toList ++ list.keywordOnly.toList ++
    (list.doubleStar.map Prod.fst).toList

/-- Each hint and each default in the list is related to the parameter that the list has it for. -/
structure Relates (R : TokenKind → Node → Node → Prop) (list : ParameterList) : Prop where
  hints : Columns (R .colon) list.args.toList list.hints.toList
  defaults : ∃ own, Columns (R .equal) list.args.toList own ∧ list.defaults.toList = own.filterMap id
  keywordHints : Columns (R .colon) list.keywordOnly.toList list.keywordHints.toList
  keywordDefaults : Columns (R .equal) list.keywordOnly.toList list.keywordDefaults.toList
  starHint : ∀ pair ∈ list.star, ∀ hint ∈ pair.2, R .colon pair.1 hint
  doubleStarHint : ∀ pair ∈ list.doubleStar, ∀ hint ∈ pair.2, R .colon pair.1 hint

variable {R S : TokenKind → Node → Node → Prop} {list : ParameterList} {node : Node} {hint default : Option Node}

theorem columns_push {R : Node → Node → Prop} {nodes : Array Node} {parts : Array (Option Node)} {part? : Option Node}
    (columns : Columns R nodes.toList parts.toList) (last : ∀ part ∈ part?, R node part) :
    Columns R (nodes.push node).toList (parts.push part?).toList := by
  rw [Array.toList_push, Array.toList_push]
  exact List.rel_append columns (.cons last .nil)

theorem relates_empty : Relates R .empty :=
  ⟨.nil, ⟨[], .nil, rfl⟩, .nil, .nil, nofun, nofun⟩

namespace Relates

theorem mono (relates : Relates R list)
    (goes : ∀ {mark parameter part}, R mark parameter part → S mark parameter part) : Relates S list := by
  obtain ⟨own, columns, same⟩ := relates.defaults
  exact {
    hints := relates.hints.imp fun _ _ there part given => goes (there part given)
    defaults := ⟨own, columns.imp fun _ _ there part given => goes (there part given), same⟩
    keywordHints := relates.keywordHints.imp fun _ _ there part given => goes (there part given)
    keywordDefaults := relates.keywordDefaults.imp fun _ _ there part given => goes (there part given)
    starHint := fun pair member part there => goes (relates.starHint pair member part there)
    doubleStarHint := fun pair member part there => goes (relates.doubleStarHint pair member part there) }

theorem add (relates : Relates R list) (hinted : ∀ part ∈ hint, R .colon node part)
    (defaulted : ∀ part ∈ default, R .equal node part) : Relates R (list.add node hint default) := by
  obtain ⟨own, columns, same⟩ := relates.defaults
  refine { relates with hints := columns_push relates.hints hinted, defaults := ⟨own ++ [default], ?_, ?_⟩ }
  · rw [show (list.add node hint default).args.toList = list.args.toList ++ [node] from Array.toList_push]
    exact List.rel_append columns (.cons defaulted .nil)
  · cases default <;> simp [ParameterList.add, same]

theorem addKeywordOnly (relates : Relates R list) (hinted : ∀ part ∈ hint, R .colon node part)
    (defaulted : ∀ part ∈ default, R .equal node part) : Relates R (list.addKeywordOnly node hint default) :=
  { relates with
    keywordHints := columns_push relates.keywordHints hinted
    keywordDefaults := columns_push relates.keywordDefaults defaulted }

theorem star (relates : Relates R list) (hinted : ∀ part ∈ hint, R .colon node part) :
    Relates R { list with star := some (node, hint) } :=
  { relates with
    starHint := fun pair member part there => by
      obtain rfl := Option.some.inj member
      exact hinted part there }

theorem doubleStar (relates : Relates R list) (hinted : ∀ part ∈ hint, R .colon node part) :
    Relates R { list with doubleStar := some (node, hint) } :=
  { relates with
    doubleStarHint := fun pair member part there => by
      obtain rfl := Option.some.inj member
      exact hinted part there }

end Relates

end ParameterList

/-! ### Entries -/

/-- The pieces name the parameter, and its hint and its default stand behind it if they are there. -/
structure Introduces (node : Node) (hint default : Option Node) (qs : List Piece) : Prop where
  here : node ∈ nodesOf qs
  hint : ∀ part ∈ hint, Behind .colon [node] qs node part
  default : ∀ part ∈ default, Behind .equal [node] qs node part

theorem Parser.Announced.behind {mark : TokenKind} {part? : Option Node} {run : List Cell} {qs : List Piece}
    (announced : Announced mark part? qs) (node : Node) (filled : run ≠ []) (middle : List Piece) :
    ∀ part ∈ part?, Behind mark [node] (.node node run :: (middle ++ qs)) node part := by
  intro part there
  cases announced with
  | nothing => cases there
  | @marked cell _ span kind filled' =>
    obtain rfl := Option.some.inj there
    exact ⟨[], run, middle, cell, span, [], rfl, kind, filled, filled', by simp⟩

/-- A parameter, its hint and its default, behind whatever comes first. -/
theorem introduces_of_announced {hint default : Option Node} {run : List Cell} {qs qs' : List Piece}
    (node : Node) (front : List Piece) (filled : run ≠ []) (hinted : Parser.Announced .colon hint qs)
    (defaulted : Parser.Announced .equal default qs') :
    Introduces node hint default (front ++ [.node node run] ++ qs ++ qs') where
  here := by simp
  hint part there := by
    have behind : Behind .colon [node] _ node part :=
      (hinted.behind node filled [] part there).around front qs' fun _ same => .inr (.inl same)
    simpa using behind
  default part there := by
    have behind : Behind .equal [node] _ node part :=
      (defaulted.behind node filled qs part there).prepend front fun _ => .inr
    simpa using behind

/-! ### What has been read -/

/-- Of what has been read, each hint and each default in the list is written behind the parameter that the list has
it for. -/
structure Aligned (list : ParameterList) (ps : List Piece) : Prop where
  made : list.parameters ⊆ nodesOf ps
  relates : list.Relates fun mark => Behind mark list.parameters ps

namespace Aligned

variable {list grown : ParameterList} {node : Node} {hint default : Option Node} {ps qs : List Piece}

theorem empty : Aligned .empty [] :=
  ⟨List.nil_subset _, ParameterList.relates_empty⟩

/-- Whatever else is around what has been read makes no difference. -/
theorem around (aligned : Aligned list ps) (qs rs : List Piece) : Aligned list (qs ++ ps ++ rs) where
  made := fun other member => by simp [aligned.made member]
  relates := aligned.relates.mono fun behind => behind.around qs rs fun _ member => .inr (.inl member)

theorem append (aligned : Aligned list ps) (qs : List Piece) : Aligned list (ps ++ qs) := aligned.around [] qs

/-- One more parameter is behind all the others, and what belongs to it comes last. -/
theorem grow (aligned : Aligned list ps) (introduces : Introduces node hint default qs)
    (parameters : ∀ other ∈ grown.parameters, other ∈ list.parameters ∨ other = node)
    (relates : ∀ {R : TokenKind → Node → Node → Prop}, list.Relates R → (∀ part ∈ hint, R .colon node part) →
      (∀ part ∈ default, R .equal node part) → grown.Relates R) : Aligned grown (ps ++ qs) := by
  have all : ∀ other ∈ grown.parameters, other ∈ list.parameters ∨ other ∈ nodesOf qs := fun other member =>
    (parameters other member).imp_right fun new => by rw [new]; exact introduces.here
  have comes : ∀ {mark part}, Behind mark [node] qs node part → Behind mark grown.parameters (ps ++ qs) node part :=
    fun behind => behind.prepend ps fun other member =>
      (parameters other member).imp (fun old => aligned.made old) List.mem_singleton.2
  refine ⟨fun other member => ?_, relates (aligned.relates.mono fun behind => behind.append qs all)
    (fun part there => comes (introduces.hint part there)) fun part there => comes (introduces.default part there)⟩
  rw [nodesOf_append, List.mem_append]
  exact (all other member).imp_left fun old => aligned.made old

theorem add (aligned : Aligned list ps) (introduces : Introduces node hint default qs) :
    Aligned (list.add node hint default) (ps ++ qs) := by
  refine aligned.grow introduces (fun other member => ?_) ParameterList.Relates.add
  simp only [ParameterList.parameters, ParameterList.add, Array.toList_push, List.mem_append, List.mem_singleton]
    at member ⊢
  tauto

theorem addKeywordOnly (aligned : Aligned list ps) (introduces : Introduces node hint default qs) :
    Aligned (list.addKeywordOnly node hint default) (ps ++ qs) := by
  refine aligned.grow introduces (fun other member => ?_) ParameterList.Relates.addKeywordOnly
  simp only [ParameterList.parameters, ParameterList.addKeywordOnly, Array.toList_push, List.mem_append,
    List.mem_singleton] at member ⊢
  tauto

/-- A starred parameter takes the place of one that there was. -/
theorem star (aligned : Aligned list ps) (introduces : Introduces node hint default qs) :
    Aligned { list with star := some (node, hint) } (ps ++ qs) := by
  refine aligned.grow introduces (fun other member => ?_) fun relates hinted _ => relates.star hinted
  simp only [ParameterList.parameters, Option.map_some, Option.toList_some, List.mem_append, List.mem_singleton]
    at member ⊢
  tauto

theorem doubleStar (aligned : Aligned list ps) (introduces : Introduces node hint default qs) :
    Aligned { list with doubleStar := some (node, hint) } (ps ++ qs) := by
  refine aligned.grow introduces (fun other member => ?_) fun relates hinted _ => relates.doubleStar hinted
  simp only [ParameterList.parameters, Option.map_some, Option.toList_some, List.mem_append, List.mem_singleton]
    at member ⊢
  tauto

end Aligned

/-! ### The node for the parameters -/

section

variable (other : Role) (node? : Option Node) (entries : List (Option Node))
  (children more : List (Label × Option Node))

theorem parametersOf_append : parametersOf (children ++ more) = parametersOf children ++ parametersOf more := by
  simp [parametersOf]

theorem parametersOf_sparse : parametersOf (sparse other entries) =
    if other.isParameter then entries.filterMap id else [] := by
  have all : (entries.zipIdx.map Prod.fst).filterMap id = entries.filterMap id :=
    congrArg (List.filterMap id) (List.zipIdx_map_fst 0 entries)
  cases kind : other.isParameter with
  | true => simpa [parametersOf, sparse, List.filter_map, List.filterMap_map, Function.comp_def, kind] using all
  | false => simp [parametersOf, sparse, List.filter_map, Function.comp_def, kind]

theorem parametersOf_child? : parametersOf (child? other node?) = if other.isParameter then node?.toList else [] := by
  cases kind : other.isParameter <;> cases node? <;> simp [parametersOf, child?, child, kind]

end

namespace ParameterList

variable (list : ParameterList)

theorem entriesOf_children (role : Role) : entriesOf role list.children =
    (if .args = role then list.args.toList.map some else []) ++
    (if .defaults = role then list.defaults.toList.map some else []) ++
    (if .hints = role then list.hints.toList else []) ++
    (if .starParameter = role then (list.star.map Prod.fst).toList.map some else []) ++
    (if .starHint = role then (list.star.bind Prod.snd).toList.map some else []) ++
    (if .keywordOnly = role then list.keywordOnly.toList.map some else []) ++
    (if .keywordDefaults = role then list.keywordDefaults.toList else []) ++
    (if .keywordHints = role then list.keywordHints.toList else []) ++
    (if .doubleStarParameter = role then (list.doubleStar.map Prod.fst).toList.map some else []) ++
    (if .doubleStarHint = role then (list.doubleStar.bind Prod.snd).toList.map some else []) := by
  simp only [children, several, entriesOf_append, entriesOf_sparse, entriesOf_child?]

/-- No parameter and no default that is listed is a gap. -/
theorem rows (detail : Detail) (ps : List Piece) : Rows .parameters detail list.children ps where
  long := nofun
  keyed := nofun
  chained := nofun
  full _ := ⟨by simp [Full, list.entriesOf_children], by simp [Full, list.entriesOf_children],
    by simp [Full, list.entriesOf_children]⟩

theorem parametersOf_children : parametersOf list.children = list.parameters := by
  simp [children, several, parametersOf_append, parametersOf_sparse, parametersOf_child?, Role.isParameter, parameters]

variable {list}

/-- The node has the lists as they are. -/
theorem Relates.pairs {R : TokenKind → Node → Node → Prop} (relates : list.Relates R) : Pairs R list.children := by
  have starred : ∀ {mark : TokenKind} {starred : Option (Node × Option Node)},
      (∀ pair ∈ starred, ∀ hint ∈ pair.2, R mark pair.1 hint) → ∀ hint ∈ (starred.bind Prod.snd).toList,
        ∃ parameter ∈ (starred.map Prod.fst).toList, R mark parameter hint := by
    rintro mark (_ | ⟨parameter, hint?⟩) related hint member
    · cases member
    · exact ⟨parameter, by simp, related _ rfl hint (by simpa using member)⟩
  exact {
    hints := by simpa [nodesUnder, list.entriesOf_children] using relates.hints
    defaults := by simpa [nodesUnder, list.entriesOf_children] using relates.defaults
    keywordHints := by simpa [nodesUnder, list.entriesOf_children] using relates.keywordHints
    keywordDefaults := by simpa [nodesUnder, list.entriesOf_children] using relates.keywordDefaults
    starHint := by simpa [nodesUnder, list.entriesOf_children] using starred relates.starHint
    doubleStarHint := by simpa [nodesUnder, list.entriesOf_children] using starred relates.doubleStarHint }

end ParameterList

/-- What a node for the parameters is to have. -/
theorem Aligned.paired {list : ParameterList} {ps : List Piece} (aligned : Aligned list ps) :
    Paired list.children ps := by
  rw [Paired, list.parametersOf_children]
  exact aligned.relates.pairs

end TolerantParser
