import Mathlib.Data.List.Basic
import TolerantParser.Proofs.Tree.Pairs

/-!
Lists of children that belong together, and lists that are not empty. The keys and values of a dictionary come by
turns (`Keyed`), between two operands of a comparison stands its operator and nothing else (`Chained`), no parameter
is a gap, and some lists have so many nodes at least (`NodeKind.demand?`). `Rows` says so of a node and the pieces that
it is made of.
-/

namespace TolerantParser

/-! ### Kinds of nodes -/

/-- A list that a node of the kind has, and how many nodes are in it at least. -/
def NodeKind.demand? : NodeKind → Option (Role × Nat)
  | .boolean => some (.values, 2)
  | .comparison => some (.comparators, 1)
  | .assignment | .delete => some (.targets, 1)
  | .global | .nonlocal | .import => some (.names, 1)
  | .imported => some (.name, 1)
  | _ => none

/-- The nodes whose lists may be of any length and say nothing of one another. -/
def NodeKind.isFree (kind : NodeKind) : Bool := kind.demand?.isNone && kind != .dict && kind != .parameters

theorem NodeKind.demand?_of_isFree {kind : NodeKind} (free : kind.isFree) : kind.demand? = none := by
  simp only [isFree, Bool.and_eq_true] at free
  exact Option.isNone_iff_eq_none.1 free.1.1

/-! ### Lists without gaps -/

section

variable {role : Role} {children : List (Label × Option Node)}

/-- No entry under the role is a gap. -/
def Full (role : Role) (children : List (Label × Option Node)) : Prop := none ∉ entriesOf role children

theorem Full.entries (full : Full role children) : entriesOf role children = (nodesUnder role children).map some := by
  have there : ∀ entry ∈ entriesOf role children, entry.isSome := fun entry member =>
    Option.isSome_iff_ne_none.2 fun gap => full (gap ▸ member)
  rw [nodesUnder, List.map_filterMap_some_eq_filter_map_isSome, List.map_id, List.filter_eq_self.2 there]

theorem Full.length (full : Full role children) :
    (entriesOf role children).length = (nodesUnder role children).length := by
  rw [full.entries, List.length_map]

theorem full_of_entries {nodes : List Node} (entries : entriesOf role children = nodes.map some) :
    Full role children ∧ nodesUnder role children = nodes :=
  ⟨by simp [Full, entries], by simp [nodesUnder, entries, List.filterMap_map]⟩

end

/-! ### Keys and values -/

/-- The keys, each with its value behind it if there is one. -/
def byTurns (keys : List Node) (values : List (Option Node)) : List Node :=
  (keys.zip values).flatMap fun entry => entry.1 :: entry.2.toList

section

variable {R : Node → Node → Prop} {keys : List Node} {values : List (Option Node)}

theorem byTurns_concat (same : keys.length = values.length) (key : Node) (value? : Option Node) :
    byTurns (keys ++ [key]) (values ++ [value?]) = byTurns keys values ++ key :: value?.toList := by
  simp [byTurns, List.zip_append same]

theorem byTurns_perm (same : keys.length = values.length) :
    (byTurns keys values).Perm (keys ++ values.filterMap id) := by
  induction keys generalizing values with
  | nil => simp [byTurns, List.eq_nil_of_length_eq_zero same.symm]
  | cons key keys ih =>
    cases values with
    | nil => cases same
    | cons value? values =>
      have later := ih (Nat.succ.inj same)
      have split : (value? :: values).filterMap id = value?.toList ++ values.filterMap id := by cases value? <;> rfl
      show (key :: (value?.toList ++ byTurns keys values)).Perm (key :: (keys ++ (value? :: values).filterMap id))
      rw [split]
      exact ((later.append_left _).trans (List.perm_append_comm_assoc ..)).cons key

theorem byTurns_map (f : Node → Node) (keys : List Node) (values : List (Option Node)) :
    byTurns (keys.map f) (values.map (Option.map f)) = (byTurns keys values).map f := by
  have one : ∀ value? : Option Node, (value?.map f).toList = value?.toList.map f :=
    fun value? => by cases value? <;> rfl
  simp [byTurns, List.zip_map, List.map_flatMap, List.flatMap_map, one]

/-- Of nodes in order, each value comes behind its key and before the next key. -/
theorem pairwise_byTurns (inOrder : (byTurns keys values).Pairwise R) {place : Nat} {key value : Node}
    (here : keys[place]? = some key) (there : values[place]? = some (some value)) :
    R key value ∧ ∀ next, keys[place + 1]? = some next → place + 1 < values.length → R value next := by
  induction keys generalizing values place with
  | nil => cases here
  | cons first keys ih =>
    cases values with
    | nil => cases there
    | cons first? values =>
      have split : byTurns (first :: keys) (first? :: values) = first :: (first?.toList ++ byTurns keys values) := rfl
      rw [split, List.pairwise_cons, List.pairwise_append] at inOrder
      obtain ⟨behind, -, later, apart⟩ := inOrder
      cases place with
      | succ place =>
        obtain ⟨before, next⟩ := ih later (by simpa using here) (by simpa using there)
        exact ⟨before, fun other listed among => next other (by simpa using listed) (by simpa using among)⟩
      | zero =>
        obtain rfl := Option.some.inj here
        obtain rfl := Option.some.inj there
        refine ⟨behind value (by simp), fun next listed among => apart value (by simp) next ?_⟩
        obtain ⟨keys, rfl⟩ : ∃ rest, keys = next :: rest := by
          cases keys with
          | nil => simp at listed
          | cons other rest => exact ⟨rest, by simpa using listed⟩
        cases values with
        | nil => simp at among
        | cons value? values => simp [byTurns]

end

theorem Full.map {role : Role} {children : List (Label × Option Node)} (full : Full role children) (f : Node → Node) :
    Full role (mapParts f children) := by
  simpa [Full, entriesOf_mapParts] using full

/-- There is a value or a gap for each key, and what was made are the keys, each with its value behind it. -/
structure Keyed (children : List (Label × Option Node)) (pieces : List Piece) : Prop where
  keys : Full .keys children
  length : (entriesOf .values children).length = (entriesOf .keys children).length
  turns : nodesOf pieces = byTurns (nodesUnder .keys children) (entriesOf .values children)
  filled : ∀ piece ∈ pieces, piece.cells ≠ []

/-! ### Operands and operators -/

/-- The tokens are an operator of one or two words. -/
inductive Spelled : String → List Cell → Prop
  | one (cell : Cell) : Spelled cell.text [cell]
  | notIn {first second : Cell} (not : first.kind = .kwNot) (word : second.kind = .kwIn) :
      Spelled "not in" [first, second]
  | isNot {first second : Cell} (word : first.kind = .kwIs) (not : second.kind = .kwNot) :
      Spelled "is not" [first, second]

/-- Between the two operands are the tokens of the operator, and nothing else is. -/
def Joins (pieces : List Piece) (op : String) (left right : Node) : Prop :=
  ∃ front run cells span back, pieces = front ++ .node left run :: (tokenPieces cells ++ .node right span :: back) ∧
    Spelled op cells ∧ run ≠ [] ∧ span ≠ []

theorem Joins.around {pieces : List Piece} {op : String} {left right : Node} (joins : Joins pieces op left right)
    (ps rs : List Piece) : Joins (ps ++ pieces ++ rs) op left right := by
  obtain ⟨front, run, cells, span, back, rfl, spelled, filled⟩ := joins
  exact ⟨ps ++ front, run, cells, span, back ++ rs, by simp, spelled, filled⟩

/-- There is one operator for each two operands that come one behind the other. -/
structure Interposed (R : String → Node → Node → Prop) (ops : List String) (operands : List Node) : Prop where
  length : operands.length = ops.length + 1
  joins : ∀ place op left right, ops[place]? = some op → operands[place]? = some left →
    operands[place + 1]? = some right → R op left right

section

variable {R S : String → Node → Node → Prop} {ops : List String} {operands : List Node}

theorem interposed_singleton (node : Node) : Interposed R [] [node] := ⟨rfl, by simp⟩

theorem Interposed.mono (between : Interposed R ops operands)
    (goes : ∀ {op left right}, R op left right → S op left right) :
    Interposed S ops operands :=
  ⟨between.length, fun place op left right here first second => goes
    (between.joins place op left right here first second)⟩

theorem Interposed.concat {op : String} {left right : Node} (between : Interposed R ops (operands ++ [left]))
    (joins : R op left right) : Interposed R (ops ++ [op]) (operands ++ [left] ++ [right]) := by
  have length : operands.length = ops.length := by simpa using between.length
  refine ⟨by simp [length], fun place op' left' right' here first second => ?_⟩
  rcases Nat.lt_trichotomy place ops.length with early | rfl | late
  · rw [List.getElem?_append_left (by omega)] at here
    rw [List.getElem?_append_left (by simp; omega)] at first second
    exact between.joins place op' left' right' here first second
  · obtain rfl : op = op' := by simpa using here
    obtain rfl : left = left' := by simpa [← length] using first
    obtain rfl : right = right' := by simpa [← length] using second
    exact joins
  · have none : (ops ++ [op])[place]? = none := List.getElem?_eq_none (by simp; omega)
    rw [none] at here
    cases here

theorem Interposed.map {f : Node → Node} (between : Interposed R ops operands)
    (goes : ∀ {op left right}, left ∈ operands → right ∈ operands → R op left right → S op (f left) (f right)) :
    Interposed S ops (operands.map f) := by
  refine ⟨by simpa using between.length, fun place op left right here first second => ?_⟩
  rw [List.getElem?_map, Option.map_eq_some_iff] at first second
  obtain ⟨bare, one, rfl⟩ := first
  obtain ⟨other, two, rfl⟩ := second
  exact goes (List.mem_of_getElem? one) (List.mem_of_getElem? two) (between.joins place op bare other here one two)

end

/-- The detail of the node tells the operators, and each stands between its operands. -/
structure Chained (detail : Detail) (children : List (Label × Option Node)) (pieces : List Piece) : Prop where
  full : Full .comparators children
  between : ∃ ops left, detail = .comparison ops ∧ entriesOf .left children = [some left] ∧
    Interposed (Joins pieces) ops (left :: nodesUnder .comparators children)

/-- Operands with their operators, the last operand at the end of the pieces. -/
structure Chain (pieces : List Piece) (ops : List String) (operands : List Node) : Prop where
  between : Interposed (Joins pieces) ops operands
  ends : ∃ front others left run, pieces = front ++ [.node left run] ∧ run ≠ [] ∧ operands = others ++ [left]

theorem chain_singleton {left : Node} {run : List Cell} (filled : run ≠ []) : Chain [.node left run] [] [left] :=
  ⟨interposed_singleton left, [], [], left, run, rfl, filled, rfl⟩

/-- One more operator and its operand. -/
theorem Chain.concat {pieces : List Piece} {ops : List String} {operands : List Node} {op : String} {cells : List Cell}
    {right : Node} {span : List Cell} (chain : Chain pieces ops operands) (spelled : Spelled op cells)
    (filled : span ≠ []) :
    Chain (pieces ++ (tokenPieces cells ++ [.node right span])) (ops ++ [op]) (operands ++ [right]) := by
  obtain ⟨between, front, others, left, run, rfl, nonempty, rfl⟩ := chain
  have joins : Joins (front ++ [.node left run] ++ (tokenPieces cells ++ [.node right span])) op left right :=
    ⟨front, run, cells, span, [], by simp, spelled, nonempty, filled⟩
  refine ⟨(between.mono fun earlier => ?_).concat joins, _, _, right, span, (List.append_assoc ..).symm, filled, rfl⟩
  simpa using earlier.around [] (tokenPieces cells ++ [.node right span])

/-! ### Nodes -/

/-- The lists of a node's children go with one another and with what the node is made of, and they are as long as
they should be. -/
structure Rows (kind : NodeKind) (detail : Detail) (children : List (Label × Option Node)) (pieces : List Piece) :
    Prop where
  long : ∀ demand ∈ kind.demand?, demand.2 ≤ (nodesUnder demand.1 children).length
  keyed : kind = .dict → Keyed children pieces
  chained : kind = .comparison → Chained detail children pieces
  full : kind = .parameters → Full .args children ∧ Full .defaults children ∧ Full .keywordOnly children

section

variable {kind : NodeKind} {detail : Detail} {children : List (Label × Option Node)} {pieces : List Piece}

theorem Rows.free (free : kind.isFree) : Rows kind detail children pieces where
  long demand member := by
    rw [NodeKind.demand?_of_isFree free] at member
    cases member
  keyed := by
    rintro rfl
    cases free
  chained := by
    rintro rfl
    cases free
  full := by
    rintro rfl
    cases free

/-- A node of which no more is asked than that a list be long enough. -/
theorem Rows.listing {role : Role} {least : Nat} {nodes : List Node} (demands : kind.demand? = some (role, least))
    (entries : entriesOf role children = nodes.map some) (long : least ≤ nodes.length) (other : kind ≠ .comparison) :
    Rows kind detail children pieces where
  long demand member := by
    obtain rfl := Option.some.inj (demands.symm.trans member)
    rwa [(full_of_entries entries).2]
  keyed := by
    rintro rfl
    cases demands
  chained same := absurd same other
  full := by
    rintro rfl
    cases demands

theorem Rows.several {role : Role} {least : Nat} {nodes : List Node} (demands : kind.demand? = some (role, least))
    (long : least ≤ nodes.length) (other : kind ≠ .comparison) :
    Rows kind detail (TolerantParser.several role nodes) pieces :=
  .listing demands (by rw [entriesOf_several, if_pos rfl]) long other

/-- Tokens around the pieces make no difference. -/
theorem Rows.around (rows : Rows kind detail children pieces) (before after : List Cell) :
    Rows kind detail children (tokenPieces before ++ pieces ++ tokenPieces after) where
  long := rows.long
  keyed same := by
    obtain ⟨keys, length, turns, filled⟩ := rows.keyed same
    refine ⟨keys, length, by simpa using turns, ?_⟩
    exact List.forall_mem_append.2
      ⟨List.forall_mem_append.2 ⟨filled_tokenPieces before, filled⟩, filled_tokenPieces after⟩
  chained same := by
    obtain ⟨full, ops, left, told, first, between⟩ := rows.chained same
    exact ⟨full, ops, left, told, first, between.mono fun joins => joins.around _ _⟩
  full := rows.full

end

end TolerantParser
