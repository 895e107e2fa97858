import TolerantParser.Proofs.Stream.Moving
import TolerantParser.Proofs.Tree.Extent
import TolerantParser.Proofs.Tree.Runs
import TolerantParser.Tree.Renumber

/-!
Trees over a finished document. Exchanging tokens for others of the same kind keeps what a node was made
of, and the tokens of a document take their places in it.
-/

namespace TolerantParser

/-! ### Exchanging tokens -/

section

variable (f : Cell → Cell)

theorem Node.info_mapTokens (node : Node) :
    (node.mapTokens f).info.kind = node.info.kind ∧ (node.mapTokens f).info.detail = node.info.detail := by
  cases node
  exact ⟨rfl, rfl⟩

theorem Node.kind_mapTokens (node : Node) : (node.mapTokens f).kind = node.kind := by
  cases node
  rfl

theorem Node.tokens_mapTokens (node : Node) : (node.mapTokens f).tokens = node.tokens.map f := by
  cases node
  rfl

theorem Node.binding_mapTokens (node : Node) : (node.mapTokens f).binding = node.binding := by
  cases node
  rfl

theorem Children.nodes_mapTokens (children : Children) :
    (children.mapTokens f).nodes = children.nodes.map (Node.mapTokens f) := by
  induction children using Children.induction with
  | nil => rfl
  | gap _ rest ih => exact ih
  | cons _ node rest ih => exact congrArg (node.mapTokens f :: ·) ih

theorem Children.toList_mapTokens (children : Children) :
    (children.mapTokens f).toList = children.toList.map fun part => (part.1, part.2.map (Node.mapTokens f)) := by
  induction children using Children.induction with
  | nil => rfl
  | gap label rest ih => exact congrArg ((label, none) :: ·) ih
  | cons label node rest ih => exact congrArg ((label, some (node.mapTokens f)) :: ·) ih

theorem Node.nodes_mapTokens (node : Node) :
    (node.mapTokens f).children.nodes = node.children.nodes.map (Node.mapTokens f) := by
  cases node with
  | mk info children => exact Children.nodes_mapTokens f children

theorem Node.ends_mapTokens (node : Node) : (node.mapTokens f).first = node.first ∧
    (node.mapTokens f).last = node.last := by
  cases node
  exact ⟨rfl, rfl⟩

theorem Node.ordered_mapTokens (node : Node) :
    (node.mapTokens f).ordered = node.ordered.map (Node.mapTokens f) :=
  Node.ordered_map (node.nodes_mapTokens f) fun child => (child.ends_mapTokens f).1

/-- Exchanging tokens moves no node. -/
theorem Node.Placed.mapTokens {node : Node} (placed : node.Placed) : (node.mapTokens f).Placed := by
  induction placed with
  | @mk node le covers apart below ih =>
    exact (Node.Placed.mk le covers apart below).map (node.nodes_mapTokens f) (node.ends_mapTokens f)
      (Node.ends_mapTokens f) ih

theorem Node.toList_mapTokens (node : Node) : (node.mapTokens f).children.toList =
    node.children.toList.map fun part => (part.1, part.2.map (Node.mapTokens f)) := by
  cases node with
  | mk info children => exact Children.toList_mapTokens f children

def Piece.map : Piece → Piece
  | .token cell => .token (f cell)
  | .node made run => .node (made.mapTokens f) (run.map f)

@[simp] theorem cellsOf_map (pieces : List Piece) :
    cellsOf (pieces.map (Piece.map f)) = (cellsOf pieces).map f := by
  induction pieces with
  | nil => rfl
  | cons piece pieces ih => cases piece <;> simp [Piece.map, ih]

@[simp] theorem tokensOf_map (pieces : List Piece) :
    tokensOf (pieces.map (Piece.map f)) = (tokensOf pieces).map f := by
  induction pieces with
  | nil => rfl
  | cons piece pieces ih => cases piece <;> simp [Piece.map, ih]

@[simp] theorem nodesOf_map (pieces : List Piece) :
    nodesOf (pieces.map (Piece.map f)) = (nodesOf pieces).map (Node.mapTokens f) := by
  induction pieces with
  | nil => rfl
  | cons piece pieces ih => cases piece <;> simp [Piece.map, ih]

end

variable {f : Cell → Cell}

theorem items_map (kind : TokenKind) {pieces : List Piece}
    (kinds : ∀ cell ∈ tokensOf pieces, (f cell).kind = cell.kind) :
    items kind (pieces.map (Piece.map f)) = items kind pieces := by
  induction pieces with
  | nil => rfl
  | cons piece pieces ih =>
    cases piece with
    | node node run => exact ih kinds
    | token cell =>
      have later := ih fun other member => kinds other (by simp [member])
      have first : (nodesOf ((pieces.map (Piece.map f)).take 1)).length =
          (nodesOf (pieces.take 1)).length := by
        rw [← List.map_take, nodesOf_map, List.length_map]
      simp only [List.map_cons, Piece.map, items, kinds cell (by simp), first, later]

theorem StarredItem.map {kind : TokenKind} {item : List Piece} (starred : StarredItem kind item)
    (kinds : ∀ cell ∈ tokensOf item, (f cell).kind = cell.kind) : StarredItem kind (item.map (Piece.map f)) := by
  obtain ⟨star, node, run, more, rfl, same, commaless⟩ := starred
  refine ⟨f star, node.mapTokens f, run.map f, more.map (Piece.map f), rfl, ?_, ?_⟩
  · rw [kinds star (by simp), same]
  · rw [tokensOf_map]
    refine List.forall_mem_map.2 fun cell member => ?_
    rw [kinds cell (by simp [member])]
    exact commaless cell member

theorem Superseded.map {pieces : List Piece} {node : Node} (superseded : Superseded pieces node)
    (kinds : ∀ cell ∈ tokensOf pieces, (f cell).kind = cell.kind) :
    Superseded (pieces.map (Piece.map f)) (node.mapTokens f) := by
  obtain ⟨kind, before, item, between, next, after, rfl, star, first, second, member⟩ := superseded
  refine ⟨kind, before.map (.map f), item.map (.map f), between.map (.map f), next.map (.map f), after.map (.map f),
    by simp, star,
    first.map fun cell own => kinds cell (by simp [own]), second.map fun cell own => kinds cell (by simp [own]), ?_⟩
  rw [nodesOf_map]
  exact List.mem_map_of_mem member

theorem EndsPlain.map {pieces : List Piece} (plain : EndsPlain pieces)
    (kinds : ∀ cell ∈ tokensOf pieces, (f cell).kind = cell.kind) :
    EndsPlain (pieces.map (Piece.map f)) := by
  intro cell last
  rw [List.getLast?_map, Option.map_eq_some_iff] at last
  obtain ⟨piece, last, same⟩ := last
  cases piece with
  | node => cases same
  | token other =>
    obtain rfl := Piece.token.inj same
    rw [kinds other (List.mem_flatMap.2 ⟨_, List.mem_of_getLast? last, by simp [Piece.own]⟩)]
    exact plain other last

theorem map_kind_eq {cells : List Cell} (kinds : ∀ cell ∈ cells, (f cell).kind = cell.kind) :
    (cells.map f).map (·.kind) = cells.map (·.kind) := by
  rw [List.map_map]
  exact List.map_congr_left kinds

theorem Fenced.map {pieces : List Piece} (fenced : Fenced pieces)
    (kinds : ∀ cell ∈ tokensOf pieces, (f cell).kind = cell.kind) : Fenced (pieces.map (Piece.map f)) := by
  rintro ⟨cell, member, paren⟩
  rw [tokensOf_map] at member
  obtain ⟨own, listed, rfl⟩ := List.mem_map.1 member
  obtain ⟨first, rest, rfl, opens⟩ := fenced ⟨own, listed, kinds own listed ▸ paren⟩
  exact ⟨f first, rest.map (Piece.map f), rfl, (kinds first (by simp)).trans opens⟩

theorem Groups.map {kind : NodeKind} {detail : Detail} {parts : List (Label × Option Node)}
    (groups : Groups kind detail parts)
    (kinds : ∀ part ∈ parts, ∀ operand ∈ part.2, ∀ cell ∈ operand.tokens, (f cell).kind = cell.kind) :
    Groups kind detail (parts.map fun part => (part.1, part.2.map (Node.mapTokens f))) := by
  intro part member operand there
  obtain ⟨before, listed, rfl⟩ := List.mem_map.1 member
  obtain ⟨bare, given, rfl⟩ := Option.map_eq_some_iff.1 there
  rw [Node.binding_mapTokens]
  refine (groups before listed bare given).imp_left fun ⟨loose, cell, own, paren⟩ => ?_
  refine ⟨Node.kind_mapTokens f bare ▸ loose, f cell, ?_, (kinds before listed bare given cell own).trans paren⟩
  rw [Node.tokens_mapTokens]
  exact List.mem_map_of_mem own

theorem Sealed.map {closer : TokenKind} {pieces : List Piece} (sealed : Sealed closer pieces)
    (kinds : ∀ cell ∈ tokensOf pieces, (f cell).kind = cell.kind) : Sealed closer (pieces.map (Piece.map f)) := by
  refine List.pairwise_map.2 (sealed.imp_of_mem fun {piece later} member _ ends => ?_)
  rintro ⟨cell, own, same⟩
  cases piece with
  | node => cases own
  | token other =>
    obtain rfl := List.mem_singleton.1 own
    have listed : other ∈ tokensOf pieces := List.mem_flatMap.2 ⟨_, member, List.mem_singleton.2 rfl⟩
    have nothing := ends ⟨other, List.mem_singleton.2 rfl, (kinds other listed).symm.trans same⟩
    cases later with
    | token => rfl
    | node => cases nothing

theorem Contained.map {kind : NodeKind} {parts : List (Label × Option Node)} {pieces : List Piece}
    (contained : Contained kind parts pieces) (kinds : ∀ cell ∈ tokensOf pieces, (f cell).kind = cell.kind) :
    Contained kind (parts.map fun part => (part.1, part.2.map (Node.mapTokens f))) (pieces.map (Piece.map f)) := by
  cases contained with
  | all sealed => exact .all fun closer closes => (sealed closer closes).map kinds
  | late comprehension front back value run split sealed last name child others =>
    refine .late comprehension (front.map (Piece.map f)) (back.map (Piece.map f)) (value.mapTokens f) (run.map f)
      (by simp [split, Piece.map]) (sealed.map fun cell member => kinds cell (by simp [split, member])) (by simp [last])
      (Node.kind_mapTokens f value ▸ name) (List.mem_map_of_mem child) fun part member role node there => ?_
    obtain ⟨before, listed, rfl⟩ := List.mem_map.1 member
    obtain ⟨bare, given, rfl⟩ := Option.map_eq_some_iff.1 there
    rw [nodesOf_map]
    exact List.mem_map_of_mem (others before listed role bare given)

theorem Behind.map {mark : TokenKind} {others : List Node} {pieces : List Piece} {parameter part : Node}
    (behind : Behind mark others pieces parameter part) (kinds : ∀ cell ∈ tokensOf pieces, (f cell).kind = cell.kind) :
    Behind mark (others.map (Node.mapTokens f)) (pieces.map (Piece.map f)) (parameter.mapTokens f)
      (part.mapTokens f) := by
  obtain ⟨front, run, middle, cell, span, back, rfl, kind, filled, filled', apart⟩ := behind
  refine ⟨front.map (Piece.map f), run.map f, middle.map (Piece.map f), f cell, span.map f, back.map (Piece.map f),
    by simp [Piece.map], (kinds cell (by simp)).trans kind, by simpa using filled, by simpa using filled',
    fun other member => ?_⟩
  obtain ⟨bare, among, rfl⟩ := List.mem_map.1 member
  rw [nodesOf_map, nodesOf_map]
  exact (apart bare among).imp List.mem_map_of_mem (Or.imp (congrArg _) List.mem_map_of_mem)

theorem Paired.map {parts : List (Label × Option Node)} {pieces : List Piece} (paired : Paired parts pieces)
    (kinds : ∀ cell ∈ tokensOf pieces, (f cell).kind = cell.kind) :
    Paired (mapParts (Node.mapTokens f) parts) (pieces.map (Piece.map f)) := by
  rw [Paired, parametersOf_mapParts]
  exact Pairs.map paired fun behind => behind.map kinds

theorem filled_map {pieces : List Piece} (filled : ∀ piece ∈ pieces, piece.cells ≠ []) :
    ∀ piece ∈ pieces.map (Piece.map f), piece.cells ≠ [] := by
  refine List.forall_mem_map.2 fun piece member => ?_
  have some := filled piece member
  cases piece with
  | token => simp [Piece.map]
  | node => simpa [Piece.map] using some

theorem Spelled.map {op : String} {cells : List Cell} (spelled : Spelled op cells)
    (same : ∀ cell ∈ cells, (f cell).toToken = cell.toToken) : Spelled op (cells.map f) := by
  cases spelled with
  | one cell => exact (congrArg Token.text (same cell (by simp))) ▸ .one (f cell)
  | @notIn first second not word =>
    exact .notIn ((congrArg Token.kind (same first (by simp))).trans not)
      ((congrArg Token.kind (same second (by simp))).trans word)
  | @isNot first second word not =>
    exact .isNot ((congrArg Token.kind (same first (by simp))).trans word)
      ((congrArg Token.kind (same second (by simp))).trans not)

theorem Joins.map {pieces : List Piece} {op : String} {left right : Node} (joins : Joins pieces op left right)
    (same : ∀ cell ∈ tokensOf pieces, (f cell).toToken = cell.toToken) :
    Joins (pieces.map (Piece.map f)) op (left.mapTokens f) (right.mapTokens f) := by
  obtain ⟨front, run, cells, span, back, rfl, spelled, filled, filled'⟩ := joins
  refine ⟨front.map (Piece.map f), run.map f, cells.map f, span.map f, back.map (Piece.map f),
    by simp [Piece.map, tokenPieces], spelled.map fun cell member => same cell (by simp [member]),
    by simpa using filled, by simpa using filled'⟩

theorem Rows.map {kind : NodeKind} {detail : Detail} {parts : List (Label × Option Node)} {pieces : List Piece}
    (rows : Rows kind detail parts pieces) (same : ∀ cell ∈ tokensOf pieces, (f cell).toToken = cell.toToken) :
    Rows kind detail (mapParts (Node.mapTokens f) parts) (pieces.map (Piece.map f)) where
  long demand member := by simpa [nodesUnder_mapParts] using rows.long demand member
  keyed dict := by
    obtain ⟨keys, length, turns, filled⟩ := rows.keyed dict
    refine ⟨keys.map _, by simpa [entriesOf_mapParts] using length, ?_, filled_map filled⟩
    rw [nodesOf_map, nodesUnder_mapParts, entriesOf_mapParts, byTurns_map, turns]
  chained comparison := by
    obtain ⟨full, ops, left, told, first, between⟩ := rows.chained comparison
    refine ⟨full.map _, ops, left.mapTokens f, told, by simp [entriesOf_mapParts, first], ?_⟩
    rw [nodesUnder_mapParts, ← List.map_cons]
    exact between.map fun _ _ joins => joins.map same
  full parameters := (rows.full parameters).imp (Full.map · _) (And.imp (Full.map · _) (Full.map · _))

/-- A node over the same tokens under other numbers. -/
theorem Spans.map {spaced calm : Prop} {node : Node} {run : List Cell} (spans : Spans spaced calm node run)
    (same : ∀ cell ∈ run, (f cell).toToken = cell.toToken) :
    Spans spaced calm (node.mapTokens f) (run.map f) := by
  induction spans with
  | @mk node pieces parts below ih =>
    have kinds : ∀ cell ∈ cellsOf pieces, (f cell).kind = cell.kind := fun cell member =>
      congrArg Token.kind (same cell member)
    have own : ∀ cell ∈ tokensOf pieces, (f cell).kind = cell.kind := fun cell member =>
      kinds cell (tokensOf_subset member)
    rw [← cellsOf_map]
    refine .mk ⟨?_, ?_, ?_, fun starred => ?_, fun now => ?_, ?_, fun loose => ?_, fun now => ?_, ?_,
      fun same => ?_, ?_⟩ fun inner run member => ?_
    · cases node
      simpa [Node.mapTokens, Node.info] using parts.bare
    · rw [tokensOf_map, Node.tokens_mapTokens]
      exact parts.tokens.map f
    · obtain ⟨lost, nodes, once, superseded⟩ := parts.nodes
      refine ⟨lost.map (Node.mapTokens f), ?_, ?_, List.forall_mem_map.2 fun inner missing =>
        (superseded inner missing).map own⟩
      · rw [nodesOf_map, Node.nodes_mapTokens, ← List.map_append]
        exact nodes.map _
      · rw [List.map_eq_nil_iff, once, Node.kind_mapTokens, StarsOnce, StarsOnce, items_map _ own,
          items_map _ own]
    · rw [Node.kind_mapTokens] at starred
      have whole := parts.starred starred
      refine ⟨whole.plain.map own, filled_map whole.filled, fun now cell member => ?_⟩
      rw [cellsOf_map] at member
      obtain ⟨other, listed, rfl⟩ := List.mem_map.1 member
      rw [kinds other listed]
      exact whole.inline now other listed
    · rw [tokensOf_map, map_kind_eq own]
      exact parts.levels now
    · rw [Node.kind_mapTokens, (Node.info_mapTokens f node).2, Node.toList_mapTokens]
      refine parts.groups.map fun part listed operand there cell own => kinds cell ?_
      have child : operand ∈ node.children.nodes := by
        rw [Children.nodes_eq_filterMap]
        exact List.mem_filterMap.2 ⟨part, listed, there⟩
      obtain ⟨span, here⟩ := mem_nodesOf (parts.nodes.subset child)
      exact cells_subset here ((below operand span here).tokens_subset own)
    · rw [Node.kind_mapTokens] at loose
      exact (parts.fenced loose).map own
    · rw [Node.ordered_mapTokens, nodesOf_map]
      exact (parts.order now).map _
    · rw [Node.kind_mapTokens, Node.toList_mapTokens]
      exact parts.contained.map own
    · rw [Node.kind_mapTokens] at same
      rw [Node.toList_mapTokens]
      exact (parts.paired same).map own
    · rw [Node.kind_mapTokens, (Node.info_mapTokens f node).2, Node.toList_mapTokens]
      exact parts.rows.map fun cell member => same cell (tokensOf_subset member)
    · obtain ⟨piece, listed, made⟩ := List.mem_map.1 member
      cases piece with
      | token => cases made
      | node bare span =>
        obtain ⟨rfl, rfl⟩ := Piece.node.inj made
        refine ih bare span listed fun cell member => same cell ?_
        exact List.mem_flatMap.2 ⟨_, listed, member⟩

/-! ### Places -/

namespace Places

variable {cells : List Cell} {size : Nat}

/-- The last place that was written down for a number is the one that it has. -/
theorem getElem?_foldl_set (cells : List Cell) (start : Nat) (places : Array Nat)
    (nodup : (cells.map Cell.index).Nodup) (below : ∀ cell ∈ cells, cell.index < places.size) :
    (∀ index ∉ cells.map Cell.index, ((cells.zipIdx start).foldl (fun places (cell, place) =>
        places.setIfInBounds cell.index place) places)[index]? = places[index]?) ∧
      ∀ cell place, (cell, place) ∈ cells.zipIdx start → ((cells.zipIdx start).foldl
        (fun places (cell, place) => places.setIfInBounds cell.index place) places)[cell.index]? =
          some place := by
  induction cells generalizing start places with
  | nil => simp
  | cons first rest ih =>
    rw [List.map_cons, List.nodup_cons] at nodup
    obtain ⟨others, here⟩ := ih (start + 1) (places.setIfInBounds first.index start) nodup.2
      fun cell member => by simpa using below cell (by simp [member])
    rw [List.zipIdx_cons, List.foldl_cons]
    constructor
    · intro index absent
      rw [List.map_cons, List.mem_cons, not_or] at absent
      rw [others index absent.2, Array.getElem?_setIfInBounds_ne (Ne.symm absent.1)]
    · intro cell place member
      rw [List.mem_cons, Prod.mk.injEq] at member
      rcases member with ⟨rfl, rfl⟩ | later
      · rw [others _ nodup.1, Array.getElem?_setIfInBounds_self_of_lt (below cell (by simp))]
      · exact here cell place later

/-- What a token has become is found by its number. -/
theorem found_eq (nodup : (cells.map Cell.index).Nodup) (below : ∀ cell ∈ cells, cell.index < size)
    {cell : Cell} {place : Nat} (here : (cell, place) ∈ cells.zipIdx) :
    ((ofDocument cells size).places[cell.index]?).bind ((ofDocument cells size).tokens[·]?) =
      some (cell.renumber place) := by
  have placed : (ofDocument cells size).places[cell.index]? = some place :=
    (getElem?_foldl_set cells 0 (.replicate size 0) nodup (by simpa using below)).2 cell place here
  have listed : (ofDocument cells size).tokens[place]? = some (cell.renumber place) := by
    rw [List.mk_mem_zipIdx_iff_getElem?] at here
    simp [ofDocument, here]
  rw [placed]
  exact listed

theorem final_eq (nodup : (cells.map Cell.index).Nodup) (below : ∀ cell ∈ cells, cell.index < size)
    {cell : Cell} {place : Nat} (here : (cell, place) ∈ cells.zipIdx) :
    (ofDocument cells size).final cell = cell.renumber place := by
  rw [final, found_eq nodup below here]
  rfl

/-- Only the number of a token tells what it has become. -/
theorem final_congr (nodup : (cells.map Cell.index).Nodup) (below : ∀ cell ∈ cells, cell.index < size)
    {cell other : Cell} (member : cell ∈ cells) (same : other.index = cell.index) :
    (ofDocument cells size).final other = (ofDocument cells size).final cell := by
  obtain ⟨place, here⟩ := List.mem_iff_getElem?.1 member
  have found := found_eq nodup below (List.mk_mem_zipIdx_iff_getElem?.2 here)
  rw [final, final, same, found]
  rfl

theorem map_final_congr (nodup : (cells.map Cell.index).Nodup) (below : ∀ cell ∈ cells, cell.index < size)
    {found others : List Cell} (among : found ⊆ cells) (same : others.map Cell.index = found.map Cell.index) :
    others.map (ofDocument cells size).final = found.map (ofDocument cells size).final := by
  induction found generalizing others with
  | nil => rw [List.map_eq_nil_iff.1 same]
  | cons cell found ih =>
    cases others with
    | nil => cases same
    | cons other others =>
      obtain ⟨first, rest⟩ := List.cons.inj same
      rw [List.cons_subset] at among
      rw [List.map_cons, List.map_cons, final_congr nodup below among.1 first, ih among.2 rest]

/-- The tokens of the document are those that were parsed, under other numbers. -/
theorem tokens_eq_map_final (nodup : (cells.map Cell.index).Nodup)
    (below : ∀ cell ∈ cells, cell.index < size) :
    (ofDocument cells size).tokens.toList = cells.map (ofDocument cells size).final := by
  have firsts : cells = cells.zipIdx.map Prod.fst := by simp
  have settled : (ofDocument cells size).tokens.toList =
      cells.zipIdx.map fun (cell, place) => cell.renumber place := rfl
  rw [settled]
  conv => rhs; arg 2; rw [firsts]
  rw [List.map_map]
  refine List.map_congr_left fun pair member => ?_
  exact (final_eq nodup below (show (pair.1, pair.2) ∈ _ from member)).symm

theorem toToken_final (nodup : (cells.map Cell.index).Nodup)
    (below : ∀ cell ∈ cells, cell.index < size) {cell : Cell} (member : cell ∈ cells) :
    ((ofDocument cells size).final cell).toToken = cell.toToken := by
  obtain ⟨place, here⟩ := List.mem_iff_getElem?.1 member
  rw [final_eq nodup below (List.mk_mem_zipIdx_iff_getElem?.2 here)]
  rfl

/-- The number of a token in a document is its place. -/
theorem index_tokens (cells : List Cell) (size : Nat) :
    (ofDocument cells size).tokens.toList.map Cell.index = List.range cells.length := by
  have settled : (ofDocument cells size).tokens.toList =
      cells.zipIdx.map fun (cell, place) => cell.renumber place := rfl
  have numbers : Cell.index ∘ (fun (cell, place) => cell.renumber place : Cell × Nat → Cell) =
      Prod.snd := rfl
  rw [settled, List.map_map, numbers, List.zipIdx_map_snd, List.range_eq_range']

/-- Tokens that come one behind the other have places one behind the other. -/
theorem final_lt (nodup : (cells.map Cell.index).Nodup) (below : ∀ cell ∈ cells, cell.index < size)
    {cell next : Cell} (before : [cell.index, next.index].Sublist (cells.map Cell.index)) :
    ((ofDocument cells size).final cell).index < ((ofDocument cells size).final next).index := by
  obtain ⟨pair, sublist, numbers⟩ := List.sublist_map_iff.1 before
  have places : [cell, next].map (ofDocument cells size).final = pair.map (ofDocument cells size).final :=
    map_final_congr nodup below sublist.subset numbers
  have inOrder := (sublist.map (ofDocument cells size).final).map Cell.index
  rw [← places, ← tokens_eq_map_final nodup below, index_tokens] at inOrder
  exact List.rel_of_pairwise_cons (List.pairwise_lt_range.sublist inOrder) (List.mem_singleton.2 rfl)

end Places

end TolerantParser
