import Mathlib.Data.List.Perm.Subperm
import TolerantParser.Proofs.Stream.Moving
import TolerantParser.Proofs.Tree.Yield

/-!
Starred items, as the tokens of a document show them. A star of a call or of a parameter list that an item
follows is one behind which something stands that is not the node's own. Nothing of a run is lost but where
a node has more than one such star of one sort.
-/

namespace TolerantParser

open TokenStream (significant)

/-! ### Items -/

/-- The first token behind another one in a document that is no comment. -/
def following (tokens : List Cell) (cell : Cell) : Option Cell :=
  (tokens.drop (cell.index + 1)).find? (!·.isComment)

/-- A token of a kind that something follows on which is not the node's own. -/
def Node.opensItem (tokens : List Cell) (kind : TokenKind) (node : Node) (cell : Cell) : Bool :=
  cell.kind == kind && (following tokens cell).any fun next => !node.tokens.contains next

/-- There is at most one starred item of each sort among the arguments or parameters that the node holds. -/
def Node.StarsOnce (tokens : List Cell) (node : Node) : Prop :=
  node.kind.isStarred → node.tokens.countP (node.opensItem tokens .star) ≤ 1 ∧
    node.tokens.countP (node.opensItem tokens .doubleStar) ≤ 1

variable {tokens : List Cell}

theorem nodup_significant (numbered : tokens.map Cell.index = List.range tokens.length) :
    (significant tokens).Nodup := by
  have nodup : (tokens.map Cell.index).Nodup := numbered ▸ List.nodup_range
  exact nodup.of_map.filter _

theorem following_eq (numbered : tokens.map Cell.index = List.range tokens.length)
    {before after : List Cell} {cell : Cell} (split : significant tokens = before ++ cell :: after) :
    following tokens cell = after.head? := by
  have listed : cell ∈ significant tokens := by simp [split]
  obtain ⟨among, met⟩ := List.mem_filter.1 listed
  obtain ⟨place, inside, rfl⟩ := List.mem_iff_getElem.1 among
  have index : tokens[place].index = place := by simpa [inside] using congrArg (·[place]?) numbered
  have whole : significant tokens =
      significant (tokens.take place) ++ tokens[place] :: significant (tokens.drop (place + 1)) := by
    conv => lhs; rw [← List.take_append_drop place tokens, List.drop_eq_getElem_cons inside]
    rw [TokenStream.significant_append]
    exact congrArg _ (List.filter_cons_of_pos met)
  have nodup := nodup_significant numbered
  rw [split, List.nodup_middle, List.nodup_cons, List.mem_append, not_or] at nodup
  obtain ⟨-, -, rest⟩ := (List.append_cons_inj_of_notMem nodup.1.1 nodup.1.2).1 (split.symm.trans whole)
  rw [following, index, rest, significant, List.head?_filter]
  rfl

/-- On a token among the pieces of a node the first token of the next piece follows. -/
theorem following_piece (numbered : tokens.map Cell.index = List.range tokens.length) {front rest : List Piece}
    {cell first : Cell} {next : Piece} {before after more : List Cell}
    (within : significant tokens = before ++ cellsOf (front ++ .token cell :: next :: rest) ++ after)
    (cells : next.cells = first :: more) : following tokens cell = some first := by
  have place : significant tokens = (before ++ cellsOf front) ++ cell :: (next.cells ++ cellsOf rest ++ after) := by
    rw [within]
    simp [cellsOf]
  rw [following_eq numbered place, cells]
  rfl

/-- The tokens of a node below are not the node's own. -/
theorem not_mem_tokens_of_piece {node inner : Node} {pieces : List Piece} {run : List Cell}
    (inOrder : (cellsOf pieces).Pairwise (·.index < ·.index)) (owned : (tokensOf pieces).Perm node.tokens)
    (member : .node inner run ∈ pieces) {cell : Cell} (inside : cell ∈ run) : cell ∉ node.tokens := by
  intro mine
  obtain ⟨piece, listed, own⟩ := List.mem_flatMap.1 (owned.mem_iff.2 mine)
  cases piece with
  | node => cases own
  | token other =>
    obtain rfl := List.mem_singleton.1 own
    rcases apart_pieces inOrder _ listed _ member with same | apart
    · cases same
    · exact apart.not_mem (List.mem_singleton_self _) (List.mem_map_of_mem inside)

/-- The tokens of a part are in order as those of the whole are. -/
theorem pairwise_of_within {run before after : List Cell} (sorted : (significant tokens).Pairwise (·.index < ·.index))
    (within : significant tokens = before ++ run ++ after) : run.Pairwise (·.index < ·.index) := by
  rw [within, List.append_assoc] at sorted
  exact (List.pairwise_append.1 (List.pairwise_append.1 sorted).2.1).1

/-- The starred items that a node was made of are those that its stars show. -/
theorem items_eq (numbered : tokens.map Cell.index = List.range tokens.length)
    (sorted : (significant tokens).Pairwise (·.index < ·.index)) {node : Node} {pieces : List Piece}
    {before after : List Cell} (within : significant tokens = before ++ cellsOf pieces ++ after)
    (owned : (tokensOf pieces).Perm node.tokens) {calm : Prop} (starred : Starred calm pieces)
    {kind : TokenKind} (star : kind.isStar) :
    items kind pieces = node.tokens.countP (node.opensItem tokens kind) := by
  have inOrder := pairwise_of_within sorted within
  have upTo : ∀ front rest, pieces = front ++ rest →
      items kind rest = (tokensOf rest).countP (node.opensItem tokens kind) := by
    intro front rest
    induction rest generalizing front with
    | nil => exact fun _ => rfl
    | cons piece rest ih =>
      intro split
      have later := ih (front ++ [piece]) (by simp [split])
      cases piece with
      | node inner run => exact later
      | token cell =>
        rw [tokensOf_token, List.countP_cons, ← later, items, Nat.add_comm]
        congr 1
        by_cases here : cell.kind == kind
        · have kinds := eq_of_beq here
          -- a star is not the last piece, and what follows on it is the first token of the next piece
          cases rest with
          | nil =>
            have plain := starred.plain cell (by simp [split])
            rw [kinds, star] at plain
            cases plain
          | cons next rest =>
            have filled := starred.filled next (by simp [split])
            obtain ⟨first, more, cells⟩ := List.exists_cons_of_ne_nil filled
            have found : following tokens cell = some first := following_piece numbered (split ▸ within) cells
            have member : next ∈ pieces := by simp [split]
            cases next with
            | token other =>
              obtain rfl := (List.cons.inj cells).1
              have mine : other ∈ node.tokens := owned.mem_iff.1 (by simp [split])
              simp [Node.opensItem, found, mine]
            | node inner run =>
              obtain rfl : run = first :: more := cells
              have below := not_mem_tokens_of_piece inOrder owned member List.mem_cons_self
              simp [Node.opensItem, found, below, here]
        · simp [Node.opensItem, here]
  rw [upTo [] pieces rfl, owned.countP_eq]

/-! ### Items that were dropped -/

/-- The token is in a starred argument or parameter of the node, behind which there is another one of the same sort. -/
def Node.InSupersededItem (tokens : List Cell) (node : Node) (cell : Cell) : Prop :=
  node.kind.isStarred ∧ ∃ kind : TokenKind, kind.isStar ∧ ∃ star ∈ node.tokens, ∃ next ∈ node.tokens,
    node.opensItem tokens kind star ∧ node.opensItem tokens kind next ∧
    star.index < cell.index ∧ cell.index < next.index ∧
    ∀ other ∈ node.tokens, star.index < other.index → other.index < cell.index → other.kind ≠ .comma

/-- A node with a token in such an item has several starred items of one sort. -/
theorem Node.InSupersededItem.not_starsOnce {node : Node} {cell : Cell}
    (superseded : node.InSupersededItem tokens cell) :
    ¬ node.StarsOnce tokens := by
  obtain ⟨starred, kind, star, first, mine, next, also, opens, again, before, behind, -⟩ := superseded
  intro once
  have few : node.tokens.countP (node.opensItem tokens kind) ≤ 1 := by
    rcases isStar_iff.1 star with rfl | rfl
    · exact (once starred).1
    · exact (once starred).2
  have both : [first, next] ⊆ node.tokens.filter (node.opensItem tokens kind) := by
    simp [mine, also, opens, again]
  have apart : first ≠ next := by
    rintro rfl
    omega
  have two := ((show [first, next].Nodup by simpa using apart).subperm both).length_le
  rw [← List.countP_eq_length_filter] at two
  simp only [List.length_cons, List.length_nil] at two
  omega

section

variable {spaced calm : Prop} {node made : Node} {pieces : List Piece} {cell star : Cell}
  {before after run span : List Cell}

theorem opensItem_of_item (numbered : tokens.map Cell.index = List.range tokens.length) {front rest : List Piece}
    (within : significant tokens = before ++ cellsOf (front ++ .token star :: .node made run :: rest) ++ after)
    (inOrder : (cellsOf (front ++ .token star :: .node made run :: rest)).Pairwise (·.index < ·.index))
    (owned : (tokensOf (front ++ .token star :: .node made run :: rest)).Perm node.tokens) (filled : run ≠ []) :
    node.opensItem tokens star.kind star := by
  obtain ⟨first, more, cells⟩ := List.exists_cons_of_ne_nil filled
  have found : following tokens star = some first := following_piece numbered within cells
  have member : .node made run ∈ front ++ .token star :: .node made run :: rest := by simp
  have below := not_mem_tokens_of_piece inOrder owned member (cells.symm ▸ List.mem_cons_self)
  simp [Node.opensItem, found, below]

/-- A node stands over one run only. -/
theorem run_eq_of_mem (inOrder : (cellsOf pieces).Pairwise (·.index < ·.index))
    (below : ∀ inner run, .node inner run ∈ pieces → Spans spaced calm inner run)
    (filled : ∀ piece ∈ pieces, piece.cells ≠ []) (one : .node made run ∈ pieces) (other : .node made span ∈ pieces) :
    run = span := by
  obtain ⟨cell, owned⟩ := List.exists_mem_of_ne_nil _ ((below made run one).exists_owned (filled _ one))
  rcases apart_pieces inOrder _ one _ other with same | apart
  · exact (Piece.node.inj same).2
  · exact absurd (List.mem_map_of_mem ((below made span other).owned_subset owned))
      (apart.not_mem (List.mem_map_of_mem ((below made run one).owned_subset owned)))

/-- The tokens of the document show which items were dropped for others. -/
theorem Parts.superseded (numbered : tokens.map Cell.index = List.range tokens.length)
    (parts : Parts spaced calm node pieces) (inOrder : (cellsOf pieces).Pairwise (·.index < ·.index))
    (below : ∀ inner run, .node inner run ∈ pieces → Spans spaced calm inner run)
    (within : significant tokens = before ++ cellsOf pieces ++ after) (starred : node.kind.isStarred)
    (superseded : Superseded pieces made) (listed : .node made span ∈ pieces) (here : cell ∈ span) :
    node.InSupersededItem tokens cell := by
  have filled := (parts.starred starred).filled
  obtain ⟨kind, front, _, between, _, rest, split, sort, ⟨star, first, run, more, rfl, same, commaless⟩,
    ⟨next, second, run', more', rfl, same', -⟩, member⟩ := superseded
  have opens : ∀ ahead {star first run later}, pieces = ahead ++ .token star :: .node first run :: later →
      star.kind = kind → star ∈ node.tokens ∧ node.opensItem tokens kind star := by
    rintro ahead star first run later rfl rfl
    exact ⟨parts.tokens.mem_iff.1 (by simp),
      opensItem_of_item numbered within inOrder parts.tokens (filled (.node first run) (by simp))⟩
  obtain ⟨mine, opens₁⟩ := opens front (by simpa using split) same
  obtain ⟨also, opens₂⟩ :=
    opens (front ++ .token star :: .node first run :: (more ++ between)) (by simpa using split) same'
  -- the token is behind the first star and in front of the second
  obtain ⟨other, there⟩ := mem_nodesOf (show made ∈ nodesOf (.node first run :: more) from member)
  obtain rfl : span = other := run_eq_of_mem inOrder below filled listed (by
    rw [split]
    exact List.mem_append_left _ (List.mem_append_right _ (List.mem_cons_of_mem _ there)))
  have inside : cell ∈ cellsOf (.node first run :: more) := cells_subset there here
  rw [split, cellsOf_append, cellsOf_append] at inOrder
  obtain ⟨early, -, across⟩ := List.pairwise_append.1 inOrder
  obtain ⟨-, item, sooner⟩ := List.pairwise_append.1 early
  rw [cellsOf_token] at item sooner across
  have behind := (List.pairwise_cons.1 item).1 cell inside
  refine ⟨starred, kind, sort, star, mine, next, also, opens₁, opens₂, behind, ?_, fun token own later earlier => ?_⟩
  · exact across cell (List.mem_append_right _ (List.mem_cons_of_mem _ inside)) next (by simp)
  · have among := parts.tokens.mem_iff.2 own
    rw [split, tokensOf_append, List.mem_append, tokensOf_append, List.mem_append, tokensOf_token, List.mem_cons,
      tokensOf_node] at among
    rcases among with (before | rfl | rest) | rest
    · have := sooner token (tokensOf_subset before) star List.mem_cons_self
      omega
    · omega
    · exact commaless token rest
    · have := across cell (List.mem_append_right _ (List.mem_cons_of_mem _ inside)) token (tokensOf_subset rest)
      omega

/-- What of a run the tree over it does not own is in items that were dropped. -/
theorem Spans.superseded (numbered : tokens.map Cell.index = List.range tokens.length)
    (sorted : (significant tokens).Pairwise (·.index < ·.index)) (spans : Spans spaced calm node run)
    (within : significant tokens = before ++ run ++ after) (inside : cell ∈ run) (loose : cell ∉ node.ownedTokens) :
    ∃ inner ∈ node.listed, inner.InSupersededItem tokens cell := by
  induction spans generalizing before after with
  | @mk node pieces parts below ih =>
    obtain ⟨piece, listed, here⟩ := List.mem_flatMap.1 inside
    cases piece with
    | token other =>
      obtain rfl := List.mem_singleton.1 here
      have own : cell ∈ tokensOf pieces := List.mem_flatMap.2 ⟨_, listed, here⟩
      exact absurd (Node.owned_of_mem (parts.tokens.mem_iff.1 own)) loose
    | node made span =>
      by_cases child : made ∈ node.children.nodes
      · obtain ⟨front, rest, split⟩ := List.append_of_mem listed
        have part : significant tokens = (before ++ cellsOf front) ++ span ++ (cellsOf rest ++ after) := by
          rw [within, split]
          simp
        obtain ⟨inner, deeper, superseded⟩ :=
          ih made span listed part here fun owned => loose (Node.owned_below child owned)
        exact ⟨inner, Node.mem_listed.2 (.inr ⟨made, child, deeper⟩), superseded⟩
      · obtain ⟨lost, nodes, once, superseded⟩ := parts.nodes
        have among := nodes.mem_iff.1 (List.mem_flatMap.2 ⟨_, listed, List.mem_singleton_self _⟩)
        have missing : made ∈ lost := (List.mem_append.1 among).resolve_left child
        have starred : node.kind.isStarred := by
          by_contra plain
          exact List.ne_nil_of_mem missing (once.2 fun starred => absurd starred plain)
        exact ⟨node, Node.mem_listed.2 (.inl rfl), parts.superseded numbered (pairwise_of_within sorted within) below
          within starred (superseded made missing) listed here⟩

end

/-! ### What is lost -/

/-- What a run holds besides the tokens that the tree over it owns. -/
structure Lost (calm : Prop) (tokens : List Cell) (node : Node) (run lost : List Cell) : Prop where
  whole : run.Perm (node.ownedTokens ++ lost)
  stars : lost = [] ↔ ∀ inner ∈ node.listed, inner.StarsOnce tokens
  inline : calm → ∀ cell ∈ lost, cell.kind.isInline

theorem lost_pieces {calm : Prop} {pieces : List Piece}
    (each : ∀ inner run, .node inner run ∈ pieces → ∃ lost, Lost calm tokens inner run lost) :
    ∃ lost, (cellsOf pieces).Perm
        (tokensOf pieces ++ (nodesOf pieces).flatMap Node.ownedTokens ++ lost) ∧
      (lost = [] ↔ ∀ node ∈ nodesOf pieces, ∀ inner ∈ node.listed, inner.StarsOnce tokens) ∧
      (lost = [] → ∀ inner run, .node inner run ∈ pieces → run.Perm inner.ownedTokens) ∧
      (calm → ∀ cell ∈ lost, cell.kind.isInline) := by
  induction pieces with
  | nil => exact ⟨[], by simp, by simp, by simp, by simp⟩
  | cons piece pieces ih =>
    obtain ⟨lost, whole, stars, none, inline⟩ := ih fun inner run member =>
      each inner run (List.mem_cons_of_mem _ member)
    cases piece with
    | token cell =>
      refine ⟨lost, ?_, stars, fun nothing inner run member => ?_, inline⟩
      · simpa using whole
      · exact none nothing inner run (by simpa using member)
    | node made span =>
      obtain ⟨more, lostBelow⟩ := each made span List.mem_cons_self
      refine ⟨more ++ lost, ?_, ?_, ?_, ?_⟩
      · rw [cellsOf_node, tokensOf_node, nodesOf_node, List.flatMap_cons, List.perm_iff_count]
        intro cell
        have first := lostBelow.whole.count_eq cell
        have rest := whole.count_eq cell
        simp only [List.count_append] at first rest ⊢
        omega
      · rw [List.append_eq_nil_iff, lostBelow.stars, stars, nodesOf_node, List.forall_mem_cons]
      · intro nothing inner run member
        rw [List.append_eq_nil_iff] at nothing
        rw [List.mem_cons, Piece.node.injEq] at member
        rcases member with ⟨rfl, rfl⟩ | later
        · simpa [nothing.1] using lostBelow.whole
        · exact none nothing.2 inner run later
      · intro now cell member
        exact (List.mem_append.1 member).elim (lostBelow.inline now cell) (inline now cell)

/-- A tree over a run of a document owns all of it but for starred items, and those too where there is but
one of each sort. -/
theorem Spans.lost (numbered : tokens.map Cell.index = List.range tokens.length)
    (sorted : (significant tokens).Pairwise (·.index < ·.index)) {spaced calm : Prop} {node : Node}
    {run : List Cell} (spans : Spans spaced calm node run) {before after : List Cell}
    (within : significant tokens = before ++ run ++ after) : ∃ lost, Lost calm tokens node run lost := by
  induction spans generalizing before after with
  | @mk node pieces parts spanned ih =>
    have each : ∀ inner run, .node inner run ∈ pieces → ∃ lost, Lost calm tokens inner run lost := by
      intro inner run member
      obtain ⟨front, rest, split⟩ := List.append_of_mem member
      have inside : significant tokens =
          (before ++ cellsOf front) ++ run ++ (cellsOf rest ++ after) := by
        rw [within, split]
        simp
      exact ih inner run member inside
    obtain ⟨lost, whole, stars, none, inline⟩ := lost_pieces each
    obtain ⟨dropped, nodes, once, -⟩ := parts.nodes
    have here : (node.kind.isStarred → StarsOnce pieces) ↔ node.StarsOnce tokens := by
      refine forall_congr' fun starred => ?_
      have all := parts.starred starred
      rw [StarsOnce, items_eq numbered sorted within parts.tokens all rfl,
        items_eq numbered sorted within parts.tokens all rfl]
    have starred : dropped ≠ [] → node.kind.isStarred := fun some => by
      by_contra plain
      exact some (once.2 fun starred => absurd starred plain)
    have below : ∀ made ∈ dropped, ∃ span, .node made span ∈ pieces := fun made member =>
      mem_nodesOf (nodes.mem_iff.2 (List.mem_append_right _ member))
    refine ⟨dropped.flatMap Node.ownedTokens ++ lost, ?_, ?_, fun now cell member => ?_⟩
    · have children := nodes.flatMap_right Node.ownedTokens
      rw [Node.ownedTokens_eq, List.perm_iff_count]
      intro cell
      have all := whole.count_eq cell
      have kept := children.count_eq cell
      have own := parts.tokens.count_eq cell
      simp only [List.flatMap_append, List.count_append] at all kept own ⊢
      omega
    · rw [List.append_eq_nil_iff]
      constructor
      · rintro ⟨nothing, rfl⟩
        have noneDropped : dropped = [] := by
          by_contra some
          obtain ⟨made, member⟩ := List.exists_mem_of_ne_nil _ some
          obtain ⟨span, listed⟩ := below made member
          have same := none rfl made span listed
          rw [List.flatMap_eq_nil_iff.1 nothing made member] at same
          exact (parts.starred (starred some)).filled _ listed same.eq_nil
        intro inner listed
        rcases Node.mem_listed.1 listed with rfl | ⟨child, member, inside⟩
        · exact here.1 (once.1 noneDropped)
        · exact stars.1 rfl child (parts.nodes.subset member) inner inside
      · intro all
        have noneDropped := once.2 (here.2 (all node (Node.mem_listed.2 (.inl rfl))))
        refine ⟨by simp [noneDropped], stars.2 fun made member inner inside => ?_⟩
        have child := nodes.mem_iff.1 member
        rw [noneDropped, List.append_nil] at child
        exact all inner (Node.mem_listed.2 (.inr ⟨made, child, inside⟩))
    · rcases List.mem_append.1 member with owned | deeper
      · obtain ⟨made, among, own⟩ := List.mem_flatMap.1 owned
        obtain ⟨span, listed⟩ := below made among
        refine (parts.starred (starred (List.ne_nil_of_mem among))).inline now cell ?_
        exact cells_subset listed ((Spans.owned_subset (spanned made span listed)) own)
      · exact inline now cell deeper

end TolerantParser
