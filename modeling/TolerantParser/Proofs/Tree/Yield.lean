import TolerantParser.Proofs.Tree.Attaching
import TolerantParser.Proofs.Tree.Runs

/-!
What a tree over a run owns of it. In a run that is in document order the parts of each node lie apart, and
besides the tokens that the tree owns the run holds only what was lost, none if no call and no parameter list
has two starred items of one sort.
-/

namespace TolerantParser

variable {spaced calm : Prop} {node : Node} {run : List Cell}

/-! ### Owned tokens -/

theorem Spans.owned_subset (spans : Spans spaced calm node run) : node.ownedTokens ⊆ run := by
  induction spans with
  | @mk node pieces parts below ih =>
    intro cell owned
    rw [Node.ownedTokens_eq, List.mem_append, List.mem_flatMap] at owned
    rcases owned with own | ⟨child, member, inside⟩
    · exact tokensOf_subset (parts.tokens.mem_iff.2 own)
    · obtain ⟨span, listed⟩ := mem_nodesOf (parts.nodes.subset member)
      exact cells_subset listed (ih child span listed inside)

theorem Spans.bare (spans : Spans spaced calm node run) : node.Bare := by
  induction spans with
  | @mk node pieces parts below ih =>
    intro inner listed
    rcases Node.mem_listed.1 listed with rfl | ⟨child, member, inside⟩
    · exact parts.bare
    · obtain ⟨span, here⟩ := mem_nodesOf (parts.nodes.subset member)
      exact ih child span here inner inside

/-- A node over something owns something. -/
theorem Spans.exists_owned (spans : Spans spaced calm node run) (filled : run ≠ []) : node.ownedTokens ≠ [] := by
  induction spans with
  | @mk node pieces parts below ih =>
    intro nothing
    rw [Node.ownedTokens_eq, List.append_eq_nil_iff, List.flatMap_eq_nil_iff] at nothing
    obtain ⟨bare, empty⟩ := nothing
    have untouched : tokensOf pieces = [] := List.perm_nil.1 (bare ▸ parts.tokens)
    -- without tokens there are no stars, so all that was made is there
    obtain ⟨lost, nodes, once, -⟩ := parts.nodes
    have plain : ∀ kind : TokenKind, kind.isStar → items kind pieces = 0 := fun kind star =>
      items_plain kind star (by simp [untouched])
    obtain rfl := once.2 fun _ => ⟨by simp [plain .star rfl], by simp [plain .doubleStar rfl]⟩
    obtain ⟨cell, member⟩ := List.exists_mem_of_ne_nil _ filled
    obtain ⟨piece, listed, inside⟩ := List.mem_flatMap.1 member
    cases piece with
    | token other =>
      have own : other ∈ tokensOf pieces := List.mem_flatMap.2 ⟨_, listed, List.mem_singleton.2 rfl⟩
      rw [untouched] at own
      cases own
    | node inner span =>
      have child : inner ∈ node.children.nodes := by
        have made : inner ∈ nodesOf pieces := List.mem_flatMap.2 ⟨_, listed, List.mem_singleton.2 rfl⟩
        simpa using nodes.subset made
      exact ih inner span listed (List.ne_nil_of_mem inside) (empty inner child)

/-! ### Order -/

theorem sublist_tokensOf (pieces : List Piece) : (tokensOf pieces).Sublist (cellsOf pieces) := by
  induction pieces with
  | nil => exact List.Sublist.refl _
  | cons piece pieces ih =>
    cases piece with
    | token cell => simpa using ih
    | node inner run => simpa using ih.trans (List.sublist_append_right run _)

/-- The places of the tokens of a piece. -/
def Piece.places (piece : Piece) : List Nat := piece.cells.map Cell.index

theorem apart_of_lt {piece next : Piece}
    (before : ∀ cell ∈ piece.cells, ∀ other ∈ next.cells, cell.index < other.index) :
    Apart piece.places next.places := by
  refine .inl fun place first other second => ?_
  obtain ⟨cell, listed, rfl⟩ := List.mem_map.1 first
  obtain ⟨later, among, rfl⟩ := List.mem_map.1 second
  exact before cell listed later among

/-- In a run in document order any two pieces lie apart. -/
theorem apart_pieces {pieces : List Piece} (sorted : (cellsOf pieces).Pairwise (·.index < ·.index)) :
    ∀ piece ∈ pieces, ∀ other ∈ pieces, piece = other ∨ Apart piece.places other.places := by
  have order := (List.pairwise_flatMap.1 sorted).2
  exact List.Pairwise.forall_of_forall_of_flip (fun _ _ => .inl rfl)
    (order.imp fun before => .inr (apart_of_lt before))
    (order.imp fun before => .inr (apart_of_lt before).symm)

theorem Spans.separate (spans : Spans spaced calm node run) (sorted : run.Pairwise (·.index < ·.index)) :
    node.Separate := by
  induction spans with
  | @mk node pieces parts below ih =>
    have within : ∀ inner span, .node inner span ∈ pieces →
        inner.places ⊆ (Piece.node inner span).places :=
      fun inner span member => List.map_subset _ (below inner span member).owned_subset
    refine .mk ?_ ?_ (fun cell own child member => ?_) fun child member => ?_
    · have nodup : ((tokensOf pieces).map Cell.index).Nodup :=
        List.pairwise_map.2 ((sorted.sublist (sublist_tokensOf pieces)).imp Nat.ne_of_lt)
      exact (parts.tokens.map _).nodup_iff.1 nodup
    · obtain ⟨lost, nodes, -⟩ := parts.nodes
      have apart : (nodesOf pieces).Pairwise fun a b => Apart a.places b.places := by
        refine List.pairwise_flatMap.2 ⟨fun piece _ => ?_, ?_⟩
        · cases piece with
          | token => exact List.Pairwise.nil
          | node => exact List.pairwise_singleton _ _
        · refine (List.pairwise_flatMap.1 sorted).2.imp_of_mem fun {p q} first second before a one b two => ?_
          cases p with
          | token => cases one
          | node inner span =>
            cases q with
            | token => cases two
            | node other run =>
              obtain rfl := List.mem_singleton.1 one
              obtain rfl := List.mem_singleton.1 two
              exact (apart_of_lt before).subset (within _ _ first) (within _ _ second)
      exact (List.pairwise_append.1 (nodes.pairwise apart Apart.symm)).1
    · have listed := parts.tokens.mem_iff.2 own
      obtain ⟨piece, among, owned⟩ := List.mem_flatMap.1 listed
      obtain ⟨span, here⟩ := mem_nodesOf (parts.nodes.subset member)
      cases piece with
      | node => cases owned
      | token other =>
        obtain rfl := List.mem_singleton.1 owned
        rcases apart_pieces sorted _ among _ here with same | apart
        · cases same
        · exact apart.subset (List.Subset.refl _) (within _ _ here)
    · obtain ⟨span, here⟩ := mem_nodesOf (parts.nodes.subset member)
      exact ih child span here ((List.pairwise_flatMap.1 sorted).1 _ here)

end TolerantParser
