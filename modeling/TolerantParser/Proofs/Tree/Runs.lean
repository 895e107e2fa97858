import TolerantParser.Proofs.Tree.Closers
import TolerantParser.Proofs.Tree.Rows

/-!
Nodes over runs. `Spans node run` says that the pieces of the run, in document order, are the node's own tokens and
its children and nothing else, and so all the way down.

Of several starred arguments or parameters a node keeps only the last, so there some of what was made is
`lost`. Nothing is lost as long as there is at most one starred item of each sort (`StarsOnce`).
-/

namespace TolerantParser

/-! ### Nodes over runs -/

/-- All pieces but the lost ones are children, and nothing is lost but starred items with one of their sort behind
them. -/
def Childs (kind : NodeKind) (children : List Node) (pieces : List Piece) : Prop :=
  ∃ lost, (nodesOf pieces).Perm (children ++ lost) ∧
    (lost = [] ↔ (kind.isStarred → StarsOnce pieces)) ∧ ∀ node ∈ lost, Superseded pieces node

theorem childs_of_eq {kind : NodeKind} {children : List Node} {pieces : List Piece} (nodes : nodesOf pieces = children)
    (plain : kind.isStarred = false) : Childs kind children pieces :=
  ⟨[], by simp [nodes], by simp [plain], List.forall_mem_nil _⟩

theorem Childs.subset {kind : NodeKind} {children : List Node} {pieces : List Piece}
    (childs : Childs kind children pieces) : children ⊆ nodesOf pieces := by
  obtain ⟨lost, nodes, -⟩ := childs
  exact fun child member => nodes.mem_iff.2 (List.mem_append_left _ member)

/-- Stars stand in front of something, and all pieces hold tokens of the line. -/
structure Starred (calm : Prop) (pieces : List Piece) : Prop where
  plain : EndsPlain pieces
  filled : ∀ piece ∈ pieces, piece.cells ≠ []
  inline : calm → ∀ cell ∈ cellsOf pieces, cell.kind.isInline

theorem Starred.mono {calm calmer : Prop} {pieces : List Piece} (starred : Starred calm pieces)
    (weaker : calmer → calm) :
    Starred calmer pieces :=
  ⟨starred.plain, starred.filled, fun now => starred.inline (weaker now)⟩

/-- If an opening parenthesis is among the tokens, the first piece is one. -/
def Fenced (pieces : List Piece) : Prop :=
  (∃ cell ∈ tokensOf pieces, cell.kind = .leftParen) →
    ∃ cell rest, pieces = .token cell :: rest ∧ cell.kind = .leftParen

theorem fenced_of_bare {pieces : List Piece} (bare : ∀ cell ∈ tokensOf pieces, cell.kind ≠ .leftParen) :
    Fenced pieces := fun ⟨cell, member, paren⟩ => absurd paren (bare cell member)

theorem fenced_token {cell : Cell} (paren : cell.kind = .leftParen) (rest : List Piece) :
    Fenced (.token cell :: rest) := fun _ => ⟨cell, rest, rfl, paren⟩

/-- The pieces are what the node owns and has for children. No comments hang on it yet. -/
structure Parts (spaced calm : Prop) (node : Node) (pieces : List Piece) : Prop where
  bare : node.info.before = [] ∧ node.info.after = []
  tokens : (tokensOf pieces).Perm node.tokens
  nodes : Childs node.kind node.children.nodes pieces
  starred : node.kind.isStarred → Starred calm pieces
  levels : calm → Balanced ((tokensOf pieces).map (·.kind))
  groups : Groups node.kind node.info.detail node.children.toList
  fenced : node.kind.bindsLoosely → Fenced pieces
  order : spaced → node.ordered.Sublist (nodesOf pieces)
  contained : Contained node.kind node.children.toList pieces
  paired : node.kind = .parameters → Paired node.children.toList pieces
  rows : Rows node.kind node.info.detail node.children.toList pieces

/-- The node was made of the run. `calm` is what the facts about block structure depend on, and `spaced` that what the
order of places says is what the order of the pieces says. -/
inductive Spans (spaced calm : Prop) : Node → List Cell → Prop
  | mk {node : Node} {pieces : List Piece} (parts : Parts spaced calm node pieces)
      (below : ∀ inner run, .node inner run ∈ pieces → Spans spaced calm inner run) :
      Spans spaced calm node (cellsOf pieces)

theorem Spans.tokens_subset {spaced calm : Prop} {node : Node} {run : List Cell} (spans : Spans spaced calm node run) :
    node.tokens ⊆ run := by
  cases spans with
  | mk parts _ => exact fun cell member => tokensOf_subset (parts.tokens.mem_iff.2 member)

theorem Spans.mono {spaced calm wider calmer : Prop} (further : wider → spaced) (weaker : calmer → calm) {node : Node}
    {run : List Cell} (spans : Spans spaced calm node run) : Spans wider calmer node run := by
  induction spans with
  | mk parts below ih =>
    exact .mk ⟨parts.bare, parts.tokens, parts.nodes, fun starred => (parts.starred starred).mono weaker,
      fun now => parts.levels (weaker now), parts.groups, parts.fenced,
      fun now => parts.order (further now), parts.contained, parts.paired, parts.rows⟩ ih

/-! ### Tokens given to a node that has been made -/

theorem items_tokenPieces (kind : TokenKind) (cells : List Cell) : items kind (tokenPieces cells) = 0 := by
  induction cells with
  | nil => rfl
  | cons cell cells ih =>
    have nothing : nodesOf ((tokenPieces cells).take 1) = [] := by cases cells <;> rfl
    have later : items kind (tokenPieces cells) = 0 := ih
    simp only [tokenPieces, List.map_cons, items] at nothing later ⊢
    simp [nothing, later]

/-- Tokens in front of a node and behind it can be its own as well. -/
theorem Spans.surround {spaced calm : Prop} {node : Node} {run : List Cell} (spans : Spans spaced calm node run)
    (before after cells : List Cell) (given : cells.Perm (before ++ after))
    (plain : calm → ∀ cell ∈ before ++ after, cell.kind.isLayout = false)
    (stars : node.kind.isStarred → EndsPlain (tokenPieces before) ∧ EndsPlain (tokenPieces after) ∧
      (calm → ∀ cell ∈ before ++ after, cell.kind.isInline))
    (fences : node.kind.bindsLoosely → ∃ cell rest, before = cell :: rest ∧ cell.kind = .leftParen)
    (closesNone : ClosesNone (tokenPieces before)) :
    Spans spaced calm (node.addTokens cells) (before ++ run ++ after) := by
  cases spans with
  | @mk _ pieces parts below =>
    have whole : before ++ cellsOf pieces ++ after =
        cellsOf (tokenPieces before ++ pieces ++ tokenPieces after) := by simp
    rw [whole]
    have same : node.kind.isStarred → ∀ kind, kind.isStar →
        items kind (tokenPieces before ++ pieces ++ tokenPieces after) = items kind pieces := by
      intro starred kind star
      rw [items_append _ star ((stars starred).1.append (parts.starred starred).plain),
        items_append _ star (stars starred).1, items_tokenPieces, items_tokenPieces,
        Nat.zero_add, Nat.add_zero]
    refine .mk ⟨parts.bare, ?_, ?_, fun starred => ⟨?_, ?_, fun now => ?_⟩, fun now => ?_, parts.groups,
      fun loose => ?_, fun now => ?_,
      parts.contained.surround closesNone (nodesOf_tokenPieces after), fun same => (parts.paired same).around _ _,
      parts.rows.around before after⟩ fun inner run member => below inner run ?_
    · simp only [tokensOf_append, tokensOf_tokenPieces]
      have moved : (before ++ tokensOf pieces ++ after).Perm (tokensOf pieces ++ (before ++ after)) := by
        rw [← List.append_assoc]
        exact List.perm_append_comm.append_right after
      exact moved.trans (parts.tokens.append given.symm)
    · obtain ⟨lost, nodes, once, superseded⟩ := parts.nodes
      have all : nodesOf (tokenPieces before ++ pieces ++ tokenPieces after) = nodesOf pieces := by simp
      refine ⟨lost, all ▸ nodes, once.trans (forall_congr' fun starred => ?_), fun inner missing =>
        (superseded inner missing).around _ _⟩
      rw [StarsOnce, StarsOnce, same starred .star rfl, same starred .doubleStar rfl]
    · exact ((stars starred).1.append (parts.starred starred).plain).append (stars starred).2.1
    · exact List.forall_mem_append.2 ⟨List.forall_mem_append.2 ⟨filled_tokenPieces before,
        (parts.starred starred).filled⟩, filled_tokenPieces after⟩
    · intro cell member
      rw [← whole, List.mem_append, List.mem_append] at member
      rcases member with (early | inside) | late
      · exact (stars starred).2.2 now cell (List.mem_append_left _ early)
      · exact (parts.starred starred).inline now cell inside
      · exact (stars starred).2.2 now cell (List.mem_append_right _ late)
    · have outside : ∀ some : List Cell, (∀ cell ∈ some, cell ∈ before ++ after) →
          Balanced (some.map (·.kind)) := by
        intro some among
        refine balanced_of_plain fun kind member => ?_
        obtain ⟨cell, listed, rfl⟩ := List.mem_map.1 member
        exact plain now cell (among cell listed)
      simp only [tokensOf_append, tokensOf_tokenPieces, List.map_append]
      exact ((outside before fun _ member => List.mem_append_left _ member).append
        (parts.levels now)).append (outside after fun _ member => List.mem_append_right _ member)
    · obtain ⟨cell, rest, rfl, opens⟩ := fences loose
      exact fenced_token opens _
    · have order : (node.addTokens cells).ordered.Sublist (nodesOf pieces) := parts.order now
      simpa using order
    · simpa [tokenPieces] using member

/-! ### Nodes that lack nothing -/

/-- The statements that hold a block, clauses of their own aside. -/
def NodeKind.holdsBlock : NodeKind → Bool
  | .conditional | .whileLoop | .forLoop | .withBlock | .function | .classBody | .tryBlock | .handler => true
  | _ => false

/-- The nodes whose children are all there, whatever the text. -/
def NodeKind.isPlain (kind : NodeKind) : Bool := !kind.isStarred && kind != .dict && !kind.holdsBlock

theorem NodeKind.isStarred_of_isPlain {kind : NodeKind} (plain : kind.isPlain) :
    kind.isStarred = false := by
  simp only [isPlain, Bool.and_eq_true, Bool.not_eq_true'] at plain
  exact plain.1.1

theorem NodeKind.holdsBlock_of_isPlain {kind : NodeKind} (plain : kind.isPlain) : kind.holdsBlock = false := by
  simp only [isPlain, Bool.and_eq_true, Bool.not_eq_true'] at plain
  exact plain.2

theorem NodeKind.holdsBlock_of_isStarred {kind : NodeKind} (starred : kind.isStarred) : kind.holdsBlock = false := by
  cases kind <;> first | rfl | cases starred

theorem NodeKind.ne_dict_of_isPlain {kind : NodeKind} (plain : kind.isPlain) : kind ≠ .dict := by
  rintro rfl
  cases plain

theorem NodeKind.isPlain_of_bindsLoosely {kind : NodeKind} (loose : kind.bindsLoosely) : kind.isPlain := by
  cases kind <;> first | rfl | cases loose

theorem NodeKind.ne_parameters_of_unstarred {kind : NodeKind} (unstarred : kind.isStarred = false) :
    kind ≠ .parameters := by
  rintro rfl
  cases unstarred

theorem NodeKind.bindsLoosely_of_isStarred {kind : NodeKind} (starred : kind.isStarred) :
    kind.bindsLoosely = false := by
  cases kind <;> first | rfl | cases starred

/-- The nodes made of brackets and braces. -/
def NodeKind.isDisplay : NodeKind → Bool
  | .list | .listComprehension | .dict | .dictComprehension | .set | .setComprehension => true
  | _ => false

theorem NodeKind.bindsLoosely_of_isDisplay {kind : NodeKind} (display : kind.isDisplay) :
    kind.bindsLoosely = false := by
  cases kind <;> first | rfl | cases display

theorem NodeKind.isStarred_of_isDisplay {kind : NodeKind} (display : kind.isDisplay) : kind.isStarred = false := by
  cases kind <;> first | rfl | cases display

theorem NodeKind.holdsBlock_of_isDisplay {kind : NodeKind} (display : kind.isDisplay) : kind.holdsBlock = false := by
  cases kind <;> first | rfl | cases display

theorem NodeKind.ne_string_of_isDisplay {kind : NodeKind} (display : kind.isDisplay) : kind ≠ .string := by
  rintro rfl
  cases display

/-- The nodes that may own any tokens of the line. -/
def NodeKind.isFirm (kind : NodeKind) : Bool :=
  !kind.isStarred && !kind.bindsLoosely && kind != .string && kind.closer?.isNone

theorem NodeKind.isStarred_of_isFirm {kind : NodeKind} (firm : kind.isFirm) : kind.isStarred = false := by
  simp only [isFirm, Bool.and_eq_true, Bool.not_eq_true'] at firm
  exact firm.1.1.1

theorem NodeKind.bindsLoosely_of_isFirm {kind : NodeKind} (firm : kind.isFirm) : kind.bindsLoosely = false := by
  simp only [isFirm, Bool.and_eq_true, Bool.not_eq_true'] at firm
  exact firm.1.1.2

theorem NodeKind.closer?_of_isFirm {kind : NodeKind} (firm : kind.isFirm) : kind.closer? = none := by
  simp only [isFirm, Bool.and_eq_true] at firm
  exact Option.isNone_iff_eq_none.1 firm.2

theorem NodeKind.ne_dict_of_isFirm {kind : NodeKind} (firm : kind.isFirm) : kind ≠ .dict := by
  rintro rfl
  cases firm

theorem NodeKind.ne_string_of_isFirm {kind : NodeKind} (firm : kind.isFirm) : kind ≠ .string := by
  rintro rfl
  cases firm

theorem NodeKind.ne_string_of_bindsLoosely {kind : NodeKind} (loose : kind.bindsLoosely) : kind ≠ .string := by
  rintro rfl
  cases loose

theorem NodeKind.ne_string_of_isStarred {kind : NodeKind} (starred : kind.isStarred) : kind ≠ .string := by
  rintro rfl
  cases starred

/-- A dictionary with a value for every key. -/
def Node.Gapless (node : Node) : Prop :=
  node.kind = .dict → ∀ part ∈ node.children.toList, part.2.isSome

/-- A statement that is to hold a block has one. -/
def Node.Filled (node : Node) : Prop := node.kind.holdsBlock → node.entries .body ≠ []

/-- All dictionaries of a tree have a value for every key. If `solid` holds so that no block is empty, every statement
that is to hold a block has one. -/
inductive Node.Whole (solid : Prop) : Node → Prop
  | mk {node : Node} (gapless : node.Gapless) (filled : solid → node.Filled)
      (below : ∀ child ∈ node.children.nodes, child.Whole solid) : node.Whole solid

theorem Node.Whole.addTokens {solid : Prop} {node : Node} (whole : node.Whole solid) (cells : List Cell) :
    (node.addTokens cells).Whole solid := by
  cases whole with
  | mk gapless filled below => exact .mk gapless filled below

theorem Node.Whole.mono {solid firmer : Prop} {node : Node} (whole : node.Whole solid) (weaker : firmer → solid) :
    node.Whole firmer := by
  induction whole with
  | mk gapless filled _ ih => exact .mk gapless (filled ∘ weaker) ih

end TolerantParser
