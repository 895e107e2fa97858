import TolerantParser.Proofs.Tree.Yield

/-!
Blocks, as their first and last tokens show them: a block that ends is the one that began last. As long as
every node's own tokens are balanced, the blocks of a run are those of the nodes made over it, so the two
tokens of a block belong to one node.
-/

namespace TolerantParser

/-! ### Matching -/

/-- The blocks that end among tokens, each by its first and its last token. `opened` are the first tokens of
the blocks that the tokens lie in, the innermost first. -/
def blocksOf (opened : List Cell) : List Cell → List (Cell × Cell)
  | [] => []
  | cell :: rest =>
    match cell.kind, opened with
    | .indent, _ => blocksOf (cell :: opened) rest
    | .dedent, first :: outer => (first, cell) :: blocksOf outer rest
    | _, _ => blocksOf opened rest

/-- The tokens end the blocks that they lie in and those that begin among them, and no other ones. -/
def Closes (opened cells : List Cell) : Prop :=
  levelAfter opened.length (cells.map (·.kind)) = some 0

variable {opened outer cells rest run : List Cell} {cell first : Cell} {block : Cell × Cell}

theorem kind_of_layout {kind : TokenKind} (layout : kind.isLayout) : kind = .indent ∨ kind = .dedent := by
  cases kind <;> first | exact .inl rfl | exact .inr rfl | cases layout

theorem blocksOf_indent (opened rest : List Cell) (indent : cell.kind = .indent) :
    blocksOf opened (cell :: rest) = blocksOf (cell :: opened) rest := by
  simp only [blocksOf, indent]

theorem blocksOf_dedent (first : Cell) (outer rest : List Cell) (dedent : cell.kind = .dedent) :
    blocksOf (first :: outer) (cell :: rest) = (first, cell) :: blocksOf outer rest := by
  simp only [blocksOf, dedent]

theorem blocksOf_plain (opened rest : List Cell) (plain : cell.kind.isLayout = false) :
    blocksOf opened (cell :: rest) = blocksOf opened rest := by
  have notIndent : cell.kind ≠ .indent := fun indent => by simp [indent, TokenKind.isLayout] at plain
  have notDedent : cell.kind ≠ .dedent := fun dedent => by simp [dedent, TokenKind.isLayout] at plain
  simp [blocksOf, notDedent]

/-- A token ends a block, whatever follows on it, or ends none. -/
theorem blocksOf_cons (opened : List Cell) (cell : Cell) :
    (∃ first outer, opened = first :: outer ∧ cell.kind = .dedent ∧
      ∀ rest, blocksOf opened (cell :: rest) = (first, cell) :: blocksOf outer rest) ∨
    ∃ inner, inner ⊆ cell :: opened ∧ ∀ rest, blocksOf opened (cell :: rest) = blocksOf inner rest := by
  by_cases layout : cell.kind.isLayout
  · rcases kind_of_layout layout with indent | dedent
    · exact .inr ⟨_, List.Subset.refl _, fun rest => blocksOf_indent opened rest indent⟩
    · cases opened with
      | nil => exact .inr ⟨[], List.nil_subset _, fun rest => by simp only [blocksOf, dedent]⟩
      | cons first outer =>
        exact .inl ⟨first, outer, rfl, dedent, fun rest => blocksOf_dedent first outer rest dedent⟩
  · refine .inr ⟨opened, List.subset_cons_self _ _, fun rest => ?_⟩
    exact blocksOf_plain opened rest (by simpa using layout)

/-- What one token can do to the blocks around it. -/
theorem Closes.cases (closes : Closes opened (cell :: rest)) :
    (cell.kind = .indent ∧ Closes (cell :: opened) rest) ∨
    (cell.kind = .dedent ∧ ∃ first outer, opened = first :: outer ∧ Closes outer rest) ∨
    (cell.kind.isLayout = false ∧ Closes opened rest) := by
  rw [Closes, List.map_cons, levelAfter, List.foldlM_cons] at closes
  obtain ⟨level, step, later⟩ := Option.bind_eq_some_iff.1 closes
  by_cases layout : cell.kind.isLayout
  · rcases kind_of_layout layout with indent | dedent
    · rw [indent] at step
      obtain rfl := Option.some.inj step
      exact .inl ⟨indent, later⟩
    · rw [dedent] at step
      cases opened with
      | nil => cases step
      | cons first outer =>
        obtain rfl := Option.some.inj step
        exact .inr (.inl ⟨dedent, first, outer, rfl, later⟩)
  · have plain : cell.kind.isLayout = false := by simpa using layout
    rw [levelBehind_plain _ plain] at step
    obtain rfl := Option.some.inj step
    exact .inr (.inr ⟨plain, later⟩)

/-- The blocks that begin outside come after those of a run that ends all that it begins. -/
theorem Closes.blocksOf_append (closes : Closes opened run) (outer rest : List Cell) :
    blocksOf (opened ++ outer) (run ++ rest) = blocksOf opened run ++ blocksOf outer rest := by
  induction run generalizing opened with
  | nil =>
    obtain rfl := List.length_eq_zero_iff.1 (Option.some.inj closes)
    rfl
  | cons cell run ih =>
    rw [List.cons_append]
    rcases closes.cases with ⟨indent, later⟩ | ⟨dedent, first, more, rfl, later⟩ | ⟨plain, later⟩
    · rw [blocksOf_indent _ _ indent, blocksOf_indent _ _ indent]
      exact ih later
    · rw [List.cons_append, blocksOf_dedent _ _ _ dedent, blocksOf_dedent _ _ _ dedent, ih later]
      rfl
    · rw [blocksOf_plain _ _ plain, blocksOf_plain _ _ plain]
      exact ih later

/-- Each token that begins or ends a block is met in one. -/
theorem Closes.exists_block (closes : Closes opened cells)
    (listed : cell ∈ opened ∨ cell ∈ cells ∧ cell.kind.isLayout) :
    ∃ block ∈ blocksOf opened cells, cell = block.1 ∨ cell = block.2 := by
  induction cells generalizing opened with
  | nil =>
    obtain rfl := List.length_eq_zero_iff.1 (Option.some.inj closes)
    simp at listed
  | cons next rest ih =>
    simp only [List.mem_cons] at listed
    rcases closes.cases with ⟨indent, later⟩ | ⟨dedent, first, more, rfl, later⟩ | ⟨plain, later⟩
    · rw [blocksOf_indent _ _ indent]
      refine ih later ?_
      rw [List.mem_cons]
      rcases listed with outside | ⟨rfl | inside, layout⟩
      · exact .inl (.inr outside)
      · exact .inl (.inl rfl)
      · exact .inr ⟨inside, layout⟩
    · rw [blocksOf_dedent _ _ _ dedent]
      simp only [List.mem_cons, exists_eq_or_imp]
      rcases listed with outside | ⟨rfl | inside, layout⟩
      · rcases List.mem_cons.1 outside with rfl | more
        · exact .inl (.inl rfl)
        · exact .inr (ih later (.inl more))
      · exact .inl (.inr rfl)
      · exact .inr (ih later (.inr ⟨inside, layout⟩))
    · rw [blocksOf_plain _ _ plain]
      refine ih later ?_
      rcases listed with outside | ⟨rfl | inside, layout⟩
      · exact .inl outside
      · simp [plain] at layout
      · exact .inr ⟨inside, layout⟩

theorem mem_blocksOf (listed : block ∈ blocksOf opened cells) :
    (block.1 ∈ opened ∨ block.1 ∈ cells) ∧ block.2 ∈ cells ∧ block.2.kind = .dedent := by
  induction cells generalizing opened with
  | nil => cases listed
  | cons cell rest ih =>
    rcases blocksOf_cons opened cell with ⟨first, outer, rfl, dedent, step⟩ | ⟨inner, within, step⟩ <;>
      rw [step] at listed
    · rcases List.mem_cons.1 listed with rfl | later
      · exact ⟨.inl List.mem_cons_self, List.mem_cons_self, dedent⟩
      · obtain ⟨begins, ends, kind⟩ := ih later
        exact ⟨begins.imp (List.mem_cons_of_mem _) (List.mem_cons_of_mem _), List.mem_cons_of_mem _ ends, kind⟩
    · obtain ⟨begins, ends, kind⟩ := ih listed
      refine ⟨?_, List.mem_cons_of_mem _ ends, kind⟩
      rcases begins with outside | inside
      · rcases List.mem_cons.1 (within outside) with same | before
        · exact .inr (same ▸ List.mem_cons_self)
        · exact .inl before
      · exact .inr (List.mem_cons_of_mem _ inside)

/-! ### Pieces -/

variable {spaced calm : Prop} {node : Node} {pieces : List Piece}

/-- Runs that are balanced do not count. -/
theorem levelAfter_cellsOf (each : ∀ inner run, .node inner run ∈ pieces → Closes [] run) (level : Nat) :
    levelAfter level ((cellsOf pieces).map (·.kind)) = levelAfter level ((tokensOf pieces).map (·.kind)) := by
  induction pieces generalizing level with
  | nil => rfl
  | cons piece pieces ih =>
    have below := fun inner run member => each inner run (List.mem_cons_of_mem piece member)
    cases piece with
    | token cell =>
      rw [cellsOf_token, tokensOf_token, List.map_cons, List.map_cons, levelAfter, levelAfter,
        List.foldlM_cons, List.foldlM_cons]
      exact bind_congr fun after => ih below after
    | node inner run =>
      have balanced : Balanced (run.map (·.kind)) := each inner run List.mem_cons_self
      rw [cellsOf_node, tokensOf_node, List.map_append, levelAfter_append, balanced.levelAfter_eq]
      exact ih below level

/-- A block of pieces is one among the tokens or one of the run of a node. -/
theorem mem_blocks_cellsOf (each : ∀ inner run, .node inner run ∈ pieces → Closes [] run)
    (listed : block ∈ blocksOf opened (cellsOf pieces)) : block ∈ blocksOf opened (tokensOf pieces) ∨
      ∃ inner run, .node inner run ∈ pieces ∧ block ∈ blocksOf [] run := by
  induction pieces generalizing opened with
  | nil => exact .inl listed
  | cons piece pieces ih =>
    have below := fun inner run member => each inner run (List.mem_cons_of_mem piece member)
    have later : ∀ opened, block ∈ blocksOf opened (cellsOf pieces) →
        block ∈ blocksOf opened (tokensOf pieces) ∨
          ∃ inner run, .node inner run ∈ piece :: pieces ∧ block ∈ blocksOf [] run := by
      intro opened met
      rcases ih below met with own | ⟨inner, run, member, inside⟩
      · exact .inl own
      · exact .inr ⟨inner, run, List.mem_cons_of_mem _ member, inside⟩
    cases piece with
    | token cell =>
      rw [cellsOf_token] at listed
      rw [tokensOf_token]
      rcases blocksOf_cons opened cell with ⟨first, outer, rfl, -, step⟩ | ⟨inner, -, step⟩ <;>
        rw [step] at listed ⊢
      · rcases List.mem_cons.1 listed with rfl | met
        · exact .inl List.mem_cons_self
        · exact (later _ met).imp (List.mem_cons_of_mem _) fun deeper => deeper
      · exact later _ listed
    | node inner run =>
      have closes := each inner run List.mem_cons_self
      rw [cellsOf_node, show opened = [] ++ opened from rfl, closes.blocksOf_append,
        List.mem_append] at listed
      rcases listed with inside | met
      · exact .inr ⟨inner, run, List.mem_cons_self, inside⟩
      · exact later _ met

/-! ### Nodes -/

theorem Spans.closes (now : calm) (spans : Spans spaced calm node run) : Closes [] run := by
  induction spans with
  | mk parts below ih => exact (levelAfter_cellsOf ih 0).trans (parts.levels now)

/-- The two tokens of a block belong to one node of the tree over them. -/
theorem Spans.owner_of_block (now : calm) (spans : Spans spaced calm node run)
    (listed : block ∈ blocksOf [] run) :
    ∃ owner ∈ node.listed, block.1 ∈ owner.tokens ∧ block.2 ∈ owner.tokens := by
  induction spans with
  | @mk node pieces parts below ih =>
    have each := fun inner run member => (below inner run member).closes now
    rcases mem_blocks_cellsOf each listed with own | ⟨inner, run, member, inside⟩
    · obtain ⟨begins, ends, -⟩ := mem_blocksOf own
      refine ⟨node, Node.mem_listed.2 (.inl rfl), ?_, parts.tokens.subset ends⟩
      exact parts.tokens.subset (begins.resolve_left List.not_mem_nil)
    · -- a node is lost only among tokens of the line, where no block is
      have plain : ¬ node.kind.isStarred := by
        intro starred
        obtain ⟨-, ends, dedent⟩ := mem_blocksOf inside
        have inline := (parts.starred starred).inline now _ (cells_subset member ends)
        rw [dedent] at inline
        cases inline
      obtain ⟨owner, deeper, both⟩ := ih inner run member inside
      obtain ⟨lost, nodes, once, -⟩ := parts.nodes
      obtain rfl := once.2 fun starred => absurd starred plain
      have child : inner ∈ node.children.nodes := by
        rw [List.append_nil] at nodes
        exact nodes.subset (List.mem_flatMap.2 ⟨_, member, List.mem_singleton_self _⟩)
      exact ⟨owner, Node.mem_listed.2 (.inr ⟨inner, child, deeper⟩), both⟩

end TolerantParser
