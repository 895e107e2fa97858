import TolerantParser.Proofs.Document.Parsing
import TolerantParser.Proofs.Tree.Blocks

/-!
The blocks of a document. Whatever errors a text has, each block that its layout shows begins and ends in one
node of its tree, as long as no statement was nested too deeply to parse.
-/

namespace TolerantParser.Document

open TokenStream (significant)

/-- The blocks that the layout of the document shows, each by its first and its last token. -/
def blocks (document : Document) : List (Cell × Cell) := blocksOf [] document.tokens

/-- Comments do not count. -/
theorem blocksOf_significant (opened cells : List Cell) :
    blocksOf opened (significant cells) = blocksOf opened cells := by
  induction cells generalizing opened with
  | nil => rfl
  | cons cell rest ih =>
    by_cases comment : cell.kind = .comment
    · have plain : cell.kind.isLayout = false := by rw [comment]; rfl
      rw [significant, List.filter_cons_of_neg (by simp [comment]), blocksOf_plain _ _ plain]
      exact ih opened
    · rw [significant, List.filter_cons_of_pos (by simpa using comment)]
      rcases blocksOf_cons opened cell with ⟨first, outer, rfl, -, step⟩ | ⟨inner, -, step⟩ <;>
        rw [step, step]
      · exact congrArg _ (ih outer)
      · exact ih inner

/-- The tokens of a document are those of the text, but for what repair put in. Every one that begins or ends a block
has its match, and a node of the tree owns both. No block is missing its end, and none is left over. -/
theorem owner_of_blocks (limits : Limits) (d : Dialect) (options : ParseOptions) (text : String) :
    ∃ document, ofText? limits d options text = .ok document ∧ document.lexed = lex d text ∧ (document.Calm →
      (∀ cell ∈ document.tokens, cell.kind.isLayout →
        ∃ block ∈ document.blocks, cell = block.1 ∨ cell = block.2) ∧
      (∀ block ∈ document.blocks,
        ∃ node ∈ document.tree.listed, block.1 ∈ node.tokens ∧ block.2 ∈ node.tokens) ∧
      ∀ error ∈ document.errors, error.kind ≠ .dedentExpected ∧ error.kind ≠ .endOfFileExpected) := by
  obtain ⟨document, parses, parsed⟩ := ofText?_ok limits d options text
  obtain ⟨tree, attached, -, spans, -⟩ := parsed.tree
  have regular : document.Calm → Regular (lex d text) document := fun calm => regular_lex d text calm
  have all : document.blocks = blocksOf [] (significant document.tokens) :=
    (blocksOf_significant [] document.tokens).symm
  refine ⟨document, parses, parsed.lexed_eq, fun calm => ⟨fun cell listed layout => ?_, fun block member => ?_,
    parsed.proper (laid_lex d text) calm⟩⟩
  · rw [all]
    refine (spans.closes (regular calm)).exists_block (.inr ⟨List.mem_filter.2 ⟨listed, ?_⟩, layout⟩)
    rcases kind_of_layout layout with indent | dedent
    · simp [indent]
    · simp [dedent]
  · obtain ⟨owner, listed, begins, ends⟩ := spans.owner_of_block (regular calm) (all ▸ member)
    obtain ⟨node, attachedNode, within⟩ := Node.exists_tokens_subset document.tokens listed
    exact ⟨node, attached ▸ attachedNode, within begins, within ends⟩

end TolerantParser.Document
