import TolerantParser.Proofs.Tree.Literals
import TolerantParser.Proofs.Tree.Yield

/-!
Placeholders in a tree. A name that was put in for a missing one is to be owned by a node that stands for the missing
name (`Node.Placeholder`). Of some names, given by their numbers, a tree may own those only there.
-/

namespace TolerantParser

variable {names more : List Nat} {node : Node} {cells : List Cell} {f : Cell → Cell}

/-- The name that stands for a missing one. -/
structure Node.Placeholder (node : Node) : Prop where
  kind : node.kind = .name
  detail : node.info.detail = .name missingName

/-- The names with these numbers are owned by no nodes but those that stand for a missing name. -/
inductive Node.OnlyPlaceholdersOwn (names : List Nat) : Node → Prop
  | mk {node : Node} (own : ∀ cell ∈ node.tokens, cell.index ∈ names → node.Placeholder)
      (below : ∀ child ∈ node.children.nodes, child.OnlyPlaceholdersOwn names) : node.OnlyPlaceholdersOwn names

namespace Node

theorem OnlyPlaceholdersOwn.listed (owners : node.OnlyPlaceholdersOwn names) {inner : Node}
    (listed : inner ∈ node.listed) {cell : Cell} (own : cell ∈ inner.tokens) (named : cell.index ∈ names) :
    inner.Placeholder := by
  induction owners with
  | mk mine _ ih =>
    rcases mem_listed.1 listed with rfl | ⟨child, member, inside⟩
    · exact mine cell own named
    · exact ih child member inside

theorem onlyPlaceholdersOwn_nil (node : Node) : node.OnlyPlaceholdersOwn [] := by
  induction node using Node.of_children with
  | step node ih => exact .mk (fun _ _ named => absurd named List.not_mem_nil) ih

/-- Names that no node of the tree owns may be added. -/
theorem OnlyPlaceholdersOwn.mono (owners : node.OnlyPlaceholdersOwn names)
    (known : ∀ cell ∈ node.ownedTokens, cell.index ∈ more → cell.index ∈ names) : node.OnlyPlaceholdersOwn more := by
  induction owners with
  | mk mine _ ih =>
    refine .mk (fun cell own named => mine cell own (known cell (owned_of_mem own) named)) fun child member => ?_
    exact ih child member fun cell owned => known cell (owned_below member owned)

/-- Tokens that are not among the names may be given to the node. -/
theorem OnlyPlaceholdersOwn.addTokens (owners : node.OnlyPlaceholdersOwn names)
    (others : ∀ cell ∈ cells, cell.index ∉ names) : (node.addTokens cells).OnlyPlaceholdersOwn names := by
  cases owners with
  | mk mine below =>
    refine .mk (fun cell own named => ?_) below
    rcases List.mem_append.1 own with before | given
    · have placeholder := mine cell before named
      exact ⟨placeholder.kind, placeholder.detail⟩
    · exact absurd named (others cell given)

/-- The names take other numbers. -/
theorem OnlyPlaceholdersOwn.mapTokens (owners : node.OnlyPlaceholdersOwn names)
    (same : ∀ cell ∈ node.ownedTokens, (f cell).index ∈ more → cell.index ∈ names) :
    (node.mapTokens f).OnlyPlaceholdersOwn more := by
  induction owners with
  | @mk node mine _ ih =>
    refine .mk (fun moved own named => ?_) fun child member => ?_
    · rw [tokens_mapTokens] at own
      obtain ⟨cell, before, rfl⟩ := List.mem_map.1 own
      have placeholder := mine cell before (same cell (owned_of_mem before) named)
      exact ⟨(kind_mapTokens f node).trans placeholder.kind, (info_mapTokens f node).2.trans placeholder.detail⟩
    · rw [nodes_mapTokens] at member
      obtain ⟨bare, listed, rfl⟩ := List.mem_map.1 member
      exact ih bare listed fun cell owned => same cell (owned_below listed owned)

end Node

end TolerantParser
