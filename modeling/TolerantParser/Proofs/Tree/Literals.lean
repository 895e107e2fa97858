import Mathlib.Data.List.TakeWhile
import TolerantParser.Diagnostic.Basic
import TolerantParser.Lexeme.StringLiteral
import TolerantParser.Proofs.Tree.Attaching
import TolerantParser.Proofs.Tree.Renumber

/-!
What string nodes say. A string node begins with literals and says what is in them, one after the other. Parentheses
around it are its own as well, behind the literals, and with them what repair went over on the way to the closing one;
only there can more literals be, and then an error was found at the first token that was gone over.
-/

namespace TolerantParser

variable {errors more : List ParseError} {cells others front : List Cell} {node : Node}

/-- What literals say, one after the other. -/
def contentsOf (literals : List Cell) : String :=
  String.ofList (literals.flatMap fun cell => stringContents cell.text.toList)

theorem contentsOf_append (cells others : List Cell) :
    contentsOf (cells ++ others) = contentsOf cells ++ contentsOf others := by
  simp [contentsOf]

theorem contentsOf_map {f : Cell → Cell} (same : ∀ cell ∈ cells, (f cell).toToken = cell.toToken) :
    contentsOf (cells.map f) = contentsOf cells := by
  rw [contentsOf, contentsOf, List.flatMap_map]
  refine congrArg String.ofList (List.flatMap_congr fun cell member => ?_)
  have text : (f cell).text = cell.text := congrArg Token.text (same cell member)
  rw [text]

/-- The tokens are literals, and this is what they say. -/
structure Spells (detail : Detail) (cells : List Cell) : Prop where
  filled : cells ≠ []
  strings : ∀ cell ∈ cells, cell.kind = .string
  detail : detail = .string (contentsOf cells)

theorem spells_singleton {cell : Cell} (literal : cell.kind = .string) :
    Spells (.string (String.ofList (stringContents cell.text.toList))) [cell] :=
  ⟨List.cons_ne_nil _ _, List.forall_mem_singleton.2 literal, by simp [contentsOf]⟩

theorem Spells.snoc {contents : String} {cell : Cell} (spells : Spells (.string contents) cells)
    (literal : cell.kind = .string) :
    Spells (.string (contents ++ String.ofList (stringContents cell.text.toList))) (cells ++ [cell]) := by
  refine ⟨by simp, List.forall_mem_append.2 ⟨spells.strings, List.forall_mem_singleton.2 literal⟩, ?_⟩
  rw [contentsOf_append, ← Detail.string.inj spells.detail]
  simp [contentsOf]

/-- At one of the tokens a bracket was found to be missing. -/
def Unclosed (errors : List ParseError) (cells : List Cell) : Prop :=
  ∃ error ∈ errors, error.kind = .unmatchedBracket ∧ error.cell ∈ cells

/-- Literals are among tokens only where a bracket was found to be missing. -/
def Stray (errors : List ParseError) (cells : List Cell) : Prop :=
  (∃ cell ∈ cells, cell.kind = .string) → Unclosed errors cells

theorem Unclosed.mono (unclosed : Unclosed errors cells) (listed : errors ⊆ more) (among : cells ⊆ others) :
    Unclosed more others := by
  obtain ⟨error, found, kind, place⟩ := unclosed
  exact ⟨error, listed found, kind, among place⟩

theorem Stray.mono (stray : Stray errors cells) (listed : errors ⊆ more) : Stray more cells :=
  fun some => (stray some).mono listed (List.Subset.refl _)

theorem stray_of_plain (plain : ∀ cell ∈ cells, cell.kind ≠ .string) : Stray errors cells :=
  fun ⟨cell, member, string⟩ => absurd string (plain cell member)

theorem stray_nil : Stray errors [] := stray_of_plain (List.forall_mem_nil _)

theorem Stray.append (first : Stray errors cells) (second : Stray errors others) : Stray errors (cells ++ others) := by
  rintro ⟨cell, member, string⟩
  rcases List.mem_append.1 member with early | late
  · exact (first ⟨cell, early, string⟩).mono (List.Subset.refl _) (List.subset_append_left ..)
  · exact (second ⟨cell, late, string⟩).mono (List.Subset.refl _) (List.subset_append_right ..)

/-- Every token is exchanged for one of the same kind. -/
theorem Stray.map {f : Cell → Cell} (stray : Stray errors cells) (kinds : ∀ cell ∈ cells, (f cell).kind = cell.kind) :
    Stray (errors.map fun error => { error with cell := f error.cell }) (cells.map f) := by
  rintro ⟨_, member, string⟩
  obtain ⟨cell, listed, rfl⟩ := List.mem_map.1 member
  obtain ⟨error, found, kind, place⟩ := stray ⟨cell, listed, (kinds cell listed).symm.trans string⟩
  exact ⟨_, List.mem_map_of_mem found, kind, List.mem_map_of_mem place⟩

namespace Node

/-- The literals that a node begins with. -/
def literals (node : Node) : List Cell := node.tokens.takeWhile (·.kind == .string)

/-- The tokens of a node behind these. -/
def trailing (node : Node) : List Cell := node.tokens.dropWhile (·.kind == .string)

/-- The node says what is in the literals it begins with, and has no others unless a bracket was found to be missing. -/
structure Literal (errors : List ParseError) (node : Node) : Prop where
  filled : node.literals ≠ []
  spells : node.info.detail = .string (contentsOf node.literals)
  stray : Stray errors node.trailing

/-- So do all string nodes of a tree. -/
inductive Literate (errors : List ParseError) : Node → Prop
  | mk {node : Node} (literal : node.kind = .string → node.Literal errors)
      (below : ∀ child ∈ node.children.nodes, child.Literate errors) : node.Literate errors

theorem tokens_eq_literals (node : Node) : node.tokens = node.literals ++ node.trailing :=
  List.takeWhile_append_dropWhile.symm

theorem string_of_mem_literals {cell : Cell} (member : cell ∈ node.literals) : cell.kind = .string := by
  have passes : (cell.kind == .string) = true :=
    List.mem_takeWhile_imp (p := fun cell : Cell => cell.kind == .string) member
  exact eq_of_beq passes

theorem not_string_of_trailing {cell : Cell} (first : node.trailing.head? = some cell) : cell.kind ≠ .string := by
  have fails := List.head?_dropWhile_not (fun cell : Cell => cell.kind == .string) node.tokens
  rw [← Node.trailing, first] at fails
  simpa using fails

/-- Literals end where something else comes. -/
theorem literals_eq (node : Node) (split : node.tokens = front ++ cells) (strings : ∀ cell ∈ front, cell.kind = .string)
    (ends : ∀ cell ∈ cells.head?, cell.kind ≠ .string) : node.literals = front ∧ node.trailing = cells := by
  have all : ∀ cell ∈ front, (cell.kind == .string) = true := fun cell member => by simp [strings cell member]
  rw [Node.literals, trailing, split, List.takeWhile_append_of_pos all, List.dropWhile_append_of_pos all]
  cases cells with
  | nil => simp
  | cons cell rest =>
    have stops : (cell.kind == .string) = false := by simpa using ends cell rfl
    simp [stops]

/-- The node owns nothing but literals, and says what they say. -/
theorem literal_of_spells (spells : Spells node.info.detail node.tokens) : node.Literal errors := by
  obtain ⟨literals, trailing⟩ := literals_eq node (List.append_nil _).symm spells.strings
    fun _ member => absurd member (Option.not_mem_none _)
  exact ⟨literals ▸ spells.filled, literals ▸ spells.detail, trailing ▸ stray_nil⟩

theorem Literal.mono (literal : node.Literal errors) (listed : errors ⊆ more) : node.Literal more :=
  ⟨literal.filled, literal.spells, literal.stray.mono listed⟩

theorem Literate.mono (literate : node.Literate errors) (listed : errors ⊆ more) : node.Literate more := by
  induction literate with
  | mk literal _ ih => exact .mk (fun string => (literal string).mono listed) ih

theorem Literate.listed (literate : node.Literate errors) {inner : Node} (listed : inner ∈ node.listed)
    (string : inner.kind = .string) : inner.Literal errors := by
  induction literate with
  | mk literal _ ih =>
    rcases mem_listed.1 listed with rfl | ⟨child, member, inside⟩
    · exact literal string
    · exact ih child member inside

/-- Tokens that are given to a node come behind the others. -/
theorem Literal.followed {grown : Node} (literal : node.Literal errors) (spells : grown.info.detail = node.info.detail)
    (tokens : grown.tokens = node.tokens ++ cells) (ends : ∀ cell ∈ cells.head?, cell.kind ≠ .string)
    (stray : Stray errors cells) : grown.Literal errors := by
  have behind : ∀ cell ∈ (node.trailing ++ cells).head?, cell.kind ≠ .string := by
    intro cell first
    rw [Option.mem_def, List.head?_append, Option.or_eq_some_iff] at first
    exact first.elim not_string_of_trailing fun late => ends cell late.2
  obtain ⟨literals, trailing⟩ := literals_eq grown (by rw [tokens, node.tokens_eq_literals, List.append_assoc])
    (fun _ => string_of_mem_literals) behind
  exact ⟨literals ▸ literal.filled, by rw [spells, literals, literal.spells], trailing ▸ literal.stray.append stray⟩

theorem Literate.addTokens (literate : node.Literate errors)
    (given : node.kind = .string → (∀ cell ∈ cells.head?, cell.kind ≠ .string) ∧ Stray errors cells) :
    (node.addTokens cells).Literate errors := by
  cases literate with
  | mk literal below =>
    exact .mk (fun string => (literal string).followed rfl rfl (given string).1 (given string).2) below

/-- The tokens of a node are exchanged for others that are the same but for their numbers. -/
theorem Literal.mapTokens {f : Cell → Cell} (literal : node.Literal errors)
    (same : ∀ cell ∈ node.tokens, (f cell).toToken = cell.toToken) :
    (node.mapTokens f).Literal (errors.map fun error => { error with cell := f error.cell }) := by
  rw [node.tokens_eq_literals, List.forall_mem_append] at same
  have kinds : ∀ cell ∈ node.trailing, (f cell).kind = cell.kind := fun cell member =>
    congrArg Token.kind (same.2 cell member)
  obtain ⟨literals, trailing⟩ := literals_eq (node.mapTokens f)
    (by rw [tokens_mapTokens, node.tokens_eq_literals, List.map_append])
    (List.forall_mem_map.2 fun cell member =>
      (congrArg Token.kind (same.1 cell member)).trans (string_of_mem_literals member))
    (fun _ first => by
      rw [List.head?_map, Option.mem_def, Option.map_eq_some_iff] at first
      obtain ⟨cell, first, rfl⟩ := first
      rw [kinds cell (List.mem_of_mem_head? first)]
      exact not_string_of_trailing first)
  refine ⟨?_, ?_, ?_⟩
  · rw [literals]
    simpa using literal.filled
  · rw [literals, contentsOf_map same.1, (info_mapTokens f node).2, literal.spells]
  · rw [trailing]
    exact literal.stray.map kinds

theorem Literate.mapTokens {f : Cell → Cell} (literate : node.Literate errors)
    (same : ∀ cell ∈ node.ownedTokens, (f cell).toToken = cell.toToken) :
    (node.mapTokens f).Literate (errors.map fun error => { error with cell := f error.cell }) := by
  induction literate with
  | @mk node literal _ ih =>
    refine .mk (fun string => ?_) fun child member => ?_
    · refine (literal (kind_mapTokens f node ▸ string)).mapTokens fun cell own => same cell ?_
      exact Node.mem_ownedTokens.2 ⟨node, mem_listed.2 (.inl rfl), own⟩
    · rw [nodes_mapTokens] at member
      obtain ⟨bare, listed, rfl⟩ := List.mem_map.1 member
      refine ih bare listed fun cell owned => same cell ?_
      exact owned_of_listed (mem_listed.2 (.inr ⟨bare, listed, mem_listed.2 (.inl rfl)⟩)) owned

end Node

end TolerantParser
