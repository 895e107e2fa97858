import TolerantParser.Proofs.Document.RoundTrip
import TolerantParser.Proofs.Lexer.Leaps

/-!
Placeholders. Where a name is missing one is put in, and an error is recorded for it. A statement that nests too
deeply is given up with its errors, but no token is ever taken out: the names that were put in for it stay behind.
The errors that are left have their names all the same, each in front of the token where it was found and in a node of
its own.
-/

namespace TolerantParser

open TokenStream (significant)

variable {spaced calm : Prop} {tree : Node}

/-- Of parts that have nothing in common at most one holds a thing. -/
theorem filter_eq_singleton {α β : Type} {parts : α → List β} {holds : α → Bool} {list : List α}
    (nodup : (list.flatMap parts).Nodup) (thing : β) (within : ∀ a, holds a → thing ∈ parts a) {a : α}
    (member : a ∈ list) (here : holds a) : list.filter holds = [a] := by
  have apart := (List.nodup_flatMap.1 nodup).2.sublist (List.filter_sublist : (list.filter holds).Sublist list)
  have listed : a ∈ list.filter holds := List.mem_filter.2 ⟨member, here⟩
  have each : ∀ b ∈ list.filter holds, thing ∈ parts b := fun b among => within b (List.mem_filter.1 among).2
  generalize list.filter holds = found at apart listed each
  match found with
  | [] => cases listed
  | [b] => rw [List.mem_singleton.1 listed]
  | b :: c :: rest =>
    have both := (List.pairwise_cons.1 apart).1 c (by simp)
    exact (both (each b (by simp)) (each c (by simp))).elim

/-- A placeholder is a placeholder with comments as well. -/
theorem Node.Placeholder.commented {node : Node} (placeholder : node.Placeholder) (plan : CommentPlan)
    (around : Option Bounds) : (node.commented plan around).Placeholder :=
  ⟨(Node.kind_commented plan around node).trans placeholder.kind,
    (Node.detail_commented plan around node).trans placeholder.detail⟩

namespace Document

variable {document : Document} {lost names : List Cell}

/-- A node of a tree is, with its comments, a node of the document, unless it is the root. -/
theorem Kept.exists_commented (kept : document.Kept spaced calm tree lost) {node : Node} (listed : node ∈ tree.listed)
    (inner : node.kind ≠ .document) :
    ∃ around, node.commented (tree.plan document.tokens) around ∈ document.tree.listed := by
  rcases Node.mem_listed.1 listed with rfl | ⟨child, member, inside⟩
  · exact absurd kept.root inner
  · obtain ⟨outer, here⟩ := Node.listed_commented (tree.plan document.tokens) none inside
    rw [kept.attached]
    exact ⟨outer, Node.mem_listed_attachComments.2 (.inr ⟨child, member, here⟩)⟩

/-- What the tree has lost of a document is in starred items that were dropped for others. -/
theorem Kept.superseded (kept : document.Kept spaced calm tree lost) {cell : Cell} (listed : cell ∈ document.tokens)
    (met : cell.kind ≠ .comment) (loose : cell ∉ tree.ownedTokens) :
    ∃ node ∈ document.tree.listed, node.InSupersededItem document.tokens cell := by
  have sorted : (significant document.tokens).Pairwise (·.index < ·.index) :=
    (pairwise_index kept.covers.numbered).sublist List.filter_sublist
  obtain ⟨node, among, superseded⟩ := kept.spans.superseded kept.covers.numbered sorted
    (by rw [List.nil_append, List.append_nil]) (List.mem_filter.2 ⟨listed, by simpa using met⟩) loose
  obtain ⟨around, here⟩ := kept.exists_commented among fun root => by
    have starred := superseded.1
    rw [root] at starred
    cases starred
  exact ⟨_, here, superseded.commented kept.covers.hangs.comment⟩

/-- What no node superseded is in the tree. -/
theorem Kept.owned_of_seen (kept : document.Kept spaced calm tree lost) {cell : Cell} (listed : cell ∈ document.tokens)
    (met : cell.kind ≠ .comment) (seen : ∀ node ∈ document.tree.listed, ¬ node.InSupersededItem document.tokens cell) :
    cell ∈ tree.ownedTokens := by
  by_contra loose
  obtain ⟨node, among, superseded⟩ := kept.superseded listed met loose
  exact seen node among superseded

/-- The node of a document that has a token is the only one. -/
theorem Kept.holder (kept : document.Kept spaced calm tree lost) {node : Node} {cell : Cell}
    (among : node ∈ document.tree.listed) (own : cell ∈ node.tokens) :
    document.tree.listed.filter (cell ∈ ·.tokens) = [node] :=
  filter_eq_singleton kept.nodup_held cell
    (fun inner holds => List.mem_append_left _ (List.mem_append_right _ (by simpa using holds))) among
    (by simpa using own)

theorem Kept.exists_holder (kept : document.Kept spaced calm tree lost) {cell : Cell}
    (owned : cell ∈ tree.ownedTokens) :
    ∃ node, document.tree.listed.filter (cell ∈ ·.tokens) = [node] := by
  obtain ⟨bare, listed, own⟩ := Node.mem_ownedTokens.1 owned
  obtain ⟨node, among, subset⟩ := Node.exists_tokens_subset document.tokens listed
  exact ⟨node, kept.holder (kept.attached ▸ among) (subset own)⟩

/-- A name that was put in for an error is in a node that stands for the missing name. -/
theorem Kept.holder_of_name (kept : document.Kept spaced calm tree lost)
    (owners : tree.OnlyPlaceholdersOwn (names.map Cell.index))
    {cell : Cell} (owned : cell ∈ tree.ownedTokens) (name : cell ∈ names) :
    ∃ node, document.tree.listed.filter (cell ∈ ·.tokens) = [node] ∧ node.Placeholder := by
  obtain ⟨bare, listed, own⟩ := Node.mem_ownedTokens.1 owned
  have placeholder := owners.listed listed own (List.mem_map_of_mem name)
  obtain ⟨around, attached⟩ := kept.exists_commented listed fun root => by
    have kind := placeholder.kind
    rw [root] at kind
    cases kind
  refine ⟨_, kept.holder attached ?_, placeholder.commented _ _⟩
  rw [Node.tokens_commented]
  exact List.mem_append_left _ own

/-- Each token of the document that is not one of the text was put in for a missing name. Those for the errors about
missing names, one for each, are there in the order of the errors, and stand in front of the tokens where these were
found. Each is in one node only, unless it is in a starred argument or parameter behind which there is another one of
its sort; and if it is one for an error the node is a name. If no statement was given up, no other tokens were put in,
and the errors were found at tokens of the text. -/
theorem missingNames_placeholders (limits : Limits) (d : Dialect) (options : ParseOptions) (text : String) :
    ∃ document, ofText? limits d options text = .ok document ∧ document.lexed = lex d text ∧
      (∀ cell ∈ document.placeholders, cell.kind = .name ∧ cell.text = missingName) ∧
      ∃ names, names.Sublist document.placeholders ∧
        List.Forall₂ (fun cell error => StandsBefore document.tokens cell error.cell) names document.missingNames ∧
        (∀ cell ∈ document.placeholders, (∀ node ∈ document.tree.listed, ¬ node.InSupersededItem document.tokens cell) →
          ∃ node, document.tree.listed.filter (cell ∈ ·.tokens) = [node] ∧
            (cell ∈ names → node.kind = .name ∧ node.id = missingName)) ∧
        (document.StarsOnce → ∀ node ∈ document.tree.listed, ∀ cell, ¬ node.InSupersededItem document.tokens cell) ∧
        (document.Calm → names = document.placeholders ∧ ∀ error ∈ document.missingNames,
          error.cell.synthetic = false) := by
  obtain ⟨document, parses, parsed⟩ := ofText?_ok limits d options text
  have real : ∀ token ∈ lex d text, token.synthetic = false := fun token member =>
    (genuine_lex d text token member).real
  have filled : ∀ cell ∈ document.placeholders, cell.kind = .name ∧ cell.text = missingName := fun cell member =>
    parsed.mends.missing real cell.toToken (List.mem_map_of_mem (List.mem_filter.1 member).1)
      (List.mem_filter.1 member).2
  obtain ⟨tree, bare⟩ := parsed.tree
  obtain ⟨lost, kept⟩ := bare.kept parsed
  obtain ⟨names, errorNames⟩ := bare.errorNames real
  refine ⟨document, parses, parsed.lexed_eq, filled, names, errorNames.among, errorNames.stands,
    fun cell put seen => ?_,
    fun once node listed cell superseded => superseded.not_starsOnce (once node listed),
    fun calm => ⟨errorNames.all calm, errorNames.real calm⟩⟩
  have owned : cell ∈ tree.ownedTokens :=
    kept.owned_of_seen (List.mem_filter.1 put).1 (by simp [(filled cell put).1]) seen
  by_cases name : cell ∈ names
  · obtain ⟨node, only, placeholder⟩ := kept.holder_of_name errorNames.owners owned name
    exact ⟨node, only, fun _ => ⟨placeholder.kind, by rw [Node.id, placeholder.detail]⟩⟩
  · obtain ⟨node, only⟩ := kept.exists_holder owned
    exact ⟨node, only, fun also => absurd also name⟩

/-- The characters of a statement that has a name missing and then nests too deeply. -/
def deepChars : List Char := ['a', '.'] ++ List.replicate 500 '(' ++ ['\n']

/-- How many tokens were put in while some characters were parsed, and how many errors about missing names there
are. -/
def countMissing (d : Dialect) (chars : List Char) : Option (Nat × Nat) :=
  match ofTokens? .usual d .default ((Scan.start chars).leaps d (LineIndex.ofChars chars) (chars.length + 1)) with
  | .ok document => some (document.placeholders.length, document.missingNames.length)
  | .error _ => none

theorem exists_of_countMissing {d : Dialect} {chars : List Char} {placeholders missing : Nat}
    (counted : countMissing d chars = some (placeholders, missing)) :
    ∃ document, ofText? .usual d .default (String.ofList chars) = .ok document ∧
      document.placeholders.length = placeholders ∧ document.missingNames.length = missing := by
  rw [countMissing] at counted
  rw [ofText?, lex_eq_leaps d String.toList_ofList]
  split at counted
  next document parses =>
    obtain ⟨rfl, rfl⟩ := Prod.mk.inj (Option.some.inj counted)
    exact ⟨document, parses, rfl, rfl⟩
  next => cases counted

set_option maxRecDepth 100000 in
/-- When the statement is given up its error goes, and the name that was put in stays. -/
theorem placeholder_of_deepChars : ∃ document, ofText? .usual .v26 .default (String.ofList deepChars) = .ok document ∧
    document.placeholders.length = 1 ∧ document.missingNames.length = 0 :=
  exists_of_countMissing (by decide +kernel)

end Document

end TolerantParser
