import TolerantParser.Proofs.Document.Parsing
import TolerantParser.Proofs.Lexeme.Delimited
import TolerantParser.Proofs.Lexer.Alone
import TolerantParser.Proofs.Printer.Written
import TolerantParser.Proofs.Tree.Sketch

/-!
The strings of a text. Whatever errors it has, each literal is delimited, and each string node says what its literals
say between their delimiters. Where a bracket is missing repair may hand on literals to the node that it has gone over
on the way to the closing bracket; these do not count.
-/

namespace TolerantParser

variable {d : Dialect} {errors : List ParseError} {node : Node} {plan : CommentPlan}

/-! ### Tokens -/

theorem delimited_lex {text : String} {token : Token} (member : token ∈ lex d text) (literal : token.kind = .string) :
    Delimited d token.text.toList := by
  have within : token.kind ∉ [.newline, .indent, .dedent, .endOfFile] := by simp [literal]
  cases (lex_strides d text).isPiece member within with
  | comment comment =>
    rw [literal] at comment
    cases comment
  | lexeme _ kind piece =>
    rw [piece]
    exact delimited_of_string (kind.symm.trans literal)

/-- No literal is put in. -/
theorem Mends.delimited {tokens mended : List Token} (mends : Mends tokens mended)
    (delimited : ∀ token ∈ tokens, token.kind = .string → Delimited d token.text.toList) :
    ∀ token ∈ mended, token.kind = .string → Delimited d token.text.toList :=
  mends.forall_mem (fun kind text => kind = .string → Delimited d text.toList) delimited nofun

/-! ### Nodes -/

theorem Node.ne_string_of_inside (planned : plan.OfComments) {tokens : List Cell} :
    ∀ cell ∈ plan.insideOf tokens, cell.kind ≠ .string := by
  intro cell member
  obtain ⟨token, -, inside⟩ := mem_insideOf.1 member
  have comment : cell.kind = .comment := eq_of_beq (planned _ cell inside)
  simp [comment]

/-- Comments come behind the tokens of a node. -/
theorem Node.Literal.commented (literal : node.Literal errors) (planned : plan.OfComments) (around : Option Bounds) :
    (node.commented plan around).Literal errors :=
  literal.followed (Node.detail_commented plan around node) (Node.tokens_commented ..)
    (fun cell first => Node.ne_string_of_inside planned cell (List.mem_of_mem_head? first))
    (stray_of_plain (Node.ne_string_of_inside planned))

/-- Either all literals of a node are those that it begins with, or a bracket was found to be missing at one of its
tokens. -/
theorem Node.Literal.all_or_unclosed (literal : node.Literal errors) :
    node.tokens.filter (·.kind == .string) = node.literals ∨ Unclosed errors node.tokens := by
  by_cases some : ∃ cell ∈ node.trailing, cell.kind = .string
  · exact .inr ((literal.stray some).mono (List.Subset.refl _) (List.dropWhile_sublist _).subset)
  · have front : node.literals.filter (·.kind == .string) = node.literals :=
      List.filter_eq_self.2 fun cell member => by simp [Node.string_of_mem_literals member]
    have none : node.trailing.filter (·.kind == .string) = [] :=
      List.filter_eq_nil_iff.2 fun cell member literal => some ⟨cell, member, eq_of_beq literal⟩
    exact .inl (by rw [node.tokens_eq_literals, List.filter_append, front, none, List.append_nil])

namespace Document

/-- A string node of a document, and where its literals are from. -/
theorem Parsed.literal {tokens : List Token} {document : Document} (parsed : Parsed tokens document)
    (listed : node ∈ document.tree.listed) (string : node.kind = .string) :
    node.Literal document.errors ∧ ∀ cell ∈ node.literals, cell ∈ document.tokens := by
  obtain ⟨tree, attached, root, spans, -, literate, -⟩ := parsed.tree
  have planned := CommentPlan.ofComments_ofDocument tree tree.children.outlines document.tokens
  rw [attached] at listed
  rcases Node.mem_listed_attachComments.1 listed with rfl | ⟨child, member, inside⟩
  · rw [Node.kind_attachComments, root] at string
    cases string
  · obtain ⟨bare, here, outer, rfl⟩ := Node.mem_listed_commented inside
    have among := Node.mem_listed.2 (.inr ⟨child, member, here⟩)
    have literal := literate.listed among (Node.kind_commented _ outer bare ▸ string)
    refine ⟨literal.commented planned outer, fun cell front => ?_⟩
    have own := (List.takeWhile_sublist _).subset front
    rw [Node.tokens_commented, List.mem_append] at own
    refine own.elim (fun own => ?_) fun comment => ?_
    · exact (List.mem_filter.1 (spans.owned_subset (Node.mem_ownedTokens.2 ⟨bare, among, own⟩))).1
    · exact absurd (Node.string_of_mem_literals front) (Node.ne_string_of_inside planned cell comment)

/-- Each literal of a text is delimited. Each string node of its tree begins with literals and says what is between
their delimiters; and these are all literals that it has, unless a bracket was found to be missing at one of its
tokens. -/
theorem strings_spelled (limits : Limits) (d : Dialect) (options : ParseOptions) (text : String) :
    (∀ token ∈ lex d text, token.kind = .string → Delimited d token.text.toList) ∧
    ∃ document, ofText? limits d options text = .ok document ∧
      ∀ node ∈ document.tree.listed, node.kind = .string →
        node.literals ≠ [] ∧ (∀ cell ∈ node.literals, Delimited d cell.text.toList) ∧
        node.info.detail = .string (contentsOf node.literals) ∧
        (node.tokens.filter (·.kind == .string) = node.literals ∨ Unclosed document.errors node.tokens) := by
  obtain ⟨document, parses, parsed⟩ := ofText?_ok limits d options text
  refine ⟨fun _ => delimited_lex, document, parses, fun node listed string => ?_⟩
  obtain ⟨literal, among⟩ := parsed.literal listed string
  refine ⟨literal.filled, fun cell member => ?_, literal.spells, literal.all_or_unclosed⟩
  exact parsed.mends.delimited (fun _ => delimited_lex) cell.toToken (List.mem_map_of_mem (among cell member))
    (Node.string_of_mem_literals member)

/-- A name stands where the parenthesis should be closed, and a literal behind it goes to the string with the
parenthesis. -/
theorem unspelled_of_missing_bracket : ∃ document, ofText? .usual .v26 .default "('a' x 'b')\n" = .ok document ∧
    ∃ node ∈ document.tree.listed, node.kind = .string ∧
      node.info.detail ≠ .string (contentsOf (node.tokens.filter (·.kind == .string))) := by
  have found : (ofText? .usual .v26 .default "('a' x 'b')\n").toOption.map (fun document =>
      document.tree.listed.any fun node => decide (node.kind = .string ∧ node.info.detail = .string "a" ∧
        contentsOf ((node.tokens.take 4).filter (·.kind == .string)) = "ab")) = some true := by
    decide +kernel
  obtain ⟨document, parses, -⟩ := ofText?_ok .usual .v26 .default "('a' x 'b')\n"
  rw [parses] at found
  obtain ⟨node, listed, facts⟩ := List.any_eq_true.1 (Option.some.inj found)
  obtain ⟨string, detail, front⟩ := of_decide_eq_true facts
  refine ⟨document, parses, node, listed, string, fun spelled => ?_⟩
  rw [← List.take_append_drop 4 node.tokens, List.filter_append, contentsOf_append, front, detail] at spelled
  have lengths := congrArg String.length (Detail.string.inj spelled)
  rw [String.length_append, show "a".length = 1 from rfl, show "ab".length = 2 from rfl] at lengths
  omega

end Document

end TolerantParser
