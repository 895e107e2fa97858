import TolerantParser.Proofs.Document.Parsing
import TolerantParser.Proofs.Document.Spacing
import TolerantParser.Proofs.Document.Subtrees
import TolerantParser.Proofs.Lexer.Restyled
import TolerantParser.Proofs.Printer.Settled

/-!
Formatting. A text without errors that its tree is printed back as may be printed with any preferences: what comes
has the same tokens but for the line ends, is parsed without errors to a tree that shows the same, and is printed with
these preferences as it is.
-/

namespace TolerantParser

open TokenStream (significant)

variable {limits : Limits} {prefs : Prefs} {previous : Option TokenKind}

/-! ### Tokens -/

/-- The same token, if it is not one that ends a line with a text: such a one may have another text. -/
structure Token.Restyled (token other : Token) : Prop where
  kind : other.kind = token.kind
  text : other.text = token.text ∨ token.kind = .newline ∧ token.text ≠ "" ∧ other.text ≠ ""

namespace Prefs

theorem Styles.restyled {token other : Token} (styles : prefs.Styles previous token other) : token.Restyled other := by
  refine ⟨styles.kind, ?_⟩
  have text := styles.text
  unfold textWritten at text
  split at text
  next line =>
    obtain ⟨newline, filled⟩ := Bool.and_eq_true_iff.1 line
    have some : token.text ≠ "" := fun empty => by simp [empty] at filled
    refine .inr ⟨eq_of_beq newline, some, fun nothing => ?_⟩
    rw [nothing] at text
    exact lineEnd_ne_nil (fun empty => some (String.toList_eq_nil_iff.1 empty)) text.symm
  next => exact .inl (String.toList_inj.1 text)

theorem Styled.restyled {tokens others : List Token} (styled : prefs.Styled previous tokens others) :
    List.Forall₂ Token.Restyled tokens others := by
  induction styled with
  | nil => exact .nil
  | cons styles _ ih => exact .cons styles.restyled ih

end Prefs

theorem Token.Restyled.matches {token other : Token} (same : token.Restyled other) : token.Matches other :=
  ⟨same.kind.symm, fun plain => (same.text.resolve_right fun line => plain line.1).symm⟩

/-- What a parse sees of tokens and comments is what it sees of the tokens. -/
theorem significantTokens_restyled {d : Dialect} {text other : String}
    (same : List.Forall₂ Token.Restyled (lex d text) (lex d other)) :
    List.Forall₂ Token.Matches (significantTokens d text) (significantTokens d other) :=
  significantTokens_matches (same.imp fun _ _ => Token.Restyled.matches)

/-! ### Printing -/

theorem Node.print?_eq_ok_iff {node : Node} {text : String} :
    node.print? limits prefs = .ok text ↔ node.depth ≤ limits.printed ∧ prefs.write node.written.2 = text := by
  rw [Node.print?, Node.requireDepth]
  split
  next shallow => exact ⟨fun prints => ⟨shallow, Except.ok.inj prints⟩, fun prints => congrArg Except.ok prints.2⟩
  next deep => exact ⟨(fun prints => by cases prints), fun prints => absurd prints.1 deep⟩

namespace Document

variable {document other : Document} {spaced calm : Prop} {tree : Node} {lost : List Cell} {d : Dialect}
  {options : ParseOptions} {text : String}

/-- The tokens of a tree that has lost nothing are written in the order of the document. -/
theorem Kept.significant_all (kept : document.Kept spaced calm tree []) :
    significant document.tree.written.2 = significant document.tokens := by
  have written := kept.covers.written_perm
  have ordered := kept.covers.significant_ordered
  rw [← kept.attached] at written ordered
  have sorted : (significant document.tokens).Pairwise (·.index < ·.index) :=
    (pairwise_index kept.covers.numbered).sublist List.filter_sublist
  refine ((written.trans kept.held).filter _).eq_of_pairwise (fun a b _ _ less more => ?_) ordered sorted
  exact absurd (Nat.lt_trans less more) (Nat.lt_irrefl _)

/-- Tokens of a text, some of which repair may have put in. -/
theorem settled_tokens {cells : List Cell}
    (bare : ∀ cell ∈ cells, cell.kind.isLayout → cell.text = "" ∧ cell.lead = "")
    (apart : OffCommas ((significant cells).map (·.kind))) : Prefs.Settled none (cells.map Cell.toToken) := by
  refine Prefs.settled_of_offCommas (fun token member => ?_) ?_ nofun
  · obtain ⟨cell, listed, rfl⟩ := List.mem_map.1 member
    exact bare cell listed
  · rw [Scan.met, List.map_map, List.filter_map]
    exact apart

/-- The tree of a text without errors is written as the tokens of the text, if it has lost none. -/
theorem Kept.dress_written (kept : document.Kept spaced calm tree []) (parsed : Parsed (lex d text) document)
    (clean : document.errors = []) (prefs : Prefs) :
    prefs.dress none (document.tree.written.2.map Cell.toToken) = prefs.dress none (lex d text) := by
  have bare : ∀ cell ∈ document.tokens, cell.kind.isLayout → cell.text = "" ∧ cell.lead = "" := fun cell member =>
    (parsed.genuine clean cell member).bare
  have apart : OffCommas ((significant document.tokens).map (·.kind)) := by
    have laid := (laid_lex d text).offCommas
    rwa [← parsed.quiet clean, Scan.met, List.map_map, List.filter_map] at laid
  have written := settled_tokens (fun cell member => bare cell (kept.written_subset cell member))
    (kept.significant_all.symm ▸ apart)
  have plain : ∀ cells : List Cell, (cells.map Cell.toToken).filter (!·.kind.isLayout) =
      (visible cells).map Cell.toToken := fun cells => List.filter_map
  rw [written.dress_plain, plain, kept.visible_all, ← plain, ← (settled_tokens bare apart).dress_plain,
    parsed.quiet clean]

/-- A text without errors is printed as its tokens are written, if its tree has lost none. -/
theorem Kept.print_dressed (kept : document.Kept spaced calm tree []) (parsed : Parsed (lex d text) document)
    (clean : document.errors = []) (shallow : document.tree.depth ≤ limits.printed) (prefs : Prefs) :
    document.tree.print? limits prefs = .ok (String.ofList (prefs.dress none (lex d text))) := by
  refine Node.print?_eq_ok_iff.2 ⟨shallow, ?_⟩
  rw [← String.toList_inj, Prefs.toList_write, kept.dress_written parsed clean, String.toList_ofList]

/-- The tokens of the bare tree of a document are all seen. -/
theorem Kept.length_seen (kept : document.Kept spaced calm tree lost) :
    (document.tree.ownedTokens.filterMap document.sight).length + lost.length =
      (significant document.tokens).length := by
  have same : document.tree.sketch document.sight (fun _ => ()) = tree.sketch document.sight fun _ => () := by
    rw [kept.attached]
    exact Node.sketch_attachComments document.unseen_sight ..
  have all : ∀ cells : List Cell, (∀ cell ∈ cells, cell.kind ≠ .comment) →
      (cells.filterMap document.sight).length = cells.length := by
    intro cells plain
    have seen : cells.filterMap document.sight = cells.map fun cell => ⟨cell.gist, document.rank cell⟩ := by
      rw [← List.filterMap_eq_map]
      exact List.filterMap_congr fun cell member => sight_eq (plain cell member)
    rw [seen, List.length_map]
  rw [(Node.of_sketch_eq _ _ same).2, all _ kept.covers.plain, ← List.length_append]
  exact kept.whole.length_eq.symm

/-- If one of two documents with as many tokens and the same sketch has lost nothing, neither has the other. -/
theorem Kept.lost_eq_nil {spaced' calm' : Prop} {tree' : Node} (kept : document.Kept spaced calm tree [])
    (kept' : other.Kept spaced' calm' tree' lost) (sketch : document.sketch = other.sketch)
    (same : (significant document.tokens).length = (significant other.tokens).length) : lost = [] := by
  have seen := kept.length_seen
  have seen' := kept'.length_seen
  rw [(Node.of_sketch_eq _ _ sketch).2, List.length_nil, Nat.add_zero] at seen
  exact List.eq_nil_of_length_eq_zero (by omega)

/-- A document without stars has no two starred items. -/
theorem Kept.starsOnce (kept : document.Kept spaced calm tree lost)
    (starless : ∀ cell ∈ document.tokens, cell.kind.isStar = false) : document.StarsOnce := by
  rw [StarsOnce, kept.attached, kept.covers.starsOnce_iff kept.root]
  intro node listed
  have none : ∀ kind : TokenKind, kind.isStar → node.tokens.countP (node.opensItem document.tokens kind) = 0 := by
    refine fun kind star => List.countP_eq_zero.2 fun cell own opens => ?_
    have same : cell.kind = kind := eq_of_beq (Bool.and_eq_true_iff.1 opens).1
    have plain := starless cell (kept.covers.owned cell (Node.owned_of_listed listed (Node.owned_of_mem own)))
    rw [same, star] at plain
    cases plain
  rw [Node.StarsOnce, none .star rfl, none .doubleStar rfl]
  exact fun _ => ⟨Nat.zero_le 1, Nat.zero_le 1⟩

theorem length_significant (parsed : Parsed (lex d text) document) (clean : document.errors = []) :
    (significant document.tokens).length = (significantTokens d text).length := by
  rw [significantTokens, ← parsed.quiet clean, List.filter_map, List.length_map]
  rfl

theorem errors_eq_nil_iff : document.errors = [] ↔ document.findings = [] := List.map_eq_nil_iff.symm

/-- If a text has no errors and its tree is printed back as the text, then with any preferences the tree is printed as a
text that has the same kinds of tokens and, but for those that end lines, the same tokens, that has no errors either and
a tree with the same nodes over the same tokens, and that is printed with the same preferences as it is. -/
theorem print_formatted {document : Document} (parses : ofText? limits d options text = .ok document)
    (clean : document.errors = []) (prints : document.tree.print? limits .keep = .ok text) (prefs : Prefs) :
    ∃ formatted document', document.tree.print? limits prefs = .ok formatted ∧
      List.Forall₂ Token.Restyled (lex d text) (lex d formatted) ∧
      ofText? limits d options formatted = .ok document' ∧ document'.errors = [] ∧ document'.sketch = document.sketch ∧
      document'.tree.print? limits prefs = .ok formatted := by
  obtain ⟨_, same, back⟩ := print_eq_text_iff limits d options text
  obtain rfl := Except.ok.inj (parses.symm.trans same)
  obtain ⟨_, same, parsed⟩ := ofText?_ok limits d options text
  obtain rfl := Except.ok.inj (parses.symm.trans same)
  obtain ⟨tree, lost, kept⟩ := parsed.kept
  obtain rfl := kept.stars.2 ((back clean text prints).1 rfl)
  have shallow := (Node.print?_eq_ok_iff.1 prints).1
  have printed := kept.print_dressed parsed clean shallow prefs
  -- The text is cut into the tokens that were written.
  have proper : ∀ token ∈ lex d text, token.kind ≠ .error := fun token member error => by
    refine error_notMem_of_awaitedAfter (parsed.nested clean) ?_
    rw [← parsed.quiet clean] at member
    obtain ⟨cell, listed, rfl⟩ := List.mem_map.1 member
    exact error ▸ List.mem_map_of_mem (f := fun cell : Cell => cell.kind) listed
  have styled := lex_restyled d prefs text proper
  generalize formed : String.ofList (prefs.dress none (lex d text)) = formatted at printed styled
  have matching := significantTokens_restyled styled.restyled
  -- The parse sees the same of it.
  obtain ⟨_, document', same, parses', sketch, findings⟩ := ofText?_spacing limits d options matching
  obtain rfl := Except.ok.inj (parses.symm.trans same)
  have clean' : document'.errors = [] := errors_eq_nil_iff.2 (findings ▸ errors_eq_nil_iff.1 clean)
  obtain ⟨_, same, parsed'⟩ := ofText?_ok limits d options formatted
  obtain rfl := Except.ok.inj (parses'.symm.trans same)
  -- So its tree has lost nothing either.
  obtain ⟨tree', lost, kept'⟩ := parsed'.kept
  obtain rfl := kept.lost_eq_nil kept' sketch (by
    rw [length_significant parsed clean, length_significant parsed' clean', matching.length_eq])
  have depth := (Node.of_sketch_eq _ _ sketch).1
  refine ⟨formatted, document', printed, styled.restyled, parses', clean', sketch.symm, ?_⟩
  rw [kept'.print_dressed parsed' clean' (depth ▸ shallow) prefs, styled.again, formed]

/-- A blank behind the comma, none in front of the comment, and a carriage return. -/
theorem print_formatted_call :
    ∃ document, ofText? .usual .v26 .default "f(x,y) # c\n" = .ok document ∧ document.errors = [] ∧
      document.tree.print? .usual .keep = .ok "f(x,y) # c\n" ∧
      ∃ formatted document', document.tree.print? .usual ⟨some 1, some 0, some .cr⟩ = .ok formatted ∧
        List.Forall₂ Token.Restyled (lex .v26 "f(x,y) # c\n") (lex .v26 formatted) ∧
        ofText? .usual .v26 .default formatted = .ok document' ∧ document'.errors = [] ∧
        document'.sketch = document.sketch ∧ document'.tree.print? .usual
          ⟨some 1, some 0, some .cr⟩ = .ok formatted := by
  have facts : (ofText? .usual .v26 .default "f(x,y) # c\n").toOption.map (fun document => decide
      (document.errors.length = 0 ∧ document.tree.depth ≤ Limits.usual.printed ∧
        ∀ cell ∈ document.tokens, cell.kind.isStar = false)) = some true := by decide +kernel
  obtain ⟨document, parses, back⟩ := print_eq_text_iff .usual .v26 .default "f(x,y) # c\n"
  obtain ⟨_, same, parsed⟩ := ofText?_ok .usual .v26 .default "f(x,y) # c\n"
  obtain rfl := Except.ok.inj (parses.symm.trans same)
  rw [parses] at facts
  obtain ⟨clean, shallow, starless⟩ := of_decide_eq_true (Option.some.inj facts)
  have clean := List.length_eq_zero_iff.1 clean
  obtain ⟨tree, lost, kept⟩ := parsed.kept
  have prints : document.tree.print? .usual .keep = .ok _ := Node.print?_eq_ok_iff.2 ⟨shallow, rfl⟩
  rw [(back clean _ prints).2 (kept.starsOnce starless)] at prints
  exact ⟨document, parses, clean, prints, print_formatted parses clean prints ⟨some 1, some 0, some .cr⟩⟩

end Document

end TolerantParser
