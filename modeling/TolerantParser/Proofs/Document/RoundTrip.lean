import Mathlib.Data.List.Flatten
import TolerantParser.Proofs.Document.Parsing
import TolerantParser.Proofs.Printer.Attached
import TolerantParser.Proofs.Tree.Stars

/-!
Nothing of a text is lost, however broken it is: the nodes of its tree hold every token of the document once
and the tree is printed as the tokens of the document. The one exception are calls and parameter lists with
several starred items of one sort, of which the tree keeps the last. Without errors the tokens are those of
the text, and the text comes back just where there is no such list.
-/

namespace TolerantParser

open TokenStream (significant)

/-! ### Trees with comments -/

variable {plan : CommentPlan} {tokens : List Cell} {node : Node} {around : Option Bounds}

theorem not_comment_of_following {cell next : Cell} (found : following tokens cell = some next) :
    next.kind ≠ .comment := by
  have plain := List.find?_some found
  simpa [Cell.isComment] using plain

section

variable (comments : ∀ spot, ∀ cell ∈ plan.commentsIn spot, cell.kind = .comment)

include comments

theorem kind_of_mem_insideOf {cells : List Cell} {cell : Cell} (member : cell ∈ plan.insideOf cells) :
    cell.kind = .comment := by
  obtain ⟨token, -, inside⟩ := mem_insideOf.1 member
  exact comments _ cell inside

theorem Node.opensItem_commented (kind : TokenKind) (cell : Cell) :
    (node.commented plan around).opensItem tokens kind cell = node.opensItem tokens kind cell := by
  rw [Node.opensItem, Node.opensItem, Node.tokens_commented]
  cases found : following tokens cell with
  | none => rfl
  | some next =>
    have notComment : next ∉ plan.insideOf node.tokens := fun member =>
      not_comment_of_following found (kind_of_mem_insideOf comments member)
    simp [notComment]

/-- Comments are no starred items. -/
theorem Node.starsOnce_commented :
    (node.commented plan around).StarsOnce tokens ↔ node.StarsOnce tokens := by
  have counts : ∀ kind : TokenKind, kind ≠ .comment →
      (node.commented plan around).tokens.countP ((node.commented plan around).opensItem tokens kind) =
        node.tokens.countP (node.opensItem tokens kind) := by
    intro kind other
    have none : (plan.insideOf node.tokens).countP (node.opensItem tokens kind) = 0 := by
      rw [List.countP_eq_zero]
      intro cell member
      simp [Node.opensItem, kind_of_mem_insideOf comments member, Ne.symm other]
    rw [funext (Node.opensItem_commented comments kind), Node.tokens_commented, List.countP_append, none, Nat.add_zero]
  rw [Node.StarsOnce, Node.StarsOnce, Node.kind_commented, counts .star (by decide),
    counts .doubleStar (by decide)]

theorem Node.InSupersededItem.commented {cell : Cell} (superseded : node.InSupersededItem tokens cell) :
    (node.commented plan around).InSupersededItem tokens cell := by
  obtain ⟨starred, kind, sort, star, mine, next, also, opens, again, behind, before, commaless⟩ := superseded
  have owned : node.tokens ⊆ (node.commented plan around).tokens := by
    rw [Node.tokens_commented]
    exact List.subset_append_left ..
  refine ⟨(Node.kind_commented plan around node).symm ▸ starred, kind, sort, star, owned mine, next, owned also, ?_, ?_,
    behind, before, fun other own later earlier => ?_⟩
  · rwa [Node.opensItem_commented comments]
  · rwa [Node.opensItem_commented comments]
  · rw [Node.tokens_commented, List.mem_append] at own
    rcases own with bare | comment
    · exact commaless other bare later earlier
    · rw [kind_of_mem_insideOf comments comment]
      decide

end

/-! ### The tree of a document -/

section

variable {limits : Limits} {tree : Node} {document : Document} {text : List Token}

theorem Node.Over.starsOnce_iff (covers : tree.Over tokens) (root : tree.kind = .document) :
    (∀ node ∈ (tree.attachComments tokens).listed, node.StarsOnce tokens) ↔
      ∀ node ∈ tree.listed, node.StarsOnce tokens := by
  have plain : ∀ node : Node, node.kind = .document → node.StarsOnce tokens := by
    intro node kind starred
    rw [kind] at starred
    cases starred
  constructor
  · intro all node listed
    rcases Node.mem_listed.1 listed with rfl | ⟨child, member, inside⟩
    · exact plain _ root
    · obtain ⟨outer, here⟩ := Node.listed_commented (tree.plan tokens) none inside
      exact (Node.starsOnce_commented covers.hangs.comment).1
        (all _ (Node.mem_listed_attachComments.2 (.inr ⟨child, member, here⟩)))
  · intro all node listed
    rcases Node.mem_listed_attachComments.1 listed with rfl | ⟨child, member, inside⟩
    · exact plain _ ((Node.kind_attachComments tree tokens).trans root)
    · obtain ⟨bare, here, outer, rfl⟩ := Node.mem_listed_commented inside
      exact (Node.starsOnce_commented covers.hangs.comment).2
        (all bare (Node.mem_listed.2 (.inr ⟨child, member, here⟩)))

/-- No call and no parameter list of the document has two starred items of one sort. -/
def Document.StarsOnce (document : Document) : Prop :=
  ∀ node ∈ document.tree.listed, node.StarsOnce document.tokens

/-- What a parse has given, with the tokens of the document that its tree lost. -/
structure Document.Kept (document : Document) (spaced calm : Prop) (tree : Node) (lost : List Cell) : Prop where
  attached : document.tree = tree.attachComments document.tokens
  root : tree.kind = .document
  spans : Spans spaced calm tree (significant document.tokens)
  placed : spaced → tree.Placed
  covers : tree.Over document.tokens
  whole : (significant document.tokens).Perm (tree.ownedTokens ++ lost)
  stars : lost = [] ↔ document.StarsOnce
  inline : calm → ∀ cell ∈ lost, cell.kind.isInline

theorem Document.BareTree.kept (bareTree : Document.BareTree text document tree)
    (parsed : Document.Parsed text document) :
    ∃ lost, document.Kept (Spaced text) (Document.Regular text document) tree lost := by
  obtain ⟨attached, root, spans, placed, -, -, before, last, split, ends, owned⟩ := bareTree
  have sorted : (significant document.tokens).Pairwise (·.index < ·.index) :=
    (pairwise_index parsed.numbered).sublist List.filter_sublist
  have covers : tree.Over document.tokens :=
    { separate := spans.separate sorted
      bare := spans.bare
      numbered := parsed.numbered
      owned := fun cell own => (List.mem_filter.1 (spans.owned_subset own)).1
      plain := fun cell own => by simpa using (List.mem_filter.1 (spans.owned_subset own)).2
      ended := fun final found => by
        rw [split, List.getLast?_concat, Option.mem_some] at found
        exact mem_marksOf.2 ⟨final, Node.owned_of_mem (found ▸ owned), by rw [← found, ends]; rfl, rfl⟩ }
  have within : significant document.tokens = [] ++ significant document.tokens ++ [] :=
    (List.append_nil _).symm
  obtain ⟨lost, keeps⟩ := spans.lost parsed.numbered sorted within
  refine ⟨lost, attached, root, spans, placed, covers, keeps.whole, ?_, keeps.inline⟩
  rw [keeps.stars, Document.StarsOnce, attached]
  exact (covers.starsOnce_iff root).symm

theorem Document.Parsed.kept (parsed : Document.Parsed text document) :
    ∃ tree lost, document.Kept (Spaced text) (Document.Regular text document) tree lost := by
  obtain ⟨tree, bareTree⟩ := parsed.tree
  exact ⟨tree, bareTree.kept parsed⟩

/-! ### Texts -/

theorem textOf_filter_ne {cells : List Cell} {keep : Cell → Bool} {cell : Cell} (listed : cell ∈ cells)
    (dropped : keep cell = false) (filled : cell.text ≠ "") : textOf (cells.filter keep) ≠ textOf cells := by
  have shorter : (textOf (cells.filter keep)).toList.length < (textOf cells).toList.length := by
    obtain ⟨before, after, rfl⟩ := List.append_of_mem listed
    have less : ∀ cells : List Cell, (textOf (cells.filter keep)).toList.length ≤
        (textOf cells).toList.length := by
      intro cells
      rw [toList_textOf, toList_textOf]
      exact (List.filter_sublist.flatMap _).length_le
    have front := less before
    have rest := less after
    have some : 0 < cell.text.toList.length := by
      rw [List.length_pos_iff]
      simpa [String.toList_eq_nil_iff] using filled
    have mine : 0 < cell.written.toList.length := by
      rw [Token.written, String.toList_append, List.length_append]
      omega
    simp only [toList_textOf, List.filter_append, List.filter_cons, dropped, List.flatMap_append,
      List.flatMap_cons, List.length_append] at front rest ⊢
    simp only [Bool.false_eq_true, if_false]
    omega
  intro same
  rw [same] at shorter
  exact Nat.lt_irrefl _ shorter

/-- Tokens none of which repair put in are written as they were read. -/
theorem textOf_eq_sourceOf {cells : List Cell} (real : ∀ cell ∈ cells, cell.synthetic = false) :
    (textOf cells).toList = sourceOf (cells.map Cell.toToken) := by
  rw [toList_textOf, sourceOf, List.flatMap_map]
  refine List.flatMap_congr fun cell member => ?_
  rw [real cell member, Token.written, String.toList_append]
  rfl

/-- Blocks begin and end without a text of their own. -/
theorem Document.Parsed.written_layout {d : Dialect} {source : String} (parsed : Parsed (lex d source) document) :
    ∀ cell ∈ document.tokens, cell.kind.isLayout → cell.written = "" := by
  intro cell listed layout
  have bare := parsed.mends.bare fun token member => (genuine_lex d source token member).bare
  obtain ⟨text, lead⟩ := bare cell.toToken (List.mem_map_of_mem listed) layout
  rw [Token.written, text, lead]
  rfl

theorem Document.Kept.nodup {spaced calm : Prop} {lost : List Cell} (kept : document.Kept spaced calm tree lost) :
    document.tokens.Nodup :=
  (pairwise_index kept.covers.numbered).imp fun less => ne_of_apply_ne Cell.index (Nat.ne_of_lt less)

theorem Document.Kept.mem_lost {spaced calm : Prop} {lost : List Cell} (kept : document.Kept spaced calm tree lost)
    {cell : Cell} : cell ∈ lost ↔
      cell ∈ document.tokens ∧ (cell.isComment || decide (cell ∈ tree.ownedTokens)) = false := by
  have parts : (tree.ownedTokens ++ lost).Nodup :=
    kept.whole.nodup_iff.1 (kept.nodup.filter _)
  have among := kept.whole.mem_iff (a := cell)
  simp only [significant, List.mem_filter, List.mem_append] at among
  rw [Bool.or_eq_false_iff, decide_eq_false_iff_not]
  constructor
  · intro missing
    obtain ⟨listed, plain⟩ := among.2 (.inr missing)
    exact ⟨listed, by simpa [Cell.isComment] using plain, fun owned =>
      (List.nodup_append'.1 parts).2.2 owned missing⟩
  · rintro ⟨listed, plain, loose⟩
    exact (among.1 ⟨listed, by simpa [Cell.isComment] using plain⟩).resolve_left loose

/-- The tree of a document is printed as its tokens, but for the lost ones. -/
theorem Document.Kept.print {spaced calm : Prop} {lost : List Cell} (kept : document.Kept spaced calm tree lost)
    (bare : ∀ cell ∈ document.tokens, cell.kind.isLayout → cell.written = "") {printed : String}
    (prints : document.tree.print? limits .keep = .ok printed) : printed = textOf
      (document.tokens.filter fun cell => cell.isComment || decide (cell ∈ tree.ownedTokens)) := by
  rw [kept.attached] at prints
  exact print_attachComments kept.covers bare prints

theorem Document.Kept.print_all {spaced calm : Prop} (kept : document.Kept spaced calm tree [])
    (bare : ∀ cell ∈ document.tokens, cell.kind.isLayout → cell.written = "") {printed : String}
    (prints : document.tree.print? limits .keep = .ok printed) : printed = textOf document.tokens := by
  rw [kept.print bare prints, List.filter_eq_self.2]
  intro cell listed
  by_contra missing
  exact List.not_mem_nil (kept.mem_lost.2 ⟨listed, by simpa using missing⟩)

/-- No two nodes of a document hold one token. -/
theorem Document.Kept.nodup_held {spaced calm : Prop} {lost : List Cell} (kept : document.Kept spaced calm tree lost) :
    document.tree.held.Nodup := by
  rw [kept.attached, (held_attachComments kept.covers).nodup_iff]
  have parts := kept.whole.nodup_iff.1 (kept.nodup.filter _)
  refine List.nodup_append'.2 ⟨parts.of_append_left, kept.nodup.filter _, fun cell owned comment => ?_⟩
  have here : cell.kind = .comment := by simpa [Cell.isComment] using (List.mem_filter.1 comment).2
  exact kept.covers.plain cell owned here

/-- A tree that has lost nothing holds all tokens of its document. -/
theorem Document.Kept.held {spaced calm : Prop} (kept : document.Kept spaced calm tree []) :
    document.tree.held.Perm document.tokens := by
  have whole := kept.whole
  rw [List.append_nil] at whole
  rw [kept.attached]
  refine (held_attachComments kept.covers).trans ((whole.symm.append_right _).trans ?_)
  exact List.perm_append_comm.trans (List.filter_append_perm Cell.isComment document.tokens)

end

/-- Without errors the tokens of a document are those of the text. -/
theorem Document.Parsed.genuine {d : Dialect} {source : String} (parsed : Parsed (lex d source) document)
    (none : document.errors = []) : ∀ cell ∈ document.tokens, Genuine d cell.toToken := fun _ member =>
  genuine_lex d source _ (parsed.quiet none ▸ List.mem_map_of_mem member)

theorem Document.Parsed.textOf_tokens {d : Dialect} {source : String} (parsed : Parsed (lex d source) document)
    (none : document.errors = []) : textOf document.tokens = source := by
  rw [← String.toList_inj, textOf_eq_sourceOf fun cell member => (parsed.genuine none cell member).real,
    parsed.quiet none, sourceOf_lex]

/-! ### Main results -/

/-- Without errors the text is what the tree is printed as, unless the arguments or the parameters of one
node have several starred items of one sort. -/
theorem Document.print_eq_text_iff (limits : Limits) (d : Dialect) (options : ParseOptions) (text : String) :
    ∃ document, Document.ofText? limits d options text = .ok document ∧
      (document.errors = [] → ∀ printed, document.tree.print? limits .keep = .ok printed →
        (printed = text ↔ document.StarsOnce)) := by
  obtain ⟨document, parses, parsed⟩ := Document.ofText?_ok limits d options text
  obtain ⟨tree, lost, kept⟩ := parsed.kept
  refine ⟨document, parses, fun none printed prints => ?_⟩
  have read := parsed.genuine none
  have whole := parsed.textOf_tokens none
  rw [← kept.stars]
  constructor
  · intro complete
    by_contra some
    obtain ⟨cell, missing⟩ := List.exists_mem_of_ne_nil _ some
    obtain ⟨listed, dropped⟩ := kept.mem_lost.1 missing
    have inline := kept.inline (Document.regular_lex d text (by simp [Document.Calm, none])) cell missing
    have shorter := kept.print parsed.written_layout prints
    rw [complete, ← whole] at shorter
    exact textOf_filter_ne listed dropped ((read cell listed).filled inline) shorter.symm
  · rintro rfl
    rw [kept.print_all parsed.written_layout prints, whole]

/-- The tree of a text holds each token of the document once and is printed as the tokens are written, unless
the arguments or the parameters of one node have several starred items of one sort. Without what repair put
in the tokens are the text. -/
theorem Document.tokens_kept (limits : Limits) (d : Dialect) (options : ParseOptions) (text : String) :
    ∃ document, Document.ofText? limits d options text = .ok document ∧
      (document.StarsOnce → document.tree.held.Perm document.tokens ∧ document.tokens.Nodup ∧
        ∀ printed, document.tree.print? limits .keep = .ok printed → printed = textOf document.tokens) ∧
      String.join (document.tokens.map fun cell =>
        if cell.synthetic then cell.lead else cell.written) = text := by
  obtain ⟨document, parses, parsed⟩ := Document.ofText?_ok limits d options text
  obtain ⟨tree, lost, kept⟩ := parsed.kept
  refine ⟨document, parses, fun once => ?_, ?_⟩
  · obtain rfl := kept.stars.2 once
    exact ⟨kept.held, kept.nodup, fun printed => kept.print_all parsed.written_layout⟩
  · have source := parsed.mends.source
    rw [sourceOf_lex, sourceOf, List.flatMap_map] at source
    rw [← String.toList_inj, String.toList_join, List.flatMap_map, ← source]
    refine List.flatMap_congr fun cell _ => ?_
    split
    next => exact (List.append_nil _).symm
    next => exact String.toList_append

end TolerantParser
