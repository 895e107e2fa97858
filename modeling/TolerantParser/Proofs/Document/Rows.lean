import TolerantParser.Proofs.Document.Parameters
import TolerantParser.Proofs.Lexer.Alone

/-!
Lists of children that are read in step. Whatever errors a text has, each dictionary has a value or a gap for each key,
each comparison an operator for each two operands, and it is what stands between them; hints and defaults of parameters
are as many as the parameters, and lists that should not be empty are not.
-/

namespace TolerantParser

open TokenStream (significant)

variable {d : Dialect} {spaced calm : Prop} {node tree : Node} {run : List Cell}

/-! ### Words of operators -/

/-- The words that operators of two words are made of. -/
def operatorWords : List (String × TokenKind) := [("not", .kwNot), ("in", .kwIn), ("is", .kwIs)]

/-- If the kind is that of a word of an operator, the text is that word. -/
def WellSpelled (kind : TokenKind) (text : String) : Prop :=
  kind ∈ operatorWords.map Prod.snd → (text, kind) ∈ operatorWords

theorem wellSpelled_lex {text : String} {token : Token} (member : token ∈ lex d text) :
    WellSpelled token.kind token.text := by
  have words : ∀ kind ∈ operatorWords.map Prod.snd, kind ∈ d.wordKinds := by
    cases d <;> decide
  have same : ∀ word ∈ d.keywords, word.2 ∈ operatorWords.map Prod.snd → word ∈ operatorWords := by
    cases d <;> decide
  exact fun word => same _ (mem_keywords_of_mem_lex member (words _ word)) word

/-- The tokens of an operator, with a blank between two words, are what the operator is written as. -/
theorem Spelled.eq_intercalate {op : String} {cells : List Cell} (spelled : Spelled op cells)
    (words : ∀ cell ∈ cells, WellSpelled cell.kind cell.text) : op = " ".intercalate (cells.map (·.text)) := by
  have known : ∀ (kind : TokenKind) (text word : String), WellSpelled kind text → (word, kind) ∈ operatorWords →
      text = word := by
    intro kind text word wellSpelled listed
    have one : ∀ a ∈ operatorWords, ∀ b ∈ operatorWords, a.2 = b.2 → a.1 = b.1 := by decide
    exact one _ (wellSpelled (List.mem_map_of_mem listed)) _ listed rfl
  cases spelled with
  | one cell => simp
  | @notIn first second not word =>
    have here := known .kwNot first.text "not" (not ▸ words first (by simp)) (by decide)
    have there := known .kwIn second.text "in" (word ▸ words second (by simp)) (by decide)
    simp only [List.map_cons, List.map_nil, here, there]
    rfl
  | @isNot first second word not =>
    have here := known .kwIs first.text "is" (word ▸ words first (by simp)) (by decide)
    have there := known .kwNot second.text "not" (not ▸ words second (by simp)) (by decide)
    simp only [List.map_cons, List.map_nil, here, there]
    rfl

/-! ### Rows of a node -/

/-- The token is one of the node's own, other than a comment, and stands between the two nodes. -/
def Node.Between (node left right : Node) (cell : Cell) : Prop :=
  cell ∈ node.tokens ∧ cell.kind ≠ .comment ∧ left.EndsBefore cell ∧ right.ComesBehind cell

/-- The operator is what the tokens of the node between the two operands spell, with a blank between two words. There
is something of either operand. -/
structure Node.Operates (node : Node) (op : String) (left right : Node) : Prop where
  spelled : ∃ cells, cells.Pairwise (fun cell next : Cell => cell.index < next.index) ∧
    (∀ cell, cell ∈ cells ↔ node.Between left right cell) ∧ cells ≠ [] ∧ op = " ".intercalate (cells.map (·.text))
  left : left.ownedTokens ≠ []
  right : right.ownedTokens ≠ []

/-- There is a value or a gap for each key, and each value comes behind its key and before the next key. -/
structure Node.Dictionary (node : Node) : Prop where
  keys : none ∉ node.entries .keys
  length : (node.entries .values).length = (node.entries .keys).length
  inOrder : ∀ place key value, (node.entries .keys)[place]? = some (some key) →
    (node.entries .values)[place]? = some (some value) →
      key.Before value ∧ ∀ next, (node.entries .keys)[place + 1]? = some (some next) → value.Before next
  filled : ∀ child ∈ node.children.nodes, child.ownedTokens ≠ []

/-- There is an operator for each two operands that follow one another, and it is what is written between these. -/
structure Node.Comparison (node : Node) : Prop where
  full : none ∉ node.entries .comparators
  between : ∃ ops left, node.info.detail = .comparison ops ∧ ops ≠ [] ∧ node.entries .left = [some left] ∧
    Interposed node.Operates ops (left :: nodesUnder .comparators node.children.toList)

/-- Hints and defaults are as many as the parameters, and those that need not be written are no more. -/
structure Node.Level (node : Node) : Prop where
  hints : (node.entries .hints).length = (node.entries .args).length
  keywordHints : (node.entries .keywordHints).length = (node.entries .keywordOnly).length
  keywordDefaults : (node.entries .keywordDefaults).length = (node.entries .keywordOnly).length
  defaults : (node.entries .defaults).length ≤ (node.entries .args).length

/-- The lists of the node go with one another, and they are as long as they should be. -/
structure Node.InRows (node : Node) : Prop where
  dictionary : node.kind = .dict → node.Dictionary
  comparison : node.kind = .comparison → node.Comparison
  parameters : node.kind = .parameters → node.Level
  long : ∀ demand ∈ node.kind.demand?, demand.2 ≤ (nodesUnder demand.1 node.children.toList).length

/-! ### Trees without comments -/

section

variable {pieces : List Piece}

theorem pairwise_before (below : ∀ inner span, .node inner span ∈ pieces → Spans spaced calm inner span)
    (sorted : (cellsOf pieces).Pairwise (·.index < ·.index)) : (nodesOf pieces).Pairwise Node.Before := by
  induction pieces with
  | nil => exact .nil
  | cons piece pieces ih =>
    have later := ih (fun inner span member => below inner span (List.mem_cons_of_mem _ member))
      (List.pairwise_append.1 sorted).2.1
    cases piece with
    | token => exact later
    | node inner span =>
      refine List.pairwise_cons.2 ⟨fun next among => ?_, later⟩
      have whole : Piece.node inner span :: pieces = [.node inner span] ++ pieces := rfl
      exact before_of_append (whole ▸ below) (whole ▸ sorted) (by simp) among

variable (parts : Parts spaced calm node pieces)
  (below : ∀ inner span, .node inner span ∈ pieces → Spans spaced calm inner span)
  (sorted : (cellsOf pieces).Pairwise (·.index < ·.index))

include parts below

theorem Parts.dictionary (sorted : (cellsOf pieces).Pairwise (·.index < ·.index)) (same : node.kind = .dict) :
    node.Dictionary := by
  obtain ⟨keys, length, turns, filled⟩ := parts.rows.keyed same
  have inOrder := turns ▸ pairwise_before below sorted
  refine ⟨keys, length, fun place key value here there => ?_, fun child member => ?_⟩
  · have named : ∀ {place key}, (node.entries .keys)[place]? = some (some key) →
        (nodesUnder .keys node.children.toList)[place]? = some key := fun {place key} here => by
      rw [show node.entries .keys = _ from keys.entries, List.getElem?_map, Option.map_eq_some_iff] at here
      obtain ⟨other, listed, same⟩ := here
      exact Option.some.inj same ▸ listed
    obtain ⟨before, later⟩ := pairwise_byTurns inOrder (named here) there
    refine ⟨before, fun next listed => later next (named listed) ?_⟩
    rw [length]
    exact (List.getElem?_eq_some_iff.1 listed).1
  · obtain ⟨span, here⟩ := mem_nodesOf (parts.nodes.subset member)
    exact (below child span here).exists_owned (filled _ here)

theorem Parts.operates (sorted : (cellsOf pieces).Pairwise (·.index < ·.index))
    (plain : ∀ cell ∈ cellsOf pieces, cell.kind ≠ .comment ∧ WellSpelled cell.kind cell.text) {op : String}
    {left right : Node} (joins : Joins pieces op left right) : node.Operates op left right := by
  obtain ⟨front, run, cells, span, back, split, spelled, filled, filled'⟩ := joins
  have first : left.ownedTokens ≠ [] := (below left run (by simp [split])).exists_owned filled
  have second : right.ownedTokens ≠ [] := (below right span (by simp [split])).exists_owned filled'
  have inside : cells ⊆ cellsOf pieces := fun cell member => by simp [split, member]
  have own : ∀ cell, cell ∈ node.tokens ↔ cell ∈ tokensOf front ∨ cell ∈ cells ∨ cell ∈ tokensOf back := fun cell => by
    rw [← parts.tokens.mem_iff]
    simp [split]
  have ends {ps qs : List Piece} (whole : pieces = ps ++ qs) {inner : Node} {cell : Cell} (early : inner ∈ nodesOf ps)
      (late : cell ∈ cellsOf qs) : inner.EndsBefore cell :=
    endsBefore_of_append (fun other rest member => below other rest (whole ▸ List.mem_append_left _ member))
      (whole ▸ sorted) early late
  have comes {ps qs : List Piece} (whole : pieces = ps ++ qs) {inner : Node} {cell : Cell} (early : cell ∈ cellsOf ps)
      (late : inner ∈ nodesOf qs) : inner.ComesBehind cell :=
    comesBehind_of_append (fun other rest member => below other rest (whole ▸ List.mem_append_right _ member))
      (whole ▸ sorted) early late
  have behindLeft : pieces = (front ++ [.node left run]) ++ (tokenPieces cells ++ .node right span :: back) := by
    simp [split]
  have atRight : pieces = (front ++ .node left run :: tokenPieces cells) ++ (.node right span :: back) := by
    simp [split]
  have behindRight : pieces = (front ++ .node left run :: (tokenPieces cells ++ [.node right span])) ++ back := by
    simp [split]
  refine ⟨⟨cells, ?_, fun cell => ⟨fun member => ⟨(own cell).2 (.inr (.inl member)), (plain cell (inside member)).1,
    ends behindLeft (by simp) (by simp [member]), comes atRight (by simp [member]) (by simp)⟩, ?_⟩, ?_,
    spelled.eq_intercalate fun cell member => (plain cell (inside member)).2⟩, first, second⟩
  · have whole : cellsOf pieces = (cellsOf front ++ run) ++ (cells ++ (span ++ cellsOf back)) := by simp [split]
    exact (whole ▸ sorted).sublist ((List.sublist_append_left ..).trans (List.sublist_append_right ..))
  · rintro ⟨mine, -, ended, behind⟩
    -- a token in front of the left operand comes before it, and one behind the right operand behind that
    rcases (own cell).1 mine with early | member | late
    · obtain ⟨token, owned⟩ := List.exists_mem_of_ne_nil _ first
      exact absurd (ended token owned) (comes split (tokensOf_subset early) (by simp) token owned).asymm
    · exact member
    · obtain ⟨token, owned⟩ := List.exists_mem_of_ne_nil _ second
      exact absurd (behind token owned) (ends behindRight (by simp) (tokensOf_subset late) token owned).asymm
  · cases spelled <;> simp

theorem Parts.comparison (sorted : (cellsOf pieces).Pairwise (·.index < ·.index))
    (plain : ∀ cell ∈ cellsOf pieces, cell.kind ≠ .comment ∧ WellSpelled cell.kind cell.text)
    (same : node.kind = .comparison) : node.Comparison := by
  obtain ⟨full, ops, left, told, first, between⟩ := parts.rows.chained same
  refine ⟨full, ops, left, told, ?_, first, between.mono fun joins => parts.operates below sorted plain joins⟩
  have long := parts.rows.long (.comparators, 1) (by rw [same]; rfl)
  have length := between.length
  rw [List.length_cons, Nat.add_right_cancel_iff] at length
  exact List.ne_nil_of_length_pos (length ▸ long)

omit below in
theorem Parts.level (same : node.kind = .parameters) : node.Level := by
  obtain ⟨args, defaults, keywordOnly⟩ := parts.rows.full same
  have paired := parts.paired same
  obtain ⟨own, columns, listed⟩ := paired.defaults
  refine ⟨?_, ?_, ?_, ?_⟩
  · exact paired.hints.length_eq.symm.trans args.length.symm
  · exact paired.keywordHints.length_eq.symm.trans keywordOnly.length.symm
  · exact paired.keywordDefaults.length_eq.symm.trans keywordOnly.length.symm
  · calc (node.entries .defaults).length
      _ = (own.filterMap id).length := by
        rw [show node.entries .defaults = _ from defaults.entries, List.length_map, listed]
      _ ≤ own.length := List.length_filterMap_le ..
      _ = (node.entries .args).length := columns.length_eq.symm.trans args.length.symm

theorem Parts.inRows (sorted : (cellsOf pieces).Pairwise (·.index < ·.index))
    (plain : ∀ cell ∈ cellsOf pieces, cell.kind ≠ .comment ∧ WellSpelled cell.kind cell.text) : node.InRows where
  dictionary := parts.dictionary below sorted
  comparison := parts.comparison below sorted plain
  parameters := parts.level
  long := parts.rows.long

end

theorem Spans.inRows (spans : Spans spaced calm tree run) (sorted : run.Pairwise (·.index < ·.index))
    (plain : ∀ cell ∈ run, cell.kind ≠ .comment ∧ WellSpelled cell.kind cell.text) :
      ∀ node ∈ tree.listed, node.InRows := by
  induction spans with
  | @mk tree pieces parts below ih =>
    intro node listed
    rcases Node.mem_listed.1 listed with rfl | ⟨child, member, inside⟩
    · exact parts.inRows below sorted plain
    · obtain ⟨span, here⟩ := mem_nodesOf (parts.nodes.subset member)
      exact ih child span here ((List.pairwise_flatMap.1 sorted).1 _ here)
        (fun cell among => plain cell (cells_subset here among)) node inside

/-! ### Trees with comments -/

section

variable {plan : CommentPlan} {markings : Markings}

theorem Node.entries_commented (plan : CommentPlan) (around : Option Bounds) (node : Node) (role : Role) :
    (node.commented plan around).entries role =
      (node.entries role).map (Option.map (Node.commented plan node.bounds)) := by
  rw [Node.entries, Node.toList_commented]
  exact entriesOf_mapParts _ role node.children.toList

theorem Node.Operates.commented {op : String} {left right : Node} (operates : node.Operates op left right)
    (hangs : Hangs markings plan) (planned : plan.OfComments) (leftFits : Fits markings left)
    (leftSided : Sided markings left)
    (rightFits : Fits markings right) (rightSided : Sided markings right) (around : Option Bounds) :
    (node.commented plan around).Operates op (left.commented plan node.bounds) (right.commented plan node.bounds) := by
  obtain ⟨⟨cells, sorted, stands, some, spelled⟩, first, second⟩ := operates
  refine ⟨⟨cells, sorted, fun cell => (stands cell).trans ⟨?_, ?_⟩, some, spelled⟩, Node.owned_commented plan _ first,
    Node.owned_commented plan _ second⟩
  · rintro ⟨own, plain, ends, behind⟩
    refine ⟨?_, plain, ends.commented hangs leftFits leftSided _, behind.commented hangs rightFits rightSided _⟩
    rw [Node.tokens_commented]
    exact List.mem_append_left _ own
  · rintro ⟨own, plain, ends, behind⟩
    rw [Node.tokens_commented, List.mem_append, mem_insideOf] at own
    refine ⟨own.resolve_right fun ⟨token, _, inside⟩ => plain (eq_of_beq (planned _ cell inside)), plain, ?_, ?_⟩
    · exact fun token owned => ends token (Node.mem_ownedTokens_commented.2 (.inl owned))
    · exact fun token owned => behind token (Node.mem_ownedTokens_commented.2 (.inl owned))

theorem Node.InRows.commented (inRows : node.InRows) (hangs : Hangs markings plan) (planned : plan.OfComments)
    (fits : Fits markings node) (sided : Sided markings node) (around : Option Bounds) :
    (node.commented plan around).InRows := by
  have parts : (node.commented plan around).children.toList =
      mapParts (Node.commented plan node.bounds) node.children.toList := Node.toList_commented ..
  have entries := node.entries_commented plan around
  have below : ∀ child ∈ node.children.nodes, Fits markings child ∧ Sided markings child := fun child member =>
    ⟨fits.below member, sided.below member⟩
  have among : ∀ {role inner}, some inner ∈ node.entries role → inner ∈ node.children.nodes := fun member =>
    Children.nodes_eq_filterMap _ ▸ mem_of_entriesOf member
  have before : ∀ {child next}, child ∈ node.children.nodes → next ∈ node.children.nodes → child.Before next →
      (child.commented plan node.bounds).Before (next.commented plan node.bounds) := fun {child next} one two inOrder =>
    inOrder.commented hangs (below child one).1 (below child one).2 (below next two).1 (below next two).2 _
  have bare : ∀ {role : Role} {place : Nat} {inner : Node},
    ((node.commented plan around).entries role)[place]? = some (some inner) →
      ∃ own : Node, (node.entries role)[place]? = some (some own) ∧ own.commented plan node.bounds = inner := by
    intro role place inner here
    rw [entries, List.getElem?_map, Option.map_eq_some_iff] at here
    obtain ⟨held?, listed, same⟩ := here
    obtain ⟨own, rfl, same⟩ := Option.map_eq_some_iff.1 same
    exact ⟨own, listed, Option.some.inj same⟩
  refine ⟨fun same => ?_, fun same => ?_, fun same => ?_, fun demand member => ?_⟩ <;>
    rw [Node.kind_commented] at *
  · obtain ⟨keys, length, inOrder, filled⟩ := inRows.dictionary same
    refine ⟨by simpa [entries] using keys, by simpa [entries] using length, fun place key value here there => ?_, ?_⟩
    · obtain ⟨key, first, rfl⟩ := bare here
      obtain ⟨value, second, rfl⟩ := bare there
      obtain ⟨behind, later⟩ := inOrder place key value first second
      have child := among (List.mem_of_getElem? second)
      refine ⟨before (among (List.mem_of_getElem? first)) child behind, fun next listed => ?_⟩
      obtain ⟨next, third, rfl⟩ := bare listed
      exact before child (among (List.mem_of_getElem? third)) (later next third)
    · rw [Node.nodes_commented]
      exact List.forall_mem_map.2 fun child member => Node.owned_commented plan _ (filled child member)
  · obtain ⟨full, ops, left, told, some, first, between⟩ := inRows.comparison same
    refine ⟨by simpa [entries] using full, ops, left.commented plan node.bounds, ?_, some, by simp [entries, first], ?_⟩
    · rw [Node.detail_commented, told]
    · rw [parts, nodesUnder_mapParts]
      have operands : ∀ operand ∈ left :: nodesUnder .comparators node.children.toList,
          operand ∈ node.children.nodes :=
        List.forall_mem_cons.2 ⟨among (first ▸ List.mem_singleton_self _), fun operand member =>
          Children.nodes_eq_filterMap _ ▸ mem_of_nodesUnder member⟩
      refine between.map fun {op left right} one two operates => ?_
      exact operates.commented hangs planned (below left (operands left one)).1 (below left (operands left one)).2
        (below right (operands right two)).1 (below right (operands right two)).2 around
  · have level := inRows.parameters same
    exact ⟨by simpa [entries] using level.hints, by simpa [entries] using level.keywordHints,
      by simpa [entries] using level.keywordDefaults, by simpa [entries] using level.defaults⟩
  · rw [parts, nodesUnder_mapParts, List.length_map]
    exact inRows.long demand member

theorem Node.InRows.of_root (root : node.kind = .document) : node.InRows := by
  refine ⟨fun same => ?_, fun same => ?_, fun same => ?_, fun demand member => ?_⟩
  · cases root.symm.trans same
  · cases root.symm.trans same
  · cases root.symm.trans same
  · rw [root] at member
    cases member

end

/-! ### Documents -/

/-- The lists of all nodes in the tree of a text go with one another. -/
theorem Document.rows_inStep (limits : Limits) (d : Dialect) (options : ParseOptions) (text : String) :
    ∃ document, Document.ofText? limits d options text = .ok document ∧ ∀ node ∈ document.tree.listed, node.InRows := by
  obtain ⟨document, parses, parsed⟩ := Document.ofText?_ok limits d options text
  obtain ⟨tree, lost, kept⟩ := parsed.kept
  have sorted : (significant document.tokens).Pairwise (·.index < ·.index) :=
    (pairwise_index parsed.numbered).sublist List.filter_sublist
  have wellSpelled := parsed.mends.forall_mem WellSpelled (fun _ => wellSpelled_lex)
    (fun word => absurd word (by decide))
  have plain : ∀ cell ∈ significant document.tokens, cell.kind ≠ .comment ∧ WellSpelled cell.kind cell.text := by
    intro cell member
    obtain ⟨member, plain⟩ := List.mem_filter.1 member
    exact ⟨by simpa using plain, wellSpelled cell.toToken (List.mem_map_of_mem member)⟩
  refine ⟨document, parses, fun node listed => ?_⟩
  rw [kept.attached] at listed
  rcases Node.mem_listed_attachComments.1 listed with rfl | ⟨child, member, inside⟩
  · exact .of_root ((Node.kind_attachComments ..).trans kept.root)
  · obtain ⟨bare, here, outer, rfl⟩ := Node.mem_listed_commented inside
    obtain ⟨fits, sided⟩ := (kept.covers.fits.below member).listed (kept.covers.sided member) bare here
    have inRows := kept.spans.inRows sorted plain bare (Node.mem_listed.2 (.inr ⟨child, member, here⟩))
    exact inRows.commented kept.covers.hangs (CommentPlan.ofComments_ofDocument tree _ document.tokens) fits sided outer

end TolerantParser
