import Mathlib.Data.List.Count
import TolerantParser.Parser.Expression.Display
import TolerantParser.Proofs.Expression.Nested

/-!
Comprehensions and what stands in brackets. Whatever a bracket turns out to hold, the node that comes of
it holds the bracket too, be it made for that or one that was made already and takes the bracket over.
-/

namespace TolerantParser.Parser

variable {laid lead starts : Prop} {mode : Mode} {level : Depth} {p q r : Parser} {ps qs : List Piece}
  {e : Nested}

/-! ### Comprehensions -/

/-- What has been read of a clause: its first word, the target, the iterable and the conditions. -/
structure Conditions (target iterable : Node) (nodes : Array Node) (ps : List Piece) (q : Parser) : Prop where
  made : nodesOf ps = target :: iterable :: nodes.toList
  word : ∃ cell ∈ tokensOf ps, cell.kind = .kwFor

theorem comprehensionClause_parses (works : e.Works laid starts) (ready : Ready laid .line level p)
    (here : p.cell.kind = .kwFor) (bareTuples : Bool) :
    Parses laid .line True level (comprehensionClause e bareTuples) p fun node ps q =>
      Expression node ps q ∧ Shut ps := by
  refine build_parses (fun made ps q => Gathers [] made ps q ∧ ∃ cell ∈ tokensOf ps, cell.kind = .kwFor) ready ?_
    fun made ps q moves ⟨nodes, cell, own, word⟩ => ⟨.plain nodes rfl rfl (.free rfl), fun node makes =>
      ⟨⟨_, rfl, moves.filled trivial ready.rests⟩, ?_⟩⟩
  swap
  · exact shut_node (by rw [word]; rfl) (by rw [word]; decide) (tokensOf_subset own)
      (makes.covers cell own (by rw [word]; rfl))
  rw [parses_iff, discard_bind]
  refine ready.opened.bump (by simp [here]; rfl) fun cell q same moves ready _ => ?_
  refine moves.bind (testList_item works.expr.item q ready) fun target qs q moves ready ⟨run, made, _⟩ => ?_
  refine moves.expect ready rfl rfl rfl fun more q moves ready plain => ?_
  have iterable : Item laid level (if bareTuples then testList (e.test false) else e.orTest) := by
    cases bareTuples with
    | true => exact testList_item (works.item false)
    | false => exact works.orTest.item
  dsimp only
  rw [ite_bind]
  refine moves.bind (iterable q ready) fun iterable qs q moves ready ⟨run, around, _⟩ => ?_
  refine Completes.bind (moves.loop (Conditions target iterable) (Conditions target iterable) ready
      ⟨by simp [made, around, plain.nodes], cell, by simp, by rw [same]; exact here⟩ ?_)
    fun nodes ps q moves ready ⟨parts, word⟩ => moves.done ready ⟨by simp [gathers_iff, parts], word⟩
  intro nodes ps q moves ready ⟨parts, first, own, word⟩
  refine moves.eat ready rfl (fun cell r _ behind ready lighter => ?_) fun _ =>
    moves.done ready ⟨parts, first, own, word⟩
  refine behind.bind (works.item false r ready) fun node qs s moves ready ⟨run, made, _⟩ => ?_
  exact moves.done ready ⟨⟨by simp [made, parts], first, by simp [own], word⟩,
    Nat.lt_of_le_of_lt (behind.later_le moves) (lighter (by decide))⟩

/-- The clauses read so far, with no tokens between them. -/
structure Clauses (nodes : List Node) (ps : List Piece) (q : Parser) : Prop where
  made : nodes = nodesOf ps
  bare : tokensOf ps = []
  shut : Shut ps
  rising : Rising ps

theorem comprehensionClauses_parses (works : e.Works laid starts) (ready : Ready laid .line level p)
    (inList : Bool) :
    Parses laid .line False level (comprehensionClauses e inList) p Clauses := by
  rw [parses_iff, comprehensionClauses, completes_features]
  let read : Post (Array Node) := fun nodes => Clauses nodes.toList
  refine Completes.bind ((Moves.refl laid .line p).loop read read ready
      ⟨rfl, rfl, shut_of_bare rfl, rising_of_bare rfl⟩ ?_)
    fun nodes ps q moves ready clauses => moves.done ready clauses
  intro nodes ps q moves ready ⟨parts, bare, shut, rising⟩
  rw [completes_at]
  split
  next here =>
    have here : q.cell.kind = .kwFor := by simpa using here
    refine moves.bind ((comprehensionClause_parses works ready here _).lighter ready.rests
      (by simp [here])) fun node qs r moves ready ⟨⟨⟨run, made, _⟩, shut'⟩, lighter⟩ => ?_
    have more : nodesOf qs = (some node).toList := by simp [made]
    exact moves.done ready ⟨⟨by simp [made, parts], by simp [made, bare], shut.append shut',
      rising.append (.inl shut) (rising_of_toList more)⟩, lighter⟩
  next => exact moves.done ready ⟨parts, bare, shut, rising⟩

theorem generatorTail_extends (works : e.Works laid starts) (ready : Ready laid .line level q)
    (element : Node) : Extends laid level element (generatorTail e element) q .none fun _ => True := by
  refine build_extends ready ?_ rfl
  refine (comprehensionClauses_parses works ready.opened false).bind
    fun clauses qs r moves ready ⟨parts, bare, _, _⟩ => ?_
  refine moves.done ready ⟨by simp [gathers_iff, parts], ?_, fun _ => by simp [bare], nofun, fun closer closes => ?_,
    Binding.none_le _, fun _ _ => .free rfl⟩
  · exact fun _ _ _ _ => .inr trivial
  · simpa using (closesNone_of_bare bare).sealed (NodeKind.isClosing_of_closer closes) nodesOf_nil

/-! ### Brackets -/

/-- In brackets a node binds tightly, by its kind or because the brackets are parentheses. -/
inductive Bracketed (kind : NodeKind) (ps : List Piece) : Prop
  | parentheses (loose : kind.bindsLoosely) (suits : ∀ detail role operand, Binding.Suits kind detail role operand)
    (cell : Cell) (rest : List Piece) (pieces : ps = .token cell :: rest) (opens : cell.kind = .leftParen)
  | display (display : kind.isDisplay) (tight : .trailer ≤ Binding.ofKind kind)

theorem Bracketed.fenced {kind : NodeKind} (bracketed : Bracketed kind ps) (more : List Piece)
    (loose : kind.bindsLoosely) : Fenced (ps ++ more) := by
  cases bracketed with
  | parentheses _ _ cell rest pieces opens => exact pieces ▸ fenced_token opens (rest ++ more)
  | display display => simp [NodeKind.bindsLoosely_of_isDisplay display] at loose

theorem Bracketed.ne_string {kind : NodeKind} (bracketed : Bracketed kind ps) : kind ≠ .string := by
  cases bracketed with
  | parentheses loose => exact NodeKind.ne_string_of_bindsLoosely loose
  | display display => exact NodeKind.ne_string_of_isDisplay display

theorem Bracketed.isStarred {kind : NodeKind} (bracketed : Bracketed kind ps) : kind.isStarred = false := by
  cases bracketed with
  | parentheses loose => exact NodeKind.isStarred_of_isPlain (NodeKind.isPlain_of_bindsLoosely loose)
  | display display => exact NodeKind.isStarred_of_isDisplay display

theorem Bracketed.holdsBlock {kind : NodeKind} (bracketed : Bracketed kind ps) : kind.holdsBlock = false := by
  cases bracketed with
  | parentheses loose => exact NodeKind.holdsBlock_of_isPlain (NodeKind.isPlain_of_bindsLoosely loose)
  | display display => exact NodeKind.holdsBlock_of_isDisplay display

theorem Bracketed.groups {kind : NodeKind} (bracketed : Bracketed kind ps) (detail : Detail)
    (children : List (Label × Option Node)) : Groups kind detail children := by
  cases bracketed with
  | parentheses _ suits => exact fun _ _ _ _ => .inr (suits ..)
  | display display => exact .firm (NodeKind.bindsLoosely_of_isDisplay display)

theorem Bracketed.binds {kind : NodeKind} {detail : Detail} {node : Node} {more : List Piece}
    (bracketed : Bracketed kind ps) (makes : Makes kind detail (ps ++ more) node) : node.Binds .trailer := by
  cases bracketed with
  | parentheses loose _ cell rest pieces opens =>
    refine .inl ⟨makes.kind ▸ loose, cell, ?_, opens⟩
    rw [makes.tokens, pieces]
    exact List.mem_cons_self
  | display _ tight => exact makes.binds.mono tight

/-- A node of what stands in brackets, and of the brackets. -/
theorem Moves.bracket {kind : NodeKind} {detail : Detail} {children : List (Label × Option Node)}
    (moves : Moves laid .line True (ps ++ qs) p.opened q) (began : Ready laid .line level p)
    (ready : Ready laid .line level q) (bracketed : Bracketed kind ps)
    (arranged : Arranged (ps ++ qs) children) (contained : Contained kind children (ps ++ qs))
    (rows : Rows kind detail children (ps ++ qs))
    (gapless : q.Clean → kind = .dict → ∀ part ∈ children, part.2.isSome) :
    Completes laid .line True level p (Parser.complete p.marker kind detail children) q (Operand .trailer) := by
  have held : Held kind detail children (ps ++ qs) q laid :=
    { nodes := ⟨[], by simpa using arranged.nodes, by simp [bracketed.isStarred]⟩
      starred := fun starred => by simp [bracketed.isStarred] at starred
      gapless
      filled := fun _ _ holds => by simp [bracketed.holdsBlock] at holds
      groups := bracketed.groups detail children
      fenced := bracketed.fenced qs
      literal := fun string => absurd string bracketed.ne_string
      order := arranged.order
      contained
      paired := fun same => absurd same (NodeKind.ne_parameters_of_unstarred bracketed.isStarred)
      rows }
  exact moves.complete began.inside ready held fun node makes =>
    ⟨⟨_, rfl, moves.filled trivial began.rests⟩, bracketed.binds makes⟩

/-- A bracket is closed and the node completed, whatever repair goes over. -/
theorem Moves.closes {kind : NodeKind} {closer : TokenKind} {detail : Detail}
    {children : List (Label × Option Node)} (moves : Moves laid .line True ps p.opened q)
    (began : Ready laid .line level p) (ready : Ready laid .line (level.within closer) q)
    (closes : closer.isClosing) (bracketed : Bracketed kind ps) (arranged : Arranged ps children)
    (closesNone : ClosesNone ps) (rows : Rows kind detail children ps)
    (gapless : q.Clean → kind = .dict → ∀ part ∈ children, part.2.isSome) :
    Completes laid .line True level p (do
      discard <| expectCloser closer none
      Parser.complete p.marker kind detail children) q (Operand .trailer) := by
  rw [discard_bind]
  refine Ends.bind (Ends.imp (expectCloser_parses ready none closes) (fun _ _ holds => holds)
    fun _ broken => (broken.after moves).closed) ?_
  rintro _ r ⟨qs, more, ready, cells, skipped, -⟩
  have bare : nodesOf qs = [] := by simp [skipped]
  have rows : Rows kind detail children (ps ++ qs) := by simpa [skipped, tokenPieces] using rows.around [] cells
  exact (moves.trans more).bracket began ready bracketed (arranged.append bare)
    (.all fun other ends => closesNone.sealed (NodeKind.isClosing_of_closer ends) bare) rows
    fun clean => gapless (more.toGrows.clean clean)

theorem parenthesized_parses (works : e.Works laid starts) (ready : Ready laid .line level p)
    (here : p.cell.kind = .leftParen) :
    Parses laid .line True level (parenthesized e) p (Operand .trailer) := by
  rw [parses_iff, parenthesized, completes_start, discard_bind]
  refine ready.opened.bumpOpening .rightParen (by simp [here]; rfl) fun opening q same moves ready' _ => ?_
  have opens : opening.kind = .leftParen := by rw [same]; exact here
  have parentheses : ∀ {kind : NodeKind} (rest : List Piece), kind.bindsLoosely →
      (∀ detail role operand, Binding.Suits kind detail role operand) → Bracketed kind (.token opening :: rest) :=
    fun rest loose suits => .parentheses loose suits opening rest rfl opens
  have plainOpening : ClosesNone [.token opening] := closesNone_token (by rw [opens]; rfl)
  refine moves.eatPasses ready' (level.passes_closing rfl) (fun cell r _ moves ready' _ => ?_) fun _ => ?_
  · exact moves.bracket ready ready' (parentheses [] rfl fun _ _ _ => trivial) (arranged_of_eq (by simp))
      (.all fun _ _ => sealed_of_bare (by simp)) (.free rfl) fun _ => nofun
  rw [if_neg (by simp)]
  refine moves.bind (yieldOr_operand works ready' (works.operand true q ready'))
    fun first qs q moves ready' ⟨⟨run, made, filled⟩, binds⟩ => ?_
  subst made
  rw [completes_at]
  split
  · refine moves.bind (comprehensionClauses_parses works ready' false)
      fun clauses qs q moves ready' clauses' => ?_
    refine moves.closes ready ready' rfl (parentheses _ rfl fun _ _ _ => trivial) (arranged_of_eq ?_)
      ((plainOpening.append (closesNone_of_bare rfl)).append (closesNone_of_bare clauses'.bare)) (.free rfl)
        fun _ => nofun
    simp [clauses'.made]
  rw [completes_at]
  split
  · refine moves.bind (commaSeparated_operands ready' first (works.item true))
      fun elements qs q moves ready' parted => ?_
    refine moves.closes ready ready' rfl (parentheses _ rfl fun _ _ _ => trivial) (arranged_of_eq ?_)
      ((plainOpening.append (closesNone_of_bare rfl)).append (parted.closesNone rfl)) (.free rfl) fun _ => nofun
    simp [parted.made]
  · rw [discard_bind]
    refine moves.bind (expectCloser_parses ready' none rfl)
      fun _ qs q moves ready' ⟨cells, skipped, plain, stray⟩ => ?_
    subst skipped
    have unstarred : EndsPlain (tokenPieces [opening]) :=
      endsPlain_token [] (by simp [opens]; rfl)
    refine moves.mergeInto [opening] cells ready.inside ready' unstarred plain plainOpening
      (fun _ => ⟨opening, [], rfl, opens⟩) (fun _ => ⟨by simp [opens], ?_⟩) ⟨⟨_, rfl, by simp⟩, ?_⟩
    · exact Stray.append (stray_of_plain (by simp [opens])) stray
    exact Node.Binds.enclose binds ⟨opening, List.mem_append_left _ (List.mem_singleton.2 rfl), opens⟩

theorem displayItems_parses (works : e.Works laid starts) (ready : Ready laid .line level p)
    (first : Node) (closer : TokenKind) :
    Parses laid .line False level (displayItems e first closer) p fun nodes qs _ =>
      Parted .comma .none first nodes qs :=
  separated_operands (fun q => q.cell.kind == closer || !startsExpression q.cell.kind) ready first
    (fun _ => rfl) (works.item true).operands rfl (by decide)

theorem listDisplay_parses (works : e.Works laid starts) (ready : Ready laid .line level p)
    (here : p.cell.kind = .leftBracket) :
    Parses laid .line True level (listDisplay e) p (Operand .trailer) := by
  rw [parses_iff, listDisplay, completes_start, discard_bind]
  refine ready.opened.bumpOpening .rightBracket (by simp [here]; rfl) fun opening q same moves ready' _ => ?_
  have plainOpening : ClosesNone [.token opening] := closesNone_token (by rw [same]; simp [here]; rfl)
  refine moves.eatPasses ready' (level.passes_closing rfl) (fun cell r _ moves ready' _ => ?_) fun _ => ?_
  · exact moves.bracket ready ready' (.display rfl (by decide)) (arranged_of_eq (by simp))
      (.all fun _ _ => sealed_of_bare (by simp)) (.free rfl) fun _ => nofun
  rw [if_neg (by simp)]
  refine moves.bind (works.item true q ready') fun first qs q moves ready' ⟨run, made, _⟩ => ?_
  subst made
  have begins := plainOpening.append (closesNone_node first run)
  rw [completes_at]
  split
  · refine moves.bind (comprehensionClauses_parses works ready' true)
      fun clauses qs q moves ready' clauses' => ?_
    refine moves.closes ready ready' rfl (.display rfl (by decide)) (arranged_of_eq ?_)
      (begins.append (closesNone_of_bare clauses'.bare)) (.free rfl) fun _ => nofun
    simp [clauses'.made]
  · refine moves.bind (displayItems_parses works ready' first .rightBracket)
      fun elements qs q moves ready' parted => ?_
    refine moves.closes ready ready' rfl (.display rfl (by decide)) (arranged_of_eq ?_)
      (begins.append (parted.closesNone rfl)) (.free rfl) fun _ => nofun
    simp [parted.made]

/-! ### Dictionaries and sets -/

/-- The value of an entry was made, or it is missing and that was found to be an error. -/
structure Valued (value : Option Node) (ps : List Piece) (q : Parser) : Prop where
  made : nodesOf ps = value.toList
  filled : ∀ piece ∈ ps, piece.cells ≠ []
  closesNone : ClosesNone ps
  gapless : q.Clean → value.isSome

/-- The value stands behind a colon of its own. -/
structure ColonValued (value : Option Node) (ps : List Piece) (q : Parser) : Prop extends Valued value ps q where
  fresh : Fresh ps

theorem dictValue_parses (works : e.Works laid starts) (ready : Ready laid .line level p) :
    Parses laid .line False level (dictValue e) p Valued := by
  rw [parses_iff, dictValue, completes_canStartExpression]
  split
  · refine (works.item true p ready).bind fun node ps q moves ready ⟨run, made, filled⟩ => ?_
    exact moves.done ready ⟨by simp [made], by simpa [made] using filled,
      closesNone_of_bare (by simp [made]), fun _ => rfl⟩
  · rw [discard_bind]
    refine (recover_takes ready none [] rfl fun _ => rfl).parses.bind fun _ ps q moves ready
      ⟨nothing, _, _, errors⟩ => ?_
    exact moves.done ready ⟨by simp [nothing], by simp [nothing], closesNone_of_bare (by simp [nothing]), fun clean =>
      absurd clean (not_clean_of_push errors)⟩

theorem colonAndValue_parses (works : e.Works laid starts) (ready : Ready laid .line level p) :
    Parses laid .line False level (colonAndValue e) p ColonValued := by
  rw [parses_iff, colonAndValue]
  refine (Moves.refl laid .line p).eat ready rfl (fun cell q colon moves ready _ => ?_) fun _ => ?_
  · have plainColon : ClosesNone [.token cell] := closesNone_token (by rw [colon]; rfl)
    exact moves.last (dictValue_parses works ready) fun value qs r _ ⟨made, filled, closesNone, gapless⟩ =>
      ⟨⟨by simpa using made, List.forall_mem_cons.2 ⟨List.cons_ne_nil cell [], filled⟩, plainColon.append closesNone,
        gapless⟩,
        fresh_cons qs (by rw [colon]; rfl) (by rw [colon]; decide)⟩
  · exact (Moves.refl laid .line p).complain ready rfl (fun _ => rfl) fun r moves ready blamed =>
      moves.done ready ⟨⟨rfl, by simp, closesNone_of_bare rfl, fun clean => absurd clean blamed.unclean⟩,
        fresh_of_bare rfl⟩

/-- What a round of a dictionary adds to the keys and values: nothing if it is the last, else one of each. -/
inductive Entry (before : Parser) (keys : Array Node) (values : Array (Option Node)) :
    ForInStep (Array Node × Array (Option Node)) → List Piece → Parser → Prop
  | last {ps : List Piece} {q : Parser} (made : nodesOf ps = []) (filled : ∀ piece ∈ ps, piece.cells ≠ [])
      (closesNone : ClosesNone ps)
      (clean : q.Clean → before.Clean) :
      Entry before keys values (.done (keys, values)) ps q
  | next {ps : List Piece} {q : Parser} {key : Node} {value : Option Node}
      (made : nodesOf ps = key :: value.toList) (filled : ∀ piece ∈ ps, piece.cells ≠ []) (closesNone : ClosesNone ps)
      (fresh : Fresh ps) (rising : Rising ps)
      (clean : q.Clean → before.Clean ∧ value.isSome) (lighter : q.weight < before.weight) :
      Entry before keys values (.yield (keys.push key, values.push value)) ps q

theorem dictEntry_parses (works : e.Works laid starts) (ready : Ready laid .line level p)
    (keys : Array Node) (values : Array (Option Node)) : Parses laid .line False level (do
      unless ← eat .comma do return .done (keys, values)
      if (← at? .rightBrace) || !(← canStartExpression) then return .done (keys, values)
      let key ← e.test true
      let value ← colonAndValue e
      return .yield (keys.push key, values.push value)) p (Entry p keys values) := by
  refine (Moves.refl laid .line p).eat ready rfl (fun cell q comma moves ready lighter => ?_) fun _ =>
    (Moves.refl laid .line p).done ready (.last rfl (by simp) (closesNone_of_bare rfl) id)
  have plainComma : ClosesNone [.token cell] := closesNone_token (by rw [comma]; rfl)
  rw [if_pos rfl, completes_at, completes_canStartExpression]
  split
  · exact moves.done ready (.last (by simp) (filled_tokenPieces [cell]) plainComma moves.toGrows.clean)
  refine moves.bind (works.item true q ready) fun key qs r moves' ready ⟨run, made, filled⟩ => ?_
  refine moves'.bind (colonAndValue_parses works ready)
    fun value qs' s last ready ⟨⟨value', filled', behind, gapless⟩, fresh⟩ => ?_
  subst made
  have first : Fresh (.token cell :: .node key run :: qs') := fresh_cons _ (by rw [comma]; rfl) (by rw [comma]; decide)
  have rising : Rising ([.token cell] ++ [.node key run] ++ qs') := by
    refine Rising.append (fun _ _ _ => List.pairwise_singleton _ key) (.inr fresh) (rising_of_toList value')
  have closesNone : ClosesNone ([.token cell] ++ [.node key run] ++ qs') :=
    (plainComma.append (closesNone_of_bare rfl)).append behind
  have whole : ∀ piece ∈ [.token cell] ++ [.node key run] ++ qs', piece.cells ≠ [] := by
    simpa [filled] using filled'
  refine last.done ready (.next (by simp [value']) whole closesNone first rising
    (fun clean => ⟨last.toGrows.clean clean, gapless clean⟩) ?_)
  rw [List.append_assoc] at last
  exact Nat.lt_of_le_of_lt (moves.later_le last) (lighter (by decide))

/-- The keys and values read so far of a dictionary are the nodes that were made, one behind the other, and none is
missing. -/
structure Entries (entries : Array Node × Array (Option Node)) (ps : List Piece) (q : Parser) : Prop where
  same : entries.1.toList.length = entries.2.toList.length
  turns : nodesOf ps = byTurns entries.1.toList entries.2.toList
  filled : ∀ piece ∈ ps, piece.cells ≠ []
  rising : Rising ps
  closesNone : ClosesNone ps
  gapless : q.Clean → ∀ value ∈ entries.2.toList, value.isSome

theorem Entries.push {keys : Array Node} {values : Array (Option Node)} {key : Node} {value : Option Node}
    (entries : Entries (keys, values) ps p) (made : nodesOf qs = key :: value.toList)
    (filled : ∀ piece ∈ qs, piece.cells ≠ []) (closesNone : ClosesNone qs) (fresh : Fresh qs) (rising : Rising qs)
    (clean : q.Clean → p.Clean ∧ value.isSome) : Entries (keys.push key, values.push value) (ps ++ qs) q where
  same := by simpa using entries.same
  turns := by simp only [nodesOf_append, made, entries.turns, Array.toList_push, byTurns_concat entries.same]
  filled := List.forall_mem_append.2 ⟨entries.filled, filled⟩
  rising := entries.rising.append (.inr fresh) rising
  closesNone := entries.closesNone.append closesNone
  gapless now := by
    obtain ⟨before, there⟩ := clean now
    simpa [or_imp, forall_and, there] using entries.gapless before

/-- The node for a dictionary lists its keys and values as they were read. -/
theorem rows_dict {keys : List Node} {values : List (Option Node)} (same : keys.length = values.length)
    (turns : nodesOf ps = byTurns keys values) (filled : ∀ piece ∈ ps, piece.cells ≠ []) :
    Rows .dict .none (several .keys keys ++ sparse .values values) ps := by
  have listed : entriesOf .keys (several .keys keys ++ sparse .values values) = keys.map some := by
    simp [entriesOf_append, entriesOf_several, entriesOf_sparse]
  obtain ⟨full, under⟩ := full_of_entries listed
  have given : entriesOf .values (several .keys keys ++ sparse .values values) = values := by
    simp [entriesOf_append, entriesOf_several, entriesOf_sparse]
  refine ⟨nofun, fun _ => ⟨full, ?_, ?_, filled⟩, nofun, nofun⟩
  · rw [given, full.length, under, same]
  · rw [given, under, turns]

theorem finishDict_completes (works : e.Works laid starts) (began : Ready laid .line level p)
    (moves : Moves laid .line True ps p.opened q) (ready : Ready laid .line (level.within .rightBrace) q)
    (key : Node) (value : Option Node) (parts : nodesOf ps = key :: value.toList) (rising : Rising ps)
    (filled : ∀ piece ∈ ps, piece.cells ≠ []) (closesNone : ClosesNone ps) (gapless : q.Clean → value.isSome) :
    Completes laid .line True level p (finishDict e p.marker key value) q (Operand .trailer) := by
  rw [finishDict]
  refine Completes.bind (moves.loop Entries Entries ready
      ⟨rfl, by simp [byTurns, parts], filled, rising, closesNone, by simpa using gapless⟩ ?_)
    fun entries ps q moves ready entries' =>
      moves.closes began ready rfl (.display rfl (by decide)) (arranged_of_rising ?_ entries'.rising)
        entries'.closesNone (rows_dict entries'.same entries'.turns entries'.filled) fun clean _ => ?_
  · rintro ⟨keys, values⟩ ps q before ready entries
    refine before.last (dictEntry_parses works ready keys values) fun outcome qs r _ entry => ?_
    cases entry with
    | last made filled closesNone clean =>
      exact ⟨entries.same, by simpa [made] using entries.turns, List.forall_mem_append.2 ⟨entries.filled, filled⟩,
        entries.rising.append (.inr (fresh_of_bare made)) (rising_of_bare made), entries.closesNone.append closesNone,
        fun now => entries.gapless (clean now)⟩
    | next made filled closesNone fresh rising clean lighter =>
      exact ⟨entries.push made filled closesNone fresh rising clean, lighter⟩
  · rw [entries'.turns, madeOf_append, madeOf_several, madeOf_sparse]
    exact byTurns_perm entries'.same
  · intro part member
    rcases List.mem_append.1 member with key | value
    · exact isSome_of_mem_several key
    · exact entries'.gapless clean _ (mem_of_mem_sparse value)

theorem dictDisplay_completes (works : e.Works laid starts) (began : Ready laid .line level p)
    (moves : Moves laid .line True ps p.opened q) (ready : Ready laid .line (level.within .rightBrace) q)
    (key : Node) (parts : nodesOf ps = [key]) (shut : Shut ps) (filled : ∀ piece ∈ ps, piece.cells ≠ [])
    (closesNone : ClosesNone ps) :
    Completes laid .line True level p (dictDisplay e p.marker key) q (Operand .trailer) := by
  have alone : Rising ps := rising_of_toList (show _ = (some key).toList from parts)
  rw [dictDisplay]
  refine moves.bind (dictValue_parses works ready) fun value qs q moves ready ⟨value', filled', behind, gapless⟩ => ?_
  rw [completes_at, completes_features]
  split
  swap
  · exact finishDict_completes works began moves ready key value (by simp [parts, value'])
      (alone.append (.inl shut) (rising_of_toList value')) (List.forall_mem_append.2 ⟨filled, filled'⟩)
      (closesNone.append behind) gapless
  refine moves.bind (comprehensionClauses_parses works ready false)
    fun clauses qs' q moves ready ⟨clauses', unmarked, shut', rising⟩ => ?_
  rw [discard_bind]
  refine moves.bind (expectCloser_parses ready none rfl) fun _ qs q moves ready ⟨cells, skipped, _⟩ => ?_
  have bare : nodesOf qs = [] := by simp [skipped]
  have sealed : Sealed .rightBrace (ps ++ _ ++ qs' ++ qs) :=
    ((closesNone.append behind).append (closesNone_of_bare unmarked)).sealed rfl bare
  cases value with
  | some node =>
    refine moves.bracket began ready (.display rfl (by decide)) (arranged_of_eq ?_)
      (.all fun closer closes => Option.some.inj closes ▸ sealed) (.free rfl) fun _ => nofun
    simp [parts, value', clauses', skipped]
  | none =>
    -- the name comes behind the clauses, and in front of them among the fields
    refine moves.bind ((name_node ready _).weaken False.elim) fun node qs q moves ready ⟨⟨run, made, _⟩, named⟩ => ?_
    have last : nodesOf qs = (some node).toList := by simp [made]
    refine moves.bracket began ready (.display rfl (by decide)) (arranged_of_rising ?_ ?_)
      (.late rfl _ [] node run (congrArg _ made) sealed rfl named (by simp [child]) ?_) (.free rfl) fun _ => nofun
    rotate_left 2
    · intro part member other inner there
      rcases List.mem_append.1 member with early | later
      · rcases List.mem_append.1 early with first | second
        · obtain rfl := List.mem_singleton.1 first
          obtain rfl := Option.some.inj there
          simp [parts]
        · obtain rfl := List.mem_singleton.1 second
          exact absurd rfl other
      · obtain ⟨clause, listed, same⟩ := List.mem_map.1 (mem_of_mem_sparse later)
        obtain rfl := Option.some.inj (same.trans there)
        simp [← clauses', listed]
    · simp [parts, value', ← clauses', skipped, made]
    have early := shut.append (shut_of_bare value')
    have before := (alone.append (.inl shut) (rising_of_bare value')).append (.inl early) rising
    have closed := (early.append shut').append (shut_of_bare bare)
    exact (before.append (.inl (early.append shut')) (rising_of_bare bare)).append (.inl closed) (rising_of_toList last)

theorem braceDisplay_parses (works : e.Works laid starts) (ready : Ready laid .line level p)
    (here : p.cell.kind = .leftBrace) :
    Parses laid .line True level (braceDisplay e) p (Operand .trailer) := by
  rw [parses_iff, braceDisplay, completes_start, discard_bind]
  refine ready.opened.bumpOpening .rightBrace (by simp [here]; rfl) fun opening q same moves ready' _ => ?_
  have plainOpening : ClosesNone [.token opening] := closesNone_token (by rw [same]; simp [here]; rfl)
  refine moves.eatPasses ready' (level.passes_closing rfl) (fun cell r _ moves ready' _ => ?_) fun _ => ?_
  · have rows : Rows .dict .none [] [.token opening, .token cell] :=
      (rows_dict rfl rfl (filled_tokenPieces [opening, cell]) :
        Rows .dict .none (several .keys [] ++ sparse .values []) _)
    exact moves.bracket ready ready' (.display rfl (by decide)) (arranged_of_eq (by simp))
      (.all fun _ _ => sealed_of_bare (by simp)) rows (by simp)
  rw [if_neg (by simp)]
  refine moves.bind (works.item true q ready') fun first qs q moves ready' ⟨run, made, filled⟩ => ?_
  subst made
  have begins := plainOpening.append (closesNone_node first run)
  have filled : ∀ piece ∈ [Piece.token opening] ++ [.node first run], piece.cells ≠ [] := by
    simpa using filled
  refine moves.eat ready' rfl (fun cell r colon moves ready' _ => ?_) fun _ => ?_
  · exact dictDisplay_completes works ready moves ready' first (by simp)
      (shut_snoc _ (by rw [colon]; rfl) (by rw [colon]; decide))
      (List.forall_mem_append.2 ⟨filled, filled_tokenPieces [cell]⟩)
      (begins.append (closesNone_token (by rw [colon]; rfl)))
  rw [if_neg (by simp), completes_features]
  split
  · rw [completes_at]
    split
    · refine moves.bind (comprehensionClauses_parses works ready' false)
        fun clauses qs q moves ready' clauses' => ?_
      refine moves.closes ready ready' rfl (.display rfl (by decide)) (arranged_of_eq ?_)
        (begins.append (closesNone_of_bare clauses'.bare)) (.free rfl) fun _ => nofun
      simp [clauses'.made]
    · refine moves.bind (displayItems_parses works ready' first .rightBrace)
        fun elements qs q moves ready' parted => ?_
      refine moves.closes ready ready' rfl (.display rfl (by decide)) (arranged_of_eq ?_)
        (begins.append (parted.closesNone rfl)) (.free rfl) fun _ => nofun
      simp [parted.made]
  · refine moves.complain ready' rfl (fun _ => rfl) fun r moves ready' blamed => ?_
    have one : nodesOf ([.token opening] ++ [.node first run]) = (some first).toList := by simp
    exact finishDict_completes works ready moves ready' first none one (rising_of_toList one) filled begins fun clean =>
      absurd clean blamed.unclean

end TolerantParser.Parser
