import TolerantParser.Parser.Statement.Suite
import TolerantParser.Proofs.Statement.Simple

/-!
Blocks of statements. Statements are looked for until a block ends: each one that is there takes up its
line, and a line that starts none is skipped, so that the parse never stops short of the end of a block.
Where the layout is in order every block therefore ends with the token that closes it.
-/

namespace TolerantParser

namespace Parser

/-- What comes of looking for a statement at `p`. One that is there gives nodes unless an error is found. -/
structure Stated (p : Parser) (parsed : Parsed) (ps : List Piece) (q : Parser) : Prop where
  nodes : nodesOf ps = parsed.nodes
  present : parsed.present → p.position < q.position ∧ isBlockEnd p.cell.kind = false ∧ Ended p q
  absent : parsed.present = false → q = p ∧ p.cell.kind ≠ .indent
  filled : parsed.present → q.Clean → parsed.nodes ≠ []

end Parser

open TolerantParser.Parser in
/-- The productions one block further in do what they should. -/
structure Inner.Works (laid : Prop) (inner : Inner) : Prop where
  expressions : inner.e.Works laid True
  statement {level : Depth} {p : Parser} : Ready laid .block level p →
    Parses laid .block False level inner.statement p (Stated p)

namespace Parser

variable {α β : Type} {laid lead : Prop} {mode mode' : Mode} {level level' : Depth} {p q r o : Parser}
  {ps qs : List Piece} {inner : Inner}

/-! ### Lines that start no statement -/

theorem eatNewline_takes (ready : Ready laid mode level p) (ends : p.cell.kind.isLineEnd) :
    Takes laid .block (p.cell.kind = .newline) level (discard (eat .newline)) p fun _ qs q =>
      nodesOf qs = [] ∧ Ended p q := by
  refine takes_of_ends ?_
  rw [discard_eq, eat_eq, bind_assoc]
  rw [ends_bind_ok (show at? .newline p = .ok (p.cell.kind == .newline) p from rfl)]
  split
  next here =>
    have here : p.cell.kind = .newline := by simpa using here
    obtain ⟨cell, q, qs, bumps, moves, ready, bumped⟩ := bump_newline ready here
    rw [bind_assoc, ends_bind_ok bumps]
    exact ⟨qs, moves.weaken fun _ => trivial, ready, by simp [bumped.pieces],
      .lighter (bumped.weight (by simp [here]))⟩
  next other =>
    have other : p.cell.kind ≠ .newline := by simpa using other
    refine ⟨[], (Moves.refl laid .block p).weaken other, ready.block, rfl, .stops ?_⟩
    rcases isBlockEnd_of_isLineEnd ends other with ends | ends <;> rw [ends] <;> rfl

theorem newline_of_isLineEnd {kind : TokenKind} (ends : kind.isLineEnd) (goesOn : isBlockEnd kind = false) :
    kind = .newline := by
  cases kind <;> first | rfl | exact absurd ends (by decide) | exact absurd goesOn (by decide)

theorem skipLine_takes (ready : Ready laid .line level p) (unclean : ¬ p.Clean) :
    Takes laid .block (isBlockEnd p.cell.kind = false) level skipLine p fun _ qs q =>
      nodesOf qs = [] ∧ Ended p q := by
  by_cases ends : p.cell.kind.isLineEnd
  · obtain ⟨_, q, qs, eats, moves, ready, holds⟩ := eatNewline_takes ready ends
    exact ⟨_, q, qs, (TokenStream.bind_ok (skipToLineEnd_stays ends) _).trans eats,
      moves.weaken (newline_of_isLineEnd ends), ready, holds⟩
  · obtain ⟨_, q, qs, skips, line, ready, nothing, ends'⟩ := skipToLineEnd_takes ready unclean
    obtain ⟨_, r, qs', eats, moves, ready, nothing', ended⟩ := eatNewline_takes ready ends'
    refine ⟨_, r, _, (TokenStream.bind_ok skips _).trans eats, ((line.within (.line .block)).weaken ?_).trans
      moves, ready, by simp [nothing, nothing'], ended.before line.weight_le⟩
    exact fun _ => by simpa using ends

/-- A token that neither begins nor ends a block is of a line or ends it. -/
theorem stands_of_plain {kind : TokenKind} (rests : kind ≠ .comment) (opens : kind ≠ .indent)
    (closes : isBlockEnd kind = false) : Mode.line.Stands kind := by
  cases kind <;> first | exact .inl rfl | exact .inr rfl | exact absurd rfl rests |
    exact absurd rfl opens | cases closes

theorem recoverStatement_takes (ready : Ready laid .block level p) {parsed : Parsed}
    (absent : parsed.present = false → p.cell.kind ≠ .indent) :
    Takes laid .block False level (recoverStatement parsed) p fun goesOn qs q =>
      nodesOf qs = [] ∧ (parsed.present → goesOn ∧ q = p) ∧
        (goesOn = false → q = p ∧ isBlockEnd p.cell.kind) ∧
        (parsed.present = false → goesOn →
          isBlockEnd p.cell.kind = false ∧ p.position < q.position ∧ Ended p q ∧ ¬ q.Clean) := by
  refine takes_of_ends ?_
  rw [recoverStatement]
  split
  next present => exact ⟨[], .refl laid .block p, ready, rfl, by simp, by simp, by simp [present]⟩
  next missing =>
  have missing : parsed.present = false := by simpa using missing
  rw [ends_bind_ok (show atSet? isBlockEnd p = .ok (isBlockEnd p.cell.kind) p from rfl)]
  split
  next ends =>
    exact ⟨[], .refl laid .block p, ready, rfl, by simp [missing], fun _ => ⟨rfl, ends⟩, by simp⟩
  next goesOn =>
  have goesOn : isBlockEnd p.cell.kind = false := by simpa using goesOn
  rw [ends_bind_ok (show atSet? isClauseWord p = .ok (isClauseWord p.cell.kind) p from rfl),
    ends_bind_ok (show describeCurrent p = .ok (describe p.cell) p from rfl)]
  have only : ∀ c : Bool, isRecordedOnly (if c then .compoundMalformed else .statementMalformed) ∧
      isBlockError (if c then .compoundMalformed else .statementMalformed) = false := by decide
  obtain ⟨_, q, _, complains, moves, ready, rfl, still, errors⟩ := complain_takes ready
    s!"Unexpected {describe p.cell}" (only (isClauseWord p.cell.kind)).1 fun _ => (only _).2
  have same : q.cell = p.cell := still.cell
  have line : Ready laid .line level q := ready.line fun _ =>
    stands_of_plain ready.rests (same ▸ absent missing) (same ▸ goesOn)
  have unclean := not_clean_of_push errors
  obtain ⟨_, r, qs, skips, more, ready, nothing, ended⟩ := skipLine_takes line unclean
  rw [ends_bind_ok complains, ends_bind_ok skips]
  refine ⟨qs, moves.trans more, ready, nothing, by simp [missing], by simp, fun _ _ => ⟨goesOn, ?_,
    ended.before (Nat.le_of_eq still.weight), fun clean => unclean (more.toGrows.clean clean)⟩⟩
  exact still.position ▸ (more.leads (same ▸ goesOn)).2

/-! ### Statements up to the end of a block -/

/-- What every statement of a list makes smaller. -/
def room (p : Parser) : Nat := 2 * p.weight + if isBlockEnd p.cell.kind then 0 else 1

theorem Ended.room_lt (ended : Ended p q) (goesOn : isBlockEnd p.cell.kind = false)
    (lighter : q.weight ≤ p.weight) : q.room < p.room := by
  rw [room, room, goesOn, if_neg Bool.false_ne_true]
  obtain less | ends := ended
  · split <;> omega
  · rw [if_pos ends]
    omega

/-- The statements up to the end of a block, or to a token that stops them before. Without an error there are none
only where such a token comes first. -/
structure Listing (stop : TokenKind → Bool) (p : Parser) (nodes : List Node) (ps : List Piece) (q : Parser) : Prop where
  made : nodes = nodesOf ps
  ends : stop q.cell.kind ∨ isBlockEnd q.cell.kind
  empty : q.Clean → nodes = [] → stop p.cell.kind ∨ isBlockEnd p.cell.kind

/-- One round of a list of statements. -/
def statementRound (inner : Inner) (stop : TokenKind → Bool) (made : Option Nat × Array Node) :
    ParseM (ForInStep (Option Nat × Array Node)) := do
  if (← at? .endOfFile) || (← atSet? stop) then return .done made
  unless ← hasProgressed made.1 do return .done made
  let here := (← get).position
  let parsed ← inner.statement
  let nodes := made.2 ++ parsed.nodes.toArray
  if ← recoverStatement parsed then return .yield (some here, nodes)
  return .done (some here, nodes)

theorem statementList_eq (inner : Inner) (stop : TokenKind → Bool) :
    statementList inner stop = loop (none, #[]) (statementRound inner stop) >>= fun made => pure made.2.toList := rfl

/-- What one round of a list comes to: it goes on only if it has come further. -/
structure Rounded (stop : TokenKind → Bool) (made : Array Node) (outcome : ForInStep (Option Nat × Array Node))
    (ps : List Piece) (p q : Parser) : Prop where
  made : outcome.value.2.toList = made.toList ++ nodesOf ps
  ends {value : Option Nat × Array Node} : outcome = .done value → stop q.cell.kind ∨ isBlockEnd q.cell.kind
  goes {value : Option Nat × Array Node} : outcome = .yield value → value.1.all (· < q.position) ∧ q.room < p.room
  filled {value : Option Nat × Array Node} : outcome = .yield value → q.Clean → nodesOf ps ≠ []
  empty : q.Clean → nodesOf ps = [] → stop p.cell.kind ∨ isBlockEnd p.cell.kind

/-- A round is left off only where a statement is. -/
theorem statementRound_ends (stop : TokenKind → Bool) {breaks : Parser → Prop} {made : Option Nat × Array Node}
    (ready : Ready laid .block level p) (progress : made.1.all (· < p.position))
    (statement : Ends inner.statement p (fun parsed q => ∃ ps, Moves laid .block False ps p q ∧
      Ready laid .block level q ∧ Stated p parsed ps q) breaks) :
    Ends (statementRound inner stop made) p (fun outcome q => ∃ ps, Moves laid .block False ps p q ∧
      Ready laid .block level q ∧ Rounded stop made.2 outcome ps p q) breaks := by
  rw [statementRound, ends_bind_ok (show at? .endOfFile p = .ok (p.cell.kind == .endOfFile) p from rfl),
    ends_bind_ok (show atSet? stop p = .ok (stop p.cell.kind) p from rfl)]
  split
  next ends =>
    have ends : p.cell.kind = .endOfFile ∨ stop p.cell.kind := by simpa using ends
    have ends : stop p.cell.kind ∨ isBlockEnd p.cell.kind := ends.symm.imp_right fun ends => by rw [ends]; rfl
    exact ⟨[], .refl laid .block p, ready, (List.append_nil _).symm, fun _ => ends, nofun, nofun, fun _ _ => ends⟩
  rw [ends_bind_ok (show hasProgressed made.1 p = .ok (made.1.all (· < p.position)) p from rfl),
    if_pos progress, ends_bind_ok (show (get : ParseM Parser) p = .ok p p from rfl)]
  refine Ends.bind statement ?_
  rintro parsed q ⟨ps, behind, ready', stated⟩
  have plain : parsed.present = false → q.cell.kind ≠ .indent := fun missing => by
    rw [(stated.absent missing).1]
    exact (stated.absent missing).2
  obtain ⟨goesOn, r, qs, recovers, after, ready', nothing, stays, stops, goes⟩ :=
    recoverStatement_takes ready' plain
  have whole : nodesOf (ps ++ qs) = parsed.nodes := by simp [stated.nodes, nothing]
  have all : (made.2 ++ parsed.nodes.toArray).toList = made.2.toList ++ nodesOf (ps ++ qs) := by simp [whole]
  rw [ends_bind_ok recovers]
  cases goesOn with
  | false =>
    have absent : parsed.present = false := Bool.eq_false_iff.2 fun present => Bool.false_ne_true (stays present).1
    obtain ⟨rfl, -⟩ := stated.absent absent
    obtain ⟨rfl, ends⟩ := stops rfl
    exact ⟨_, behind.trans after, ready', all, fun _ => .inr ends, nofun, nofun, fun _ _ => .inr ends⟩
  | true =>
    have ahead : p.position < r.position ∧ isBlockEnd p.cell.kind = false ∧ Ended p r ∧
        (r.Clean → parsed.nodes ≠ []) := by
      cases present : parsed.present with
      | true =>
        obtain ⟨later, goesOn', ended⟩ := stated.present present
        obtain ⟨-, rfl⟩ := stays present
        exact ⟨later, goesOn', ended, stated.filled present⟩
      | false =>
        obtain ⟨goesOn', later, ended, unclean⟩ := goes present rfl
        obtain ⟨rfl, -⟩ := stated.absent present
        exact ⟨later, goesOn', ended, fun clean => absurd clean unclean⟩
    obtain ⟨later, goesOn', ended, filled⟩ := ahead
    refine ⟨_, behind.trans after, ready', all, nofun, ?_, fun _ => whole ▸ filled, fun clean none =>
      absurd (whole ▸ none) (filled clean)⟩
    rintro _ ⟨⟩
    exact ⟨by simpa using later, ended.room_lt goesOn' (behind.trans after).weight_le⟩

/-- A list of statements is left off only where a statement is. -/
theorem statementList_ends (stop : TokenKind → Bool) {breaks : Parser → Prop}
    (ready : Ready laid .block level p)
    (statement : ∀ ps q, Moves laid .block False ps p q → Ready laid .block level q →
      Ends inner.statement q (fun parsed r => ∃ qs, Moves laid .block False qs q r ∧
        Ready laid .block level r ∧ Stated q parsed qs r) breaks) :
    Ends (statementList inner stop) p (fun nodes q => ∃ ps, Moves laid .block False ps p q ∧
      Ready laid .block level q ∧ Listing stop p nodes ps q) breaks := by
  let inv : Option Nat × Array Node → Parser → Prop := fun read q => ∃ ps,
    Moves laid .block False ps p q ∧ Ready laid .block level q ∧ read.2.toList = nodesOf ps ∧
      read.1.all (· < q.position) ∧ (q.Clean → nodesOf ps = [] → q = p)
  let found : Option Nat × Array Node → Parser → Prop := fun read q => ∃ ps,
    Moves laid .block False ps p q ∧ Ready laid .block level q ∧ Listing stop p read.2.toList ps q
  rw [statementList_eq]
  refine Ends.bind (?_ : Ends _ p found breaks) (by rintro ⟨_, nodes⟩ q holds; exact holds)
  refine Ends.loop (fun _ q => q.room) inv ⟨[], .refl laid .block p, ready, rfl, rfl, fun _ _ => rfl⟩ ?_ ?_
  · have := weight_le_total ready.sound
    rw [room]
    split <;> omega
  rintro ⟨last, nodes⟩ q ⟨ps, before, ready, parts, progress, first⟩
  refine Ends.imp (statementRound_ends stop ready progress (statement ps q before ready)) ?_ fun _ broken => broken
  rintro outcome r ⟨qs, behind, ready', rounded⟩
  have all : outcome.value.2.toList = nodesOf (ps ++ qs) := by
    rw [rounded.made, parts, nodesOf_append]
  cases outcome with
  | done value =>
    refine ⟨_, before.trans behind, ready', all, rounded.ends rfl, fun clean none => ?_⟩
    rw [show value.2.toList = _ from all, nodesOf_append, List.append_eq_nil_iff] at none
    obtain rfl := first (behind.toGrows.clean clean) none.1
    exact rounded.empty clean none.2
  | yield value =>
    obtain ⟨further, smaller⟩ := rounded.goes rfl
    refine ⟨⟨_, before.trans behind, ready', all, further, fun clean none => ?_⟩, smaller⟩
    rw [nodesOf_append, List.append_eq_nil_iff] at none
    exact absurd none.2 (rounded.filled rfl clean)

theorem statementList_parses (works : inner.Works laid) (stop : TokenKind → Bool)
    (ready : Ready laid .block level p) :
    Parses laid .block False level (statementList inner stop) p (Listing stop p) :=
  statementList_ends stop ready fun _ _ moves ready =>
    Ends.imp (works.statement ready) (fun _ _ holds => holds) fun _ broken => broken.after moves

/-! ### Blocks -/

theorem Ready.unordered (ready : Ready laid mode level p) (unordered : ¬ p.Orderly laid)
    (awaited : level'.awaited = level.awaited) : Ready laid mode' level' p :=
  ⟨ready.sound, ready.rests, ready.inside, fun orderly => absurd orderly unordered, awaited ▸ ready.nested⟩

/-- Where the layout is in order and a block is open, what ends is the block and not the file. -/
theorem Ready.dedent (ready : Ready laid mode level.indented p) (orderly : p.Orderly laid)
    (ends : isBlockEnd p.cell.kind) : p.cell.kind = .dedent := by
  obtain ⟨layout, -, -⟩ := ready.laid orderly
  obtain ⟨rest, kinds⟩ := TokenStream.kinds_eq_cons ready.rests
  rw [show p.kinds = p.cell.kind :: rest from kinds] at layout
  have layout : Laid (level.blocks + 1) (p.cell.kind :: rest) := layout
  generalize p.cell.kind = kind at layout ends
  cases kind with
  | dedent => rfl
  | endOfFile =>
    cases layout with
    | inline inline => cases inline
  | _ => cases ends

/-- The layout of a block behind the token that opened it. -/
inductive ClosesBlock (ps : List Piece) : Prop
  | made (kinds : List TokenKind) (tokens : (tokensOf ps).map (·.kind) = kinds ++ [.dedent])
    (balanced : Balanced kinds)

theorem block_parses (works : inner.Works laid) (ready : Ready laid mode level.indented p) :
    Parses laid .free False level (block inner) p fun suite qs q =>
      nodesOf qs = suite.body ∧ (q.Orderly laid → ClosesBlock qs) ∧
        (q.Clean → q.Orderly laid → suite.body = [] → p.cell.kind = .dedent) := by
  rw [parses_iff, block]
  refine (statementList_parses works (· == .dedent) ready.block).bind
    fun body ps q before inside ⟨parts, ends, empty⟩ => ?_
  have balanced := before.allows
  have first : q.Clean → q.Orderly laid → body = [] → p.cell.kind = .dedent := fun clean orderly none => by
    rcases empty clean none with closes | ends
    · exact eq_of_beq closes
    · exact ready.dedent (before.toGrows.orderly orderly) ends
  replace ready := inside
  rw [eat_eq, bind_assoc, completes_at]
  split
  next here =>
    have here : q.cell.kind = .dedent := by simpa using here
    rw [bind_assoc]
    refine (before.within (.free _)).bind (bump_dedent ready here) fun cell qs r moves ready bumped => ?_
    refine moves.done ready ⟨by simp [parts, bumped.pieces], fun orderly => ?_, fun clean orderly => ?_⟩
    · exact ⟨_, by simp [bumped.pieces, here], balanced (bumped.orderly orderly)⟩
    · exact first (bumped.errors.symm.trans clean) (bumped.orderly orderly)
  next other =>
    have unordered : ¬ q.Orderly laid := fun orderly => other <| by
      rcases ends with closes | ends
      · exact closes
      · simp [ready.dedent orderly ends]
    obtain ⟨outcome, r, cells, recovers, passed, ready, -, arrived⟩ := recover_dedent ready none unordered
    have later : ¬ r.Orderly laid := fun orderly => unordered (passed.toGrows.orderly orderly)
    have nothing {c : Prop} : r.Orderly laid → c := fun orderly => absurd orderly later
    have moves := (before.within (.free _)).trans passed
    have whole : nodesOf (ps ++ tokenPieces cells) = body := by simp [parts]
    rw [completes_pure, if_neg (by simp), completes_iff, ends_bind_ok recovers]
    split
    · exact moves.done (ready.unordered later (by rfl)) ⟨whole, nothing, fun _ => nothing⟩
    split
    next resumed =>
      rw [discard_bind]
      refine moves.bind (bump_dedent ready (arrived resumed)) fun cell qs s moves ready bumped => ?_
      exact moves.done ready ⟨by simp [parts, bumped.pieces], fun orderly => nothing (bumped.orderly orderly),
        fun _ orderly => nothing (bumped.orderly orderly)⟩
    · exact moves.done (ready.unordered later (by rfl)) ⟨whole, nothing, fun _ => nothing⟩

theorem unindentedBlock_parses (works : inner.Works laid) (ready : Ready laid .block level p) :
    Parses laid .block False level (unindentedBlock inner) p fun suite qs q =>
      nodesOf qs = suite.body ∧ ¬ q.Clean := by
  rw [parses_iff, unindentedBlock, completes_atSet]
  refine (recover_takes ready none [] ?_ ?_).parses.bind fun outcome ps q moves ready ⟨nothing, _, _, errors⟩ => ?_
  · split <;> rfl
  · intro _
    split <;> rfl
  subst nothing
  have unclean := not_clean_of_push errors
  split
  · exact moves.done ready ⟨rfl, unclean⟩
  · refine moves.bind (statementList_parses works endsUnindented ready).grown fun body qs q moves ready grown => ?_
    exact moves.done ready ⟨by simp [grown.1.made], fun clean => unclean (grown.2.clean clean)⟩

/-- What comes of a block: it is empty only where an error was found, or where a block ends as it begins. -/
structure Suited (laid : Prop) (suite : Suite) (ps : List Piece) (q : Parser) : Prop where
  made : nodesOf ps = suite.body
  filled : q.Clean → q.Solid laid → suite.body ≠ []

theorem Solid.ahead (solid : p.Solid laid) : ¬ [.indent, .dedent] <:+: p.kinds := fun empty => by
  have whole : (p.stream.tokens.map (·.kind)).filter (· != .comment) =
      ((p.stream.behind.reverse.map Cell.toToken).map (·.kind)).filter (· != .comment) ++ p.kinds := by
    rw [TokenStream.tokens_eq, List.map_append, List.filter_append]
    rfl
  exact solid.2 (whole ▸ empty.trans (List.suffix_append _ p.kinds).isInfix)

theorem suite_parses (works : inner.Works laid) (ready : Ready laid .line level p) :
    Parses laid .block False level (suite inner) p (Suited laid) := by
  rw [parses_iff, suite, eat_eq, bind_assoc, completes_at]
  split
  next here =>
    have here : p.cell.kind = .newline := by simpa using here
    rw [bind_assoc]
    refine (bump_newline ready here).parses.forget.bind fun newline ps q line ready bumped => ?_
    rw [completes_pure, if_pos rfl, eat_eq, bind_assoc, completes_at]
    split
    next opens =>
      have opens : q.cell.kind = .indent := by simpa using opens
      rw [bind_assoc]
      refine (line.within (.free _)).bind (bump_indent ready opens) fun indent qs r moves ready bumped' => ?_
      refine Ends.imp (block_parses works ready) ?_ fun _ broken => broken.after moves
      rintro suite s ⟨more, behind, ready', parts, closes, empty⟩
      refine ⟨_, (moves.trans behind).shaped fun orderly => ?_, ready'.block, ?_, fun clean solid none => ?_⟩
      · obtain ⟨kinds, layout, balanced⟩ := closes orderly
        have whole : (tokensOf (ps ++ qs ++ more)).map (·.kind) =
            [.newline] ++ .indent :: (kinds ++ [.dedent]) := by
          simp [bumped.pieces, bumped'.pieces, here, opens, layout]
        have ends : Balanced [.newline] := rfl
        rw [Mode.allows_block, whole]
        exact ends.append balanced.block
      · simp [bumped.pieces, bumped'.pieces, parts]
      · -- the block would end right behind the token that opened it
        obtain ⟨rest, next⟩ := TokenStream.kinds_eq_cons ready.rests
        have ahead : p.kinds = [.newline] ++ [.indent, .dedent] ++ rest := by
          rw [bumped.kinds, bumped'.kinds, here, opens, show r.kinds = r.cell.kind :: rest from next,
            empty clean solid.1 none]
          rfl
        exact ((moves.trans behind).toGrows.solid clean solid).ahead ⟨_, _, ahead.symm⟩
    next =>
      refine line.last (unindentedBlock_parses works ready) fun suite qs r _ ⟨parts, unclean⟩ => ?_
      exact ⟨by simp [bumped.pieces, parts], fun clean => absurd clean unclean⟩
  next =>
    rw [completes_pure, if_neg (by simp), completes_canStartSimpleStatement]
    split
    · refine ((simpleStatement_parses works.expressions ready).weaken False.elim).bind
        fun body ps q moves ready parts => ?_
      exact moves.done ready ⟨parts.1.1.symm, fun _ _ => parts.1.2⟩
    · rw [completes_describeCurrent]
      refine (Moves.refl laid .block p).complain ready.block rfl (fun _ => rfl) fun q moves ready blamed => ?_
      exact moves.done ready ⟨rfl, fun clean => absurd clean blamed.unclean⟩

/-! ### Headers -/

/-- So many tokens of a line lie ahead. -/
structure Ahead (count : Nat) (kinds : List TokenKind) : Prop where
  stands : ∀ i < count, ∃ kind, kinds[i]? = some kind ∧ kind.isLineEnd = false

theorem bumpMany_parses (count : Nat) (ready : Ready laid .line level p) (ahead : Ahead count p.kinds)
    (unclean : ¬ p.Clean) : Parses laid .line False level (bumpMany count) p fun _ qs _ => nodesOf qs = [] := by
  induction count generalizing p with
  | zero => exact (Moves.refl laid .line p).done ready rfl
  | succ count ih =>
    obtain ⟨kind, first, goesOn⟩ := ahead.stands 0 (Nat.succ_pos _)
    obtain rfl := Option.some.inj ((kinds_head ready).symm.trans first)
    rw [parses_iff, bumpMany, discard_bind]
    refine (bump_goesOn ready goesOn unclean).parses.forget.bind fun cell ps q moves ready bumped => ?_
    have rest : Ahead count q.kinds := ⟨fun i small => by
      have later := ahead.stands (i + 1) (Nat.succ_lt_succ small)
      rwa [bumped.kinds, List.getElem?_cons_succ] at later⟩
    refine moves.last (ih ready rest fun clean => unclean (moves.toGrows.clean clean)) fun _ qs r _ parts => ?_
    simp [bumped.pieces, parts]

theorem Ahead.succ {count : Nat} {kinds : List TokenKind} (ahead : Ahead count kinds)
    (goesOn : (kinds[count]?.getD .endOfFile).isLineEnd = false) : Ahead (count + 1) kinds := by
  refine ⟨fun i small => ?_⟩
  rcases Nat.lt_succ_iff_lt_or_eq.1 small with earlier | rfl
  · exact ahead.stands i earlier
  · cases found : kinds[i]? with
    | none => simp [found, TokenKind.isLineEnd] at goesOn
    | some kind => exact ⟨kind, rfl, by simpa [found] using goesOn⟩

theorem Ahead.le_length {count : Nat} {kinds : List TokenKind} (ahead : Ahead count kinds) :
    count ≤ kinds.length := by
  by_contra more
  obtain ⟨kind, found, -⟩ := ahead.stands kinds.length (by omega)
  simp at found

theorem colonDistance_parses (ready : Ready laid .line level p) :
    Parses laid .line False level colonDistance p fun found qs q =>
      qs = [] ∧ (q.Clean → p.Clean) ∧ ∀ distance, found = some distance → Ahead (distance + 1) q.kinds := by
  let inv : Post (Bool × Nat) := fun value qs q => qs = [] ∧ q.kinds = p.kinds ∧ Ahead value.2 q.kinds
  let found : Post (Bool × Nat) := fun value qs q => qs = [] ∧ (value.1 → Ahead (value.2 + 1) q.kinds)
  rw [parses_iff, colonDistance]
  refine Completes.bind ((Moves.refl laid .line p).loopBy
    (fun value q => q.kinds.length + 1 - value.2) inv found ready ?_ ?_ ?_) ?_
  · exact ⟨rfl, rfl, ⟨fun i small => absurd small (Nat.not_lt_zero i)⟩⟩
  · have := ready.sound.kinds_length_le
    show p.stream.kinds.length + 1 - 0 < _
    omega
  · rintro ⟨_, distance⟩ ps q before ready ⟨nothing, same, ahead⟩
    subst nothing
    refine before.nth ready fun r moves ready still _ => ?_
    have kinds := still.kinds
    split
    next colon =>
      have colon : q.kinds[distance]?.getD .endOfFile = .colon := by simpa using colon
      exact moves.done ready ⟨rfl, fun _ => kinds ▸ ahead.succ (by rw [colon]; rfl)⟩
    split
    · exact moves.done ready ⟨rfl, by simp⟩
    next goesOn =>
      have further := ahead.succ (Bool.eq_false_iff.2 fun ends => goesOn (by simp [ends]))
      refine moves.done ready ⟨⟨rfl, kinds.trans same, kinds ▸ further⟩, ?_⟩
      have := further.le_length
      show r.kinds.length + 1 - (distance + 1) < q.kinds.length + 1 - distance
      rw [kinds]
      omega
  · rintro ⟨there, distance⟩ ps q moves ready ⟨nothing, ahead⟩
    refine moves.done ready ⟨nothing, moves.toGrows.clean, fun distance' same => ?_⟩
    cases there with
    | false => cases same
    | true =>
      obtain rfl := Option.some.inj same
      exact ahead rfl

theorem expectColon_parses (construct : String) (ready : Ready laid .line level p) :
    Parses laid .line False level (expectColon construct) p fun _ qs _ => nodesOf qs = [] := by
  rw [parses_iff, expectColon]
  refine (Moves.refl laid .line p).eat ready rfl (fun cell q _ moves ready _ => ?_) fun _ => ?_
  · exact moves.done ready rfl
  · rw [if_neg (by simp)]
    refine (Moves.refl laid .line p).complain ready rfl (fun _ => rfl) fun q moves ready blamed => ?_
    refine moves.bind (colonDistance_parses ready) fun found qs q moves ready ⟨nothing, clean, ahead⟩ => ?_
    subst nothing
    cases found with
    | none => exact moves.done ready rfl
    | some distance =>
      exact moves.parses (bumpMany_parses _ ready (ahead distance rfl) fun now => blamed.unclean (clean now))

theorem elseClause_parses (works : inner.Works laid) (construct : String) (failed : Bool)
    (ready : Ready laid .block level p) :
    Parses laid .block False level (elseClause inner construct failed) p fun nodes qs _ =>
      nodesOf qs = nodes := by
  rw [parses_iff, elseClause]
  split
  · exact (Moves.refl laid .block p).done ready rfl
  refine (Moves.refl laid .block p).eat ready rfl (fun cell q _ moves ready _ => ?_) fun _ => ?_
  · rw [if_pos rfl]
    refine moves.bind (expectColon_parses _ ready) fun _ qs q moves ready nothing => ?_
    refine moves.bind (suite_parses works ready) fun suite qs' q moves ready parts => ?_
    exact moves.done ready (by simp [nothing, parts.made])
  · exact (Moves.refl laid .block p).done ready rfl

end Parser

end TolerantParser
