import TolerantParser.Parser.Statement.Basic
import TolerantParser.Proofs.Statement.Compound

/-!
Statements of any form. One that nests too deeply is given up: the parse goes back to where it began, which
is still in the document, and skips its line instead. So looking for a statement always comes to something,
and so does a whole document.
-/

namespace TolerantParser.Parser

variable {α β : Type} {limits : Limits} {laid lead : Prop} {mode mode' : Mode} {level : Depth} {p q r o : Parser}
  {ps qs : List Piece} {inner : Inner}

/-- A statement can start at the cursor. -/
def starts (p : Parser) : Bool :=
  p.cell.kind == .indent || (p.dialect.compoundForm? p.cell.kind).isSome || p.startsSimple

theorem inline_of_startsSimple (here : p.startsSimple) : p.cell.kind.isInline := by
  rw [startsSimple, Bool.or_eq_true] at here
  rcases here with form | expression
  · obtain ⟨form, found⟩ := Option.isSome_iff_exists.1 form
    exact TokenKind.isInline_of_isOrdinary (simpleForm_word found).1
  · revert expression
    generalize p.cell.kind = kind
    cases kind <;> first | exact fun _ => rfl | exact fun starts => by cases starts

theorem goesOn_of_isInline {kind : TokenKind} (inline : kind.isInline) : isBlockEnd kind = false := by
  cases kind <;> first | rfl | cases inline

theorem goesOn_of_starts (started : p.starts) : isBlockEnd p.cell.kind = false := by
  rw [starts, Bool.or_eq_true, Bool.or_eq_true] at started
  rcases started with (indent | compound) | simple
  · rw [eq_of_beq indent]
    rfl
  · obtain ⟨form, found⟩ := Option.isSome_iff_exists.1 compound
    exact goesOn_of_isInline (TokenKind.isInline_of_isOrdinary (compoundForm_word found).1)
  · exact goesOn_of_isInline (inline_of_startsSimple simple)

/-! ### Blocks where none may start -/

/-- What was done since the parse has looked around was done since before. -/
theorem Still.completes {f : ParseM α} {post : Post α} (still : Still p q)
    (parses : Parses laid mode lead level f q post) : Completes laid mode lead level p f q post := by
  have looked : Moves laid mode False [] p q := .still still
  have behind : q.stream.behind = p.stream.behind := by simpa using still.steps.behind
  refine Ends.imp parses ?_ fun r broken => ?_
  · rintro value r ⟨ps, moves, ready, holds⟩
    refine ⟨ps, { looked.trans moves with leads := fun led => ?_ }, ready, holds⟩
    have bumps := moves.leads led
    rwa [Bumps, behind, still.cell, still.position] at bumps
  · refine { broken.after looked with bumped := fun led => ?_ }
    have kept := broken.bumped led
    rwa [behind, still.cell] at kept

theorem unexpectedBlock_parses (works : inner.Works laid) (ready : Ready laid .block level p)
    (here : p.cell.kind = .indent) :
    Parses laid .block True level (unexpectedBlock inner) p fun parsed qs q =>
      parsed.present ∧ parsed.nodes = nodesOf qs ∧ q.weight < p.weight ∧ ¬ q.Clean := by
  obtain ⟨_, q, _, complains, -, ready', rfl, still, errors⟩ :=
    complain_takes ready "Unexpected indent" (by rfl : isRecordedOnly .statementMalformed) fun _ => rfl
  have there : q.cell.kind = .indent := by rw [still.cell, here]
  rw [parses_iff, unexpectedBlock, completes_iff, ends_bind_ok complains]
  have unclean := not_clean_of_push errors
  refine Completes.imp (still.completes (Completes.grown ?_) : Completes laid .block True level p _ q
    fun parsed qs r => (parsed.present ∧ parsed.nodes = nodesOf qs) ∧ Grows q r) fun parsed qs r moves ⟨holds, grows⟩ =>
      ⟨holds.1, holds.2, moves.weight_lt trivial ready.rests (by simp [here]), fun clean => unclean (grows.clean clean)⟩
  rw [parses_iff, discard_bind]
  refine Completes.bind (bump_indent ready' there) fun indent ps r opens ready bumped => ?_
  refine Ends.bind (Ends.imp (statementList_parses works (· == .dedent) ready.block)
    (fun _ _ holds => holds) fun _ broken => broken.after opens) ?_
  rintro nodes s ⟨qs, inside, ready, parts, ends⟩
  have moves := opens.trans (inside.within (.free _))
  rw [discard_bind, eat_eq, bind_assoc]
  rw [ends_bind_ok (show at? .dedent s = .ok (s.cell.kind == .dedent) s from rfl)]
  split
  next closes =>
    have closes : s.cell.kind = .dedent := by simpa using closes
    rw [bind_assoc]
    refine Ends.bind (Ends.imp (bump_dedent ready closes) (fun _ _ holds => holds)
      fun _ broken => broken.after moves) ?_
    rintro dedent t ⟨more, after, ready, bumped'⟩
    refine ⟨_, (moves.trans after).shaped fun orderly => ?_, ready.block, rfl, ?_⟩
    · have balanced := (inside.allows (bumped'.orderly orderly)).block
      rw [Mode.allows_block]
      simpa [bumped.pieces, bumped'.pieces, there, closes] using balanced
    · simp [bumped.pieces, bumped'.pieces, parts]
  next other =>
    have unordered : ¬ s.Orderly laid := fun orderly => other <| by
      rcases ends with closes | ends
      · exact closes
      · simp [ready.dedent orderly ends]
    refine ⟨_, moves.shaped fun orderly => absurd orderly unordered, ready.unordered unordered rfl, rfl, ?_⟩
    simp [bumped.pieces, parts]

/-! ### Statements -/

theorem anyStatement_none (nothing : p.starts = false) : anyStatement inner p = .ok ⟨false, []⟩ p := by
  simp only [starts, Bool.or_eq_false_iff, Option.isSome_eq_false_iff, Option.isNone_iff_eq_none]
    at nothing
  obtain ⟨⟨notIndent, form⟩, notSimple⟩ := nothing
  have indent : at? .indent p = .ok false p := congrArg (EStateM.Result.ok · p) notIndent
  have start : (get : ParseM Parser) p = .ok p p := rfl
  have simple : canStartSimpleStatement p = .ok false p := congrArg (EStateM.Result.ok · p) notSimple
  rw [anyStatement, TokenStream.bind_ok indent, if_neg Bool.false_ne_true, TokenStream.bind_ok start,
    form]
  exact TokenStream.bind_ok simple _

theorem anyStatement_parses (works : inner.Works laid) (ready : Ready laid .block level p) :
    Parses laid .block p.starts level (anyStatement inner) p (Stated p) := by
  rw [parses_iff, anyStatement, completes_at]
  split
  next here =>
    have here : p.cell.kind = .indent := by simpa using here
    refine ((unexpectedBlock_parses works ready here).led trivial).forget.imp ?_
    rintro parsed ps q _ ⟨⟨present, nodes, lighter, unclean⟩, later⟩
    exact ⟨nodes.symm, fun _ => ⟨later, by rw [here]; rfl, .lighter lighter⟩, by simp [present], fun _ clean =>
      absurd clean unclean⟩
  next notIndent =>
  rw [completes_get]
  split
  next form found =>
    have word := compoundForm_word found
    have goesOn := goesOn_of_isInline (TokenKind.isInline_of_isOrdinary word.1)
    refine (((compoundForm_parses works ready word.1 word.2.2).lighter ready.rests word.2.1).led
      trivial).forget.bind fun node ps q moves ready ⟨⟨⟨run, made⟩, lighter⟩, later⟩ => ?_
    exact moves.done ready ⟨by simp [made], fun _ => ⟨later, goesOn, .lighter lighter⟩, by simp, by simp⟩
  next unformed =>
  rw [completes_canStartSimpleStatement]
  split
  next simple =>
    have inline := inline_of_startsSimple simple
    refine ((simpleStatement_parses works.expressions (ready.line fun _ => .inl inline)).led
      simple).forget.bind fun nodes ps q moves ready ⟨⟨parts, ended⟩, later⟩ => ?_
    exact moves.done ready ⟨parts.1.symm, fun _ => ⟨later, goesOn_of_isInline inline, ended⟩, by simp, fun _ _ =>
      parts.2⟩
  next other =>
    refine ((Moves.refl laid .block p).weaken fun started => ?_).done ready
      ⟨rfl, by simp, fun _ => ⟨rfl, by simpa using notIndent⟩, nofun⟩
    have form : p.dialect.compoundForm? p.cell.kind = none :=
      Option.eq_none_iff_forall_ne_some.2 unformed
    simp only [starts, Bool.or_eq_true, form, Option.isSome_none, Bool.false_eq_true, or_false] at started
    exact started.elim notIndent other

/-! ### Giving up -/

/-- The parse is back where it was, but for tokens put in since. -/
structure Back (p q : Parser) : Prop where
  dialect : q.dialect = p.dialect
  mends : Mends p.stream.tokens q.stream.tokens
  sound : q.stream.Sound
  behind : q.stream.behind = p.stream.behind
  cell : q.cell = p.cell
  errors : q.errors = p.errors
  collectors : q.collectors = p.collectors
  position : q.position = p.position

theorem Broken.rewind (broken : Broken True p q) : ∃ r, rewind p.here q = .ok () r ∧ Back p r := by
  obtain ⟨inner, cells, collectors⟩ := broken.collectors
  obtain ⟨after, document⟩ := broken.bumped trivial
  rw [List.append_assoc, List.singleton_append] at document
  have seeks := TokenStream.seek_eq broken.sound.nodup document.symm
  have keeps := broken.sound.seek p.cell.index
  refine ⟨_, rewind_eq p q, ⟨?_, ?_, keeps.sound, ?_, ?_, errors_rewound broken.errors, ?_, rfl⟩⟩
  · exact keeps.dialect.trans broken.dialect
  · show Mends p.stream.tokens (q.stream.seek p.cell.index).tokens
    rw [keeps.tokens]
    exact broken.mends
  · show (q.stream.seek p.cell.index).behind = _
    rw [seeks, List.reverse_reverse]
  · show (q.stream.seek p.cell.index).current = _
    rw [seeks]
  · show Parser.kept p.collectors q.collectors = _
    rw [collectors, kept_append]

/-- Where a statement is given up its line is skipped. No more is claimed of the layout then. -/
theorem abandonStatement_takes (ready : Ready laid .block level p) (started : p.starts)
    (broken : Broken True p q) :
    ∃ parsed r ps, abandonStatement p.here q = .ok parsed r ∧ Moves laid .block False ps p r ∧
      Ready laid .block level r ∧ Stated p parsed ps r := by
  obtain ⟨r, rewinds, back⟩ := broken.rewind
  have rests : r.stream.Rests := by
    rw [TokenStream.Rests, show r.stream.current = p.cell from back.cell]
    exact ready.rests
  have passed : r.passed = p.passed := by rw [Parser.passed, Parser.passed, back.behind]
  have again : Ready False .line level r :=
    ⟨back.sound, rests, back.collectors ▸ ready.inside, fun orderly => orderly.1.elim, fun clean =>
      passed ▸ ready.nested (back.errors.symm.trans clean)⟩
  obtain ⟨_, s, _, complains, -, after, rfl, still, errors⟩ :=
    complain_takes again tooDeepMessage (by rfl : isRecordedOnly .statementMalformed) fun _ => rfl
  rw [back.errors] at errors
  have unclean := not_clean_of_push errors
  have excited : ¬ s.Calm := fun calm =>
    calm (r.errorHere .statementMalformed (some tooDeepMessage)) (by simp [errors]) rfl
  have unordered : ¬ s.Orderly laid := fun orderly => excited orderly.2
  have met : s.met = p.met := by
    rw [Parser.met, Parser.met, still.steps.behind, back.behind, still.cell, back.cell]
    rfl
  have same : missed s.errors.toList = missed p.errors.toList := by
    rw [errors, Array.toList_push, missed, List.filter_append, List.map_append]
    exact List.append_nil _
  have moves : Moves laid .block False [] p s := {
    dialect := still.dialect.trans back.dialect
    mends := by
      rw [still.steps.tokens]
      exact back.mends
    errors := by simp [errors]
    files := fun filed => by
      have trail : p.stream.trail = r.stream.trail := by
        rw [TokenStream.trail, TokenStream.trail, back.behind, show r.stream.current = p.stream.current from back.cell]
      refine filed.onward (trail ▸ still.steps.trail) (by rw [errors, Array.toList_push]) ?_
      exact List.forall_mem_singleton.2 (congrArg Cell.index back.cell)
    quiet := fun same => by
      have sizes := congrArg Array.size (errors.symm.trans same)
      simp at sizes
    behind := ⟨[], by rw [still.steps.behind, back.behind], rfl⟩
    collectors := by simp [still.collectors, back.collectors]
    position := Nat.le_of_eq (still.position.trans back.position).symm
    leads := False.elim
    spans := by simp
    lies := fun _ => (congrArg (·.first) (still.cell.trans back.cell)).ge
    newNames := fun _ _ errorNames => ⟨[], (errorNames.again met same excited).nothing []⟩
    allows := fun _ => Mode.block.allows_nil
    whole := fun _ => by simp
    literate := by simp }
  have goesOn : isBlockEnd s.cell.kind = false := by
    rw [still.cell, back.cell]
    exact goesOn_of_starts started
  have ready' : Ready laid .line level s :=
    ⟨after.sound, after.rests, after.inside, fun orderly => absurd orderly unordered, after.nested⟩
  obtain ⟨_, t, qs, skips, line, ready', nothing, ended⟩ := skipLine_takes ready' unclean
  have steps : abandonStatement p.here q = .ok ⟨true, []⟩ t := by
    rw [abandonStatement, TokenStream.bind_ok rewinds]
    exact (TokenStream.bind_ok complains _).trans (TokenStream.bind_ok skips _)
  refine ⟨_, t, qs, steps, moves.trans line, ready', nothing, fun _ =>
    ⟨?_, goesOn_of_starts started, ended.before moves.weight_le⟩, by simp, fun _ clean =>
    absurd (line.toGrows.clean clean) unclean⟩
  exact Nat.lt_of_le_of_lt moves.position (line.leads goesOn).2

theorem guardedStatement_takes (works : inner.Works laid) (ready : Ready laid .block level p) :
    Takes laid .block False level (guardedStatement inner) p (Stated p) := by
  have began : checkpoint p = .ok p.here p := rfl
  have guards : guardedStatement inner p = orTooDeep (anyStatement inner) (abandonStatement p.here) p :=
    TokenStream.bind_ok began _
  rw [Takes, guards, orTooDeep]
  cases started : p.starts with
  | false =>
    rw [anyStatement_none started]
    have notIndent : p.cell.kind ≠ .indent := fun here => by simp [starts, here] at started
    exact ⟨_, p, [], rfl, .refl laid .block p, ready, rfl, by simp, fun _ => ⟨rfl, notIndent⟩, nofun⟩
  | true =>
    have any := anyStatement_parses works ready
    rw [started] at any
    cases steps : anyStatement inner p with
    | ok parsed q =>
      rw [parses_iff, completes_iff, ends_ok steps] at any
      obtain ⟨ps, moves, ready, stated⟩ := any
      exact ⟨parsed, q, ps, rfl, moves.weaken False.elim, ready, stated⟩
    | error fault q =>
      simp only [parses_iff, Completes, Ends, steps] at any
      obtain ⟨rfl, broken⟩ := any
      exact abandonStatement_takes ready started broken

theorem statementAt_parses {e : Nested} (works : e.Works laid True) (depth : Nat) {level : Depth}
    {p : Parser} (ready : Ready laid .block level p) :
    Parses laid .block False level (statementAt e depth) p (Stated p) := by
  induction depth generalizing level p with
  | zero => exact ⟨rfl, broken_refl ready.sound⟩
  | succ depth ih => exact (guardedStatement_takes ⟨works, ih⟩ ready).parses

/-- Looking for a statement of a document always comes to something. -/
theorem full_statement_takes (limits : Limits) (laid : Prop) {level : Depth} {p : Parser}
    (ready : Ready laid .block level p) :
    Takes laid .block False level (full limits).statement p (Stated p) :=
  guardedStatement_takes ⟨full_works limits laid, statementAt_parses (full_works limits laid) _⟩ ready

/-! ### Documents -/

theorem dedent_of_isBlockEnd {kind : TokenKind} (ends : isBlockEnd kind) (more : kind ≠ .endOfFile) :
    kind = .dedent := by
  cases kind <;> first | rfl | exact absurd rfl more | cases ends

/-- Outside of all blocks none ends, where the layout is in order. -/
theorem Ready.outside (ready : Ready laid mode .outermost p) (closes : p.cell.kind = .dedent) :
    ¬ p.Orderly laid := by
  intro orderly
  obtain ⟨layout, -, -⟩ := ready.laid orderly
  obtain ⟨rest, kinds⟩ := TokenStream.kinds_eq_cons ready.rests
  rw [show p.kinds = p.cell.kind :: rest from kinds, closes] at layout
  have layout : Laid 0 (.dedent :: rest) := layout
  cases layout with
  | inline inline => cases inline

theorem documentBody_takes (ready : Ready laid .block .outermost p) :
    Takes laid .block False .outermost (documentBody (full limits)) p fun nodes ps q =>
      nodes = nodesOf ps ∧ q.cell.kind = .endOfFile := by
  let inv : Array Node → Parser → Prop := fun nodes q => ∃ ps, Moves laid .block False ps p q ∧
    Ready laid .block .outermost q ∧ nodes.toList = nodesOf ps
  let found : Array Node → Parser → Prop := fun nodes q => ∃ ps, Moves laid .block False ps p q ∧
    Ready laid .block .outermost q ∧ nodes.toList = nodesOf ps ∧ q.cell.kind = .endOfFile
  refine takes_of_ends (Ends.bind (?_ : Ends _ p found _) fun _ _ holds => holds)
  refine Ends.loop (fun _ q => q.weight) inv ⟨[], .refl laid .block p, ready, rfl⟩ ?_ ?_
  · have := weight_le_total ready.sound
    omega
  rintro nodes q ⟨ps, before, ready, parts⟩
  refine Ends.bind (statementList_ends (· == .endOfFile) ready fun _ _ _ ready =>
    (full_statement_takes limits laid ready).ends) ?_
  rintro listed r ⟨qs, behind, ready, rfl, ends, -⟩
  have all : (nodes ++ (nodesOf qs).toArray).toList = nodesOf (ps ++ qs) := by simp [parts]
  rw [ends_bind_ok (show at? .endOfFile r = .ok (r.cell.kind == .endOfFile) r from rfl)]
  split
  next here => exact ⟨_, before.trans behind, ready, all, by simpa using here⟩
  next other =>
  have more : r.cell.kind ≠ .endOfFile := by simpa using other
  have closes : r.cell.kind = .dedent :=
    dedent_of_isBlockEnd (ends.resolve_left fun ends => other ends) more
  have unordered := ready.outside closes
  rw [ends_bind_ok (show describeCurrent r = .ok (describe r.cell) r from rfl)]
  obtain ⟨_, s, _, complains, looked, ready', rfl, still, errors⟩ := complain_takes ready
    s!"Unexpected {describe r.cell} at module level" (by rfl : isRecordedOnly .endOfFileExpected)
    fun orderly => absurd orderly unordered
  obtain ⟨_, t, _, bumps, onward, ready', bumped⟩ := bump_takes ready' (still.cell ▸ more)
    (fun orderly _ _ _ _ => absurd (looked.toGrows.orderly orderly) unordered)
    fun clean => absurd clean (not_clean_of_push errors)
  rw [ends_bind_ok complains, discard_bind, ends_bind_ok bumps]
  refine ⟨⟨_, (before.trans behind).trans (looked.trans onward), ready', ?_⟩, ?_⟩
  · simp [all, bumped.pieces]
  · calc t.weight
      _ < s.weight := bumped.weight (by rw [still.cell, closes]; decide)
      _ = r.weight := still.weight
      _ ≤ q.weight := behind.weight_le

/-- What has come of a parse that made the tree of a document. -/
structure Whole (laid : Prop) (p : Parser) (tree : Node) (q : Parser) : Prop extends Grows p q where
  kind : tree.kind = .document
  outside : q.collectors = []
  sound : q.stream.Sound
  ends : q.cell.kind = .endOfFile
  owned : q.cell ∈ tree.tokens
  spans : ∃ moved, q.stream.behind = moved.reverse ++ p.stream.behind ∧
    Spans (Spaced p.stream.tokens) (q.Orderly laid) tree (TokenStream.significant moved ++ [q.cell])
  placed : Spaced p.stream.tokens → tree.Placed
  proper : q.Orderly laid → q.Proper
  nested : q.Clean → awaitedAfter [] q.passed = some []
  whole : q.Clean → tree.Whole (q.Solid laid)
  literate : tree.Literate q.errors.toList
  newNames : ∀ names, ErrorNames names p → ∃ more, ErrorNames (names ++ more) q ∧ more.Sublist (q.met.map Cell.index) ∧
    tree.OnlyPlaceholdersOwn more

theorem document_ok (sound : p.stream.Sound) (rests : p.stream.Rests) (outside : p.collectors = [])
    (layout : p.Orderly laid → Laid 0 p.kinds ∧ p.Proper) (behind : awaitedAfter [] p.passed = some []) :
    ∃ tree q, document (full limits) p = .ok tree q ∧ Whole laid p tree q := by
  have ready : Ready laid .block .outermost p.opened :=
    ⟨sound, rests, List.cons_ne_nil _ _, fun orderly => ⟨(layout orderly).1, trivial, (layout orderly).2⟩,
      fun _ => behind⟩
  obtain ⟨_, q, ps, steps, moves, ready', rfl, ends⟩ := documentBody_takes ready
  let r : Parser := { q with collectors := grow [q.cell] q.collectors }
  have collectors : r.collectors = grow (tokensOf ps ++ [q.cell]) p.opened.collectors := by
    simp [r, moves.collectors]
  obtain ⟨closes, around⟩ := close_ok collectors
  let tree := Node.make .document .none p.cell (tokensOf ps ++ [q.cell])
    (.ofList (several .body (nodesOf ps)))
  have makes : document (full limits) p = .ok tree r.closed := by
    have looks : (get : ParseM Parser) q = .ok q q := rfl
    have takes : take q.cell q = .ok q.cell r := TokenStream.bind_ok (collect_eq [q.cell] q) _
    rw [document, build_ok ((TokenStream.bind_ok steps _).trans ((TokenStream.bind_ok looks _).trans
      (TokenStream.bind_ok (TokenStream.discard_ok takes) _)))]
    exact TokenStream.bind_ok closes _
  have notStarred : ¬ tree.kind.isStarred := by
    rw [show tree.kind = .document from rfl]
    decide
  have children : tree.children.nodes = nodesOf ps := by
    rw [show tree.children = .ofList (several .body (nodesOf ps)) from rfl, nodes_ofList, madeOf_several]
  have made : nodesOf (ps ++ [.token q.cell]) = tree.children.nodes := by simp [children]
  have settled {lo hi} (lies : Lies lo (ps ++ [.token q.cell]) hi) :
      Settled tree.children.nodes (nodesOf (ps ++ [.token q.cell])) :=
    made ▸ settled_of_pairwise lies.sorted
  have lies : Spaced p.stream.tokens → Lies p.cell.first (ps ++ [.token q.cell]) q.cell.last := fun spaced => by
    have listed : q.cell.toToken ∈ q.stream.tokens := by
      rw [TokenStream.tokens_eq]
      exact List.mem_append_right _ List.mem_cons_self
    have stretches := (moves.mends.spaced spaced).stretches q.cell.toToken listed
    exact (moves.lies spaced).append ⟨le_refl q.cell.first, ⟨stretches.le, nofun,
      List.forall_mem_singleton.2 stretches⟩, le_refl q.cell.last⟩
  have spans : Spans (Spaced p.stream.tokens) (q.Orderly laid) tree (cellsOf (ps ++ [.token q.cell])) := by
    refine .mk ⟨⟨rfl, rfl⟩, ?_, ?_, fun starred => absurd starred notStarred, fun orderly => ?_,
      .firm rfl, nofun, fun spaced => settled (lies spaced), contained_of_none rfl _ _, nofun, .free rfl⟩
      fun inner run member => ?_
    · rw [tokensOf_append]
      exact .refl _
    · exact childs_of_eq (by simp [children]) (by simpa using notStarred)
    · have last : Mode.block.Allows [.token q.cell] := by
        rw [Mode.allows_block, tokensOf_token, List.map_cons, ends]
        rfl
      exact (moves.allows orderly).append last
    · exact moves.spans inner run (by simpa using member)
  have whole : cellsOf (ps ++ [.token q.cell]) = cellsOf ps ++ [q.cell] := by simp
  obtain ⟨moved, behind, run⟩ := moves.behind
  exact ⟨tree, r.closed, makes,
    { moves.toGrows with
      files := fun filed => (moves.files (filed.ofEngine rfl)).ofEngine rfl
      kind := rfl
      outside := around.trans outside
      sound := ready'.sound
      ends
      owned := List.mem_append_right (tokensOf ps) (List.mem_singleton_self q.cell)
      spans := ⟨moved, behind, run ▸ whole ▸ spans⟩
      placed := fun spaced => by
        have own : tokensOf ps ++ [q.cell] ⊆ tokensOf (ps ++ [.token q.cell]) := by simp
        exact ((lies spaced).make ⟨le_refl p.cell.first, (lies spaced).le⟩ own (fun _ child => made ▸ child)
          (settled (lies spaced))).2.2
      proper := fun orderly => (ready'.laid orderly).2.2
      nested := ready'.nested
      whole := fun clean => .mk (fun same => by cases same) (fun _ => nofun) fun child member =>
        moves.whole clean child (children ▸ member)
      literate := .mk nofun fun child member => moves.literate child (children ▸ member)
      newNames := fun names errorNames => by
        have nodup := ready'.sound.nodup
        rw [TokenStream.document, List.map_append, List.map_cons, List.nodup_append] at nodup
        have places : (q.stream.behind.map Cell.index).Nodup := by simpa using nodup.1
        obtain ⟨more, newNames⟩ := moves.newNames places names (errorNames.ofEngine rfl)
        have among : more.Sublist (q.stream.behind.reverse.map Cell.index) :=
          newNames.among.trans (moves.cells_sublist.map _)
        refine ⟨more, newNames.errorNames.ofEngine rfl, ?_, .mk (fun cell own named => ?_) fun child member =>
          newNames.owners child (children ▸ member)⟩
        · exact among.trans ((List.sublist_append_left ..).map _)
        · rcases List.mem_append.1 own with inner | last
          · exact absurd named (newNames.apart cell inner)
          · rw [List.mem_singleton.1 last] at named
            exact absurd rfl (nodup.2.2 _ (among.subset named) _ List.mem_cons_self) }⟩

end TolerantParser.Parser
