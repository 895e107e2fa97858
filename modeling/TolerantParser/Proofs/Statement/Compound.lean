import TolerantParser.Parser.Statement.Compound
import TolerantParser.Proofs.Statement.Suite

/-!
Statements that hold blocks. Each makes one node of its header, its blocks and whatever repair went over
in between. The clauses of a condition are nodes within each other that are all left open until the last
has been read (`Open`).
-/

namespace TolerantParser.Parser

variable {α β : Type} {laid lead : Prop} {mode mode' : Mode} {level : Depth} {p q r o : Parser}
  {ps qs : List Piece} {inner : Inner}

/-- One node was made of all that was gone over. -/
def Made : Post Node := fun node ps _ => ∃ run, ps = [.node node run]

/-- The children written down are the nodes that were made, with a block among them, unless an error was found or
a block ends where it begins. -/
structure Blocked (laid : Prop) (parts : Detail × List (Label × Option Node)) (ps : List Piece)
    (q : Parser) : Prop where
  made : nodesOf ps = madeOf parts.2
  filled : q.Clean → q.Solid laid → entriesOf .body parts.2 ≠ []

/-- A node that begins with a word and holds a block. -/
theorem build_word {kind : NodeKind} {rest : ParseM (Detail × List (Label × Option Node))}
    (ready : Ready laid .block level p) (ordinary : p.cell.kind.isOrdinary) (firm : kind.isFirm) (free : kind.isFree)
    (completes : ∀ q, Moves laid .block True [.token p.cell] p.opened q → Ready laid .line level q →
      Completes laid .block True level p.opened rest q (Blocked laid)) :
    Parses laid .block True level (build kind do
      discard bump
      rest) p Made := by
  refine build_parses (Blocked laid) ready ?_ fun _ _ _ _ blocked =>
    ⟨.block blocked.made firm (.free free) fun clean solid _ => blocked.filled clean solid, fun _ _ => ⟨_, rfl⟩⟩
  rw [parses_iff, discard_bind]
  refine ready.opened.bump ordinary fun cell q same moves ready _ => ?_
  exact completes q (same ▸ moves.within (.line .block)) ready

/-! ### Conditions -/

/-- Clauses of a condition have been begun since `p`, the nearest first, and the parse has come behind
the nearest. -/
inductive Open (laid : Prop) (level : Depth) (p : Parser) : List OpenClause → Parser → Prop
  | none : Open laid level p [] p
  | clause {clause : OpenClause} {outer : List OpenClause} {o q : Parser} {ps : List Piece}
      (around : Open laid level p outer o) (ready : Ready laid .block level o)
      (marked : clause.marker = o.marker) (moves : Moves laid .block True ps o.opened q)
      (parts : nodesOf ps = clause.test :: clause.body) (filled : q.Clean → q.Solid laid → clause.body ≠ []) :
      Open laid level p (clause :: outer) q

namespace Open

variable {clauses : List OpenClause}

/-- Given up inside of the clauses, the parse is given up around them. -/
theorem broken (opened : Open laid level p clauses q) (broken : Broken True q r) : Broken True p r := by
  induction opened generalizing r with
  | none => exact broken
  | clause _ _ _ moves _ _ ih => exact ih (broken.after moves).closed

/-- The clauses become nodes, each in the one around it. -/
theorem close (opened : Open laid level p clauses o) {node : Node} {run : List Cell}
    (moves : Moves laid .block True [.node node run] o q) (ready : Ready laid .block level q) :
    Completes laid .block True level p (closeLadder node clauses) q Made := by
  induction opened generalizing node run q with
  | none => exact moves.done ready ⟨run, rfl⟩
  | @clause clause outer o' _ ps _ began marked before parts filled ih =>
    have held : Held .conditional .none (child .test clause.test ++ several .body clause.body ++
        several .orElse [node]) (ps ++ [.node node run]) q laid :=
      .block (by simp [parts]) rfl (.free rfl) fun clean solid _ => by
        have block := filled (moves.toGrows.clean clean) (moves.toGrows.solid clean solid)
        simp [entriesOf_append, entriesOf_several, block]
    obtain ⟨node', completes, -, outside, whole⟩ :=
      (before.trans moves).complete_ok held (.refl _)
    rw [closeLadder, marked, completes_iff, ends_bind_ok completes]
    exact ih whole (ready.ofEngine rfl (outside ▸ began.inside))

end Open

theorem openClause_completes (works : inner.Works laid) (outer : List OpenClause)
    (ready : Ready laid .block level q.opened) (ordinary : q.cell.kind.isOrdinary) :
    Completes laid .block True level q.opened (openClause inner outer) q fun ladder ps r =>
      ladder.outer = outer ∧ ladder.last.marker = q.marker ∧
        nodesOf ps = ladder.last.test :: ladder.last.body ∧ (r.Clean → r.Solid laid → ladder.last.body ≠ []) := by
  rw [openClause, completes_start]
  refine ready.bump ordinary fun cell r _ moves ready _ => ?_
  refine (moves.within (.line .block)).bind (works.expressions.item true r ready)
    fun test qs r moves ready ⟨run, made, _⟩ => ?_
  refine moves.bind (expectColon_parses _ ready) fun _ qs r moves ready nothing => ?_
  refine moves.bind (suite_parses works ready) fun suite qs r moves ready suited => ?_
  exact moves.done ready ⟨rfl, rfl, by simp [made, nothing, suited.made], suited.filled⟩

/-- The clauses of a ladder are open, and the parse has come behind the last. -/
structure Climbs (laid : Prop) (level : Depth) (p : Parser) (ladder : Ladder) (q : Parser) : Prop where
  opened : Open laid level p (ladder.last :: ladder.outer) q
  ready : Ready laid .block level q

/-- One more clause is begun. -/
theorem Open.climb (works : inner.Works laid) {clauses : List OpenClause}
    (opened : Open laid level p clauses q) (ready : Ready laid .block level q)
    (ordinary : q.cell.kind.isOrdinary) :
    Ends (openClause inner clauses) q
      (fun ladder r => Climbs laid level p ladder r ∧ (q.cell.kind ≠ .name → r.weight < q.weight))
      (Broken True p) := by
  refine Ends.imp (openClause_completes works clauses ready.opened ordinary) ?_ fun _ broken =>
    opened.broken broken.closed
  rintro ladder r ⟨ps, moves, ready', outer, marked, parts, filled⟩
  exact ⟨⟨.clause (outer ▸ opened) ready marked moves parts filled, ready'⟩,
    moves.weight_lt trivial ready.rests⟩

/-- Behind the last clause there may be another block. -/
theorem Climbs.finish (works : inner.Works laid) {ladder : Ladder} (climbs : Climbs laid level p ladder q) :
    Completes laid .block True level p (do
      let orElse ← elseClause inner "if statement" ladder.failed
      let node ← complete ladder.last.marker .conditional .none
        (child .test ladder.last.test ++ several .body ladder.last.body ++ several .orElse orElse)
      closeLadder node ladder.outer) q Made := by
  obtain ⟨opened, ready⟩ := climbs
  cases opened with
  | @clause _ _ o _ ps around began marked moves parts filled =>
    rw [marked, ← bind_assoc]
    have last : Completes laid .block True level o (do
        let orElse ← elseClause inner "if statement" ladder.failed
        complete o.marker .conditional .none
          (child .test ladder.last.test ++ several .body ladder.last.body ++ several .orElse orElse))
        q Made := by
      refine moves.bind (elseClause_parses works _ _ ready).grown fun orElse qs r moves ready ⟨parts', grows⟩ => ?_
      refine moves.complete began.inside ready
        (.block (by simp [parts, parts']) rfl (.free rfl) fun clean solid _ => ?_)
        fun _ _ => ⟨_, rfl⟩
      have block := filled (grows.clean clean) (grows.solid clean solid)
      simp [entriesOf_append, entriesOf_several, block]
    refine Ends.bind (Ends.imp last (fun _ _ holds => holds) fun _ broken => around.broken broken) ?_
    rintro node r ⟨_, moves, ready, run, rfl⟩
    exact around.close moves ready

theorem conditional_parses (works : inner.Works laid) (ready : Ready laid .block level p)
    (ordinary : p.cell.kind.isOrdinary) :
    Parses laid .block True level (conditional inner) p Made := by
  rw [parses_iff, conditional]
  refine Ends.bind (Open.none.climb works ready ordinary) fun ladder q ⟨climbs, _⟩ => ?_
  refine Ends.bind ?_ fun ladder q climbs => Climbs.finish works climbs
  refine Ends.loop (fun _ q => q.weight) (Climbs laid level p) climbs ?_ ?_
  · have := weight_le_total climbs.2.sound
    omega
  · rintro ladder q ⟨opened, ready⟩
    rw [ends_bind_ok (show at? .kwElif q = .ok (q.cell.kind == .kwElif) q from rfl)]
    split
    next => exact ⟨opened, ready⟩
    next goesOn =>
      have here : q.cell.kind = .kwElif := by simp at goesOn; exact goesOn.2
      refine Ends.bind (opened.climb works ready (by rw [here]; rfl)) fun ladder r ⟨climbs, lighter⟩ => ?_
      exact ⟨climbs, lighter (by simp [here])⟩

/-! ### Loops and with -/

theorem whileLoop_parses (works : inner.Works laid) (ready : Ready laid .block level p)
    (ordinary : p.cell.kind.isOrdinary) :
    Parses laid .block True level (whileLoop inner) p Made := by
  refine build_word ready ordinary rfl rfl fun q moves ready => ?_
  refine moves.bind (works.expressions.item true q ready) fun test qs q moves ready ⟨run, made, _⟩ => ?_
  refine moves.bind (expectColon_parses _ ready) fun _ qs q moves ready nothing => ?_
  refine moves.bind (suite_parses works ready) fun suite qs q moves ready suited => ?_
  refine moves.bind (elseClause_parses works _ _ ready).grown fun orElse qs q moves ready ⟨other, grows⟩ => ?_
  refine moves.done ready ⟨by simp [made, nothing, suited.made, other], fun clean solid => ?_⟩
  simp [entriesOf_append, entriesOf_several, suited.filled (grows.clean clean) (grows.solid clean solid)]

theorem forLoop_parses (works : inner.Works laid) (ready : Ready laid .block level p)
    (ordinary : p.cell.kind.isOrdinary) :
    Parses laid .block True level (forLoop inner) p Made := by
  refine build_word ready ordinary rfl rfl fun q moves ready => ?_
  refine moves.bind (exprList_item works.expressions q ready)
    fun target qs q moves ready ⟨run, made, _⟩ => ?_
  refine moves.expect ready rfl rfl rfl fun more q moves ready plain => ?_
  refine moves.bind (testList_item (works.expressions.item true) q ready)
    fun iterable qs q moves ready ⟨run, made', _⟩ => ?_
  refine moves.bind (expectColon_parses _ ready) fun _ qs q moves ready nothing => ?_
  refine moves.bind (suite_parses works ready) fun suite qs q moves ready suited => ?_
  refine moves.bind (elseClause_parses works _ _ ready).grown fun orElse qs q moves ready ⟨other, grows⟩ => ?_
  refine moves.done ready ⟨by simp [made, plain.nodes, made', nothing, suited.made, other], fun clean solid => ?_⟩
  simp [entriesOf_append, entriesOf_several, suited.filled (grows.clean clean) (grows.solid clean solid)]

theorem withBlock_parses (works : inner.Works laid) (ready : Ready laid .block level p)
    (ordinary : p.cell.kind.isOrdinary) :
    Parses laid .block True level (withBlock inner) p Made := by
  refine build_word ready ordinary rfl rfl fun q moves ready => ?_
  refine moves.bind (works.expressions.item true q ready) fun context qs q moves ready ⟨run, made, _⟩ => ?_
  refine moves.bind (announced_parses ready (expr_item works.expressions) rfl rfl)
    fun boundTo qs q moves ready part => ?_
  refine moves.bind (expectColon_parses _ ready) fun _ qs q moves ready nothing => ?_
  refine moves.bind (suite_parses works ready) fun suite qs q moves ready suited => ?_
  refine moves.done ready ⟨by simp [made, part.1, nothing, suited.made], fun clean solid => ?_⟩
  simp [entriesOf_append, entriesOf_several, suited.filled clean solid]

/-! ### Try -/

theorem caught_parses {e : Nested} {starts : Prop} (works : e.Works laid starts)
    (ready : Ready laid .line level p) :
    Parses laid .line False level (caught e) p fun caught qs _ =>
      nodesOf qs = caught.1.toList ++ caught.2.toList := by
  rw [parses_iff, caught, completes_features]
  refine (optional_parses ready (works.item true)).bind fun type ps q moves ready part => ?_
  cases type with
  | none => exact moves.done ready (by simp [part.1])
  | some type =>
    dsimp only
    rw [completes_at]
    split
    next here =>
      have here : q.cell.kind = .kwAs := by simpa using here
      refine moves.complainUnless ready rfl rfl fun r moves ready still => ?_
      have there : r.cell.kind = .kwAs := by rw [still.cell, here]
      rw [discard_bind]
      refine moves.bump ready (by rw [there]; rfl) fun cell s _ moves ready _ => ?_
      have target : Item laid level (if p.dialect.features.exceptComma then e.test true else name none) := by
        split
        · exact works.item true
        · exact name_item none
      rw [ite_bind]
      refine moves.bind (target s ready) fun node qs s moves ready ⟨run, made, _⟩ => ?_
      exact moves.done ready (by simp [part.1, made])
    rw [completes_at]
    split
    next here =>
      have here : q.cell.kind = .comma := by simpa using here
      refine moves.complainUnless ready rfl rfl fun r moves ready still => ?_
      have there : r.cell.kind = .comma := by rw [still.cell, here]
      rw [discard_bind]
      refine moves.bump ready (by rw [there]; rfl) fun cell s _ moves ready _ => ?_
      refine moves.bind (works.item true s ready) fun node qs s moves ready ⟨run, made, _⟩ => ?_
      exact moves.done ready (by simp [part.1, made])
    next => exact moves.done ready (by simp [part.1])

theorem handler_parses (works : inner.Works laid) (ready : Ready laid .block level p)
    (ordinary : p.cell.kind.isOrdinary) :
    Parses laid .block True level (handler inner) p fun made qs _ =>
      ∃ run, qs = [.node made.1 run] := by
  rw [parses_iff, handler, completes_start, discard_bind]
  refine ready.opened.bump ordinary fun cell q _ moves ready' _ => ?_
  refine (moves.within (.line .block)).bind (caught_parses works.expressions ready')
    fun caught qs q moves ready' parts => ?_
  dsimp only
  refine moves.bind (expectColon_parses _ ready') fun _ qs q moves ready' nothing => ?_
  refine moves.bind (suite_parses works ready') fun suite qs q moves ready' suited => ?_
  refine Completes.bind (?_ : Completes laid .block True level p _ q Made) ?_
  · refine moves.complete ready.inside ready' (.block (by simp [parts, nothing, suited.made]) rfl (.free rfl)
      fun clean solid _ => ?_) fun _ _ => ⟨_, rfl⟩
    simp [entriesOf_append, entriesOf_several, suited.filled clean solid]
  · rintro node _ q moves ready' ⟨run, rfl⟩
    exact moves.done ready' ⟨run, rfl⟩

/-- The handlers read so far. -/
structure Handlers (read : Array Node × Bool) (ps : List Piece) (q : Parser) : Prop where
  made : nodesOf ps = read.1.toList

theorem handlers_parses (works : inner.Works laid) (ready : Ready laid .block level p) (failed : Bool) :
    Parses laid .block False level (handlers inner failed) p fun made qs _ => nodesOf qs = made.1 := by
  rw [parses_iff, handlers]
  refine Completes.bind ((Moves.refl laid .block p).loop Handlers Handlers ready ⟨rfl⟩ ?_) ?_
  · rintro ⟨nodes, failed⟩ ps q before ready ⟨parts⟩
    rw [completes_at]
    split
    next => exact before.done ready ⟨parts⟩
    next goesOn =>
      have here : q.cell.kind = .kwExcept := by simp at goesOn; exact goesOn.2
      refine before.bind ((handler_parses works ready (by rw [here]; rfl)).lighter ready.rests
        (by simp [here])) fun made qs r moves ready ⟨⟨run, same⟩, lighter⟩ => ?_
      exact moves.done ready ⟨⟨by simp [parts, same]⟩, lighter⟩
  · rintro ⟨nodes, failed⟩ ps q moves ready ⟨parts⟩
    exact moves.done ready parts

theorem tryElse_parses (works : inner.Works laid) (ready : Ready laid .block level p)
    (handled failed : Bool) :
    Parses laid .block False level (tryElse inner handled failed) p fun suite qs _ =>
      nodesOf qs = suite.body := by
  rw [parses_iff, tryElse, completes_at]
  split
  · exact (Moves.refl laid .block p).done ready rfl
  next goesOn =>
    have here : p.cell.kind = .kwElse := by simp at goesOn; exact goesOn.2
    refine (Moves.refl laid .block p).complainUnless ready rfl rfl fun q moves ready still => ?_
    have there : q.cell.kind = .kwElse := by rw [still.cell, here]
    rw [discard_bind]
    refine moves.bump ready (by rw [there]; rfl) fun cell r _ moves ready _ => ?_
    refine moves.bind (expectColon_parses _ ready) fun _ qs q moves ready nothing => ?_
    refine moves.last (suite_parses works ready) fun suite qs' r _ suited => ?_
    simp [nothing, suited.made]

theorem finalClause_parses (works : inner.Works laid) (ready : Ready laid .block level p)
    (handled : Bool) (here : p.cell.kind = .kwFinally) :
    Parses laid .block False level (finalClause inner handled) p fun body qs _ => nodesOf qs = body := by
  rw [parses_iff, finalClause, completes_features]
  refine (Moves.refl laid .block p).complainIf ready rfl rfl fun q moves ready still => ?_
  have there : q.cell.kind = .kwFinally := by rw [still.cell, here]
  rw [discard_bind]
  refine moves.bump ready (by rw [there]; rfl) fun cell r _ moves ready _ => ?_
  refine moves.bind (expectColon_parses _ ready) fun _ qs q moves ready nothing => ?_
  refine moves.bind (suite_parses works ready) fun suite qs' r moves ready suited => ?_
  exact moves.done ready (by simp [nothing, suited.made])

theorem tryBlock_parses (works : inner.Works laid) (ready : Ready laid .block level p)
    (ordinary : p.cell.kind.isOrdinary) :
    Parses laid .block True level (tryBlock inner) p Made := by
  refine build_word ready ordinary rfl rfl fun q moves ready => ?_
  refine moves.bind (expectColon_parses _ ready) fun _ qs q moves ready nothing => ?_
  refine moves.bind (suite_parses works ready) fun body qs q moves ready tried => ?_
  refine moves.bind (handlers_parses works ready _).grown fun handlers qs q moves ready ⟨caught, behind⟩ => ?_
  dsimp only
  refine moves.bind (tryElse_parses works ready _ _).grown fun orElse qs q moves ready ⟨other, elsewhere⟩ => ?_
  have final : Parses laid .block False level
      (if (!orElse.failed && q.cell.kind == .kwFinally) = true then
        finalClause inner (!handlers.1.isEmpty) else pure []) q fun body qs _ => nodesOf qs = body := by
    split
    next here => exact finalClause_parses works ready _ (by simp at here; exact here.2)
    next => exact (Moves.refl laid .block q).done ready rfl
  rw [completes_at, ite_bind]
  refine moves.bind final.grown fun final qs' q moves ready ⟨last, finally_⟩ => ?_
  refine moves.complainIf ready rfl rfl fun r moves ready still => ?_
  refine moves.done ready ⟨by simp [nothing, tried.made, caught, other, last], fun clean solid => ?_⟩
  have looked : Moves laid .block False [] q r := .still still
  have grows := behind.trans (elsewhere.trans (finally_.trans looked.toGrows))
  simp [entriesOf_append, entriesOf_several, tried.filled (grows.clean clean) (grows.solid clean solid)]

/-! ### Functions and classes -/

theorem signature_parses {e : Nested} {starts : Prop} (works : e.Works laid starts)
    (ready : Ready laid .line level p) :
    Parses laid .line False level (signature e) p Made := by
  refine build_parameters ready ?_
  refine (Moves.refl laid .line p.opened).eatPasses ready.opened (level.passes_opening rfl)
    (fun cell q paren moves ready _ => ?_) fun _ => ?_
  · rw [if_pos rfl, completes_features]
    refine moves.bind (parameterList_parses works ready _ _) fun list qs q moves ready ⟨listed, aligned⟩ => ?_
    rw [discard_bind]
    refine moves.bind (expectCloser_parses ready none rfl) fun _ qs' q moves ready skipped => ?_
    have bare : nodesOf qs' = [] := by
      obtain ⟨cells, rfl, -⟩ := skipped
      exact nodesOf_tokenPieces cells
    exact moves.done ready ⟨list, (listed.behind (by rw [paren]; rfl)).add (.skipped skipped)
      (.inr (fresh_of_bare bare)),
      by simpa using aligned.around [.token cell] qs', rfl⟩
  · rw [if_neg (by simp)]
    refine (Moves.refl laid .line p.opened).complain ready.opened rfl (fun _ => rfl) fun q moves ready _ => ?_
    exact moves.done ready ⟨.empty, ParameterList.listed_empty, .empty, rfl⟩

/-- The word that a function or class begins with, behind its decorators. -/
structure Word (laid : Prop) (level : Depth) (decorators : List Node) (cell : Cell) (qs : List Piece)
    (r : Parser) : Prop where
  decorated : nodesOf qs = decorators
  ready : Ready laid .line level r

theorem function_completes (works : inner.Works laid) (began : Ready laid .block level p)
    {decorators : List Node} (word : Completes laid .block True level p.opened bump q
      (Word laid level decorators)) :
    Completes laid .block True level p (function inner p.marker decorators) q Made := by
  rw [function, discard_bind]
  refine word.bind fun cell ps q moves _ ⟨before, ready⟩ => ?_
  refine moves.bind (name_item none q ready) fun name qs q moves ready ⟨run, named, _⟩ => ?_
  refine moves.bind (signature_parses works.expressions ready)
    fun parameters qs q moves ready ⟨run, given⟩ => ?_
  rw [completes_features, ite_bind]
  refine moves.bind (conditional_part ready (announced_parses ready (works.expressions.item true) rfl rfl))
    fun returns qs q moves ready part => ?_
  refine moves.bind (expectColon_parses _ ready) fun _ qs q moves ready nothing => ?_
  refine moves.bind (suite_parses works ready) fun suite qs q moves ready suited => ?_
  refine moves.complete began.inside ready (.block ?_ rfl (.free rfl) fun clean solid _ => ?_) fun _ _ => ⟨_, rfl⟩
  · simp [before, named, given, part.1, nothing, suited.made]
  · simp [entriesOf_append, entriesOf_several, suited.filled clean solid]

/-- The base classes read so far. -/
structure Bases (bases : Array Node) (ps : List Piece) (q : Parser) : Prop where
  made : nodesOf ps = bases.toList

theorem baseClasses_parses {e : Nested} {starts : Prop} (works : e.Works laid starts)
    (ready : Ready laid .line level p) :
    Parses laid .line False level (baseClasses e) p fun bases qs _ => nodesOf qs = bases := by
  rw [parses_iff, baseClasses]
  refine (Moves.refl laid .line p).eatPasses ready (level.passes_opening rfl)
    (fun cell q _ moves ready _ => ?_) fun _ => ?_
  · rw [if_pos rfl, completes_at, completes_features]
    refine moves.complainIf ready rfl rfl fun q moves ready _ => ?_
    refine Completes.bind (moves.loop Bases Bases ready ⟨rfl⟩ ?_) ?_
    · intro bases ps q before ready ⟨parts⟩
      rw [completes_canStartExpression]
      split
      · refine before.bind (works.item true q ready) fun base qs r behind ready ⟨run, made, _⟩ => ?_
        refine behind.eat ready rfl (fun cell s _ moves ready lighter => ?_) fun _ => ?_
        · exact moves.done ready ⟨⟨by simp [parts, made]⟩,
            Nat.lt_of_lt_of_le (lighter (by decide)) (before.later_le behind)⟩
        · exact behind.done ready ⟨by simp [parts, made]⟩
      · exact before.done ready ⟨parts⟩
    · intro bases ps q moves ready ⟨parts⟩
      rw [discard_bind]
      refine moves.bind (expectCloser_parses ready none rfl) fun _ qs q moves ready ⟨cells, skipped, _⟩ => ?_
      exact moves.done ready (by simp [parts, skipped])
  · exact (Moves.refl laid .line p).done ready rfl

theorem classBody_completes (works : inner.Works laid) (began : Ready laid .block level p)
    {decorators : List Node} (word : Completes laid .block True level p.opened bump q
      (Word laid level decorators)) :
    Completes laid .block True level p (classBody inner p.marker decorators) q Made := by
  rw [classBody, discard_bind]
  refine word.bind fun cell ps q moves _ ⟨before, ready⟩ => ?_
  refine moves.bind (name_item none q ready) fun name qs q moves ready ⟨run, named, _⟩ => ?_
  refine moves.bind (baseClasses_parses works.expressions ready) fun bases qs q moves ready given => ?_
  refine moves.bind (expectColon_parses _ ready) fun _ qs q moves ready nothing => ?_
  refine moves.bind (suite_parses works ready) fun suite qs q moves ready suited => ?_
  refine moves.complete began.inside ready (.block ?_ rfl (.free rfl) fun clean solid _ => ?_) fun _ _ => ⟨_, rfl⟩
  · simp [before, named, given, nothing, suited.made]
  · simp [entriesOf_append, entriesOf_several, suited.filled clean solid]

/-! ### Decorators -/

theorem decoratorTarget_item {e : Nested} {starts : Prop} (works : e.Works laid starts) :
    Item laid level (decoratorTarget e) := by
  refine OperandItem.item (?_ : OperandItem laid level .trailer (decoratorTarget e))
  intro p ready
  rw [parses_iff, decoratorTarget]
  refine ((name_parses ready none).weaken False.elim).bind fun name ps q moves ready named => ?_
  refine Completes.bind (moves.loop (Operand .trailer) (Operand .trailer) ready (named.mono (by decide)) ?_) ?_
  · rintro target ps q moves ready ⟨⟨run, rfl, filled⟩, binds⟩
    rw [completes_at]
    split
    next here => exact moves.takesIn filled (member_extends ready (by simpa using here) target)
    next => exact moves.done ready ⟨⟨run, rfl, filled⟩, binds⟩
  · rintro target ps q moves ready ⟨⟨run, rfl, filled⟩, binds⟩
    rw [completes_at]
    split
    next here => exact moves.extendLast filled (call_extends works ready (by simpa using here) target)
    next => exact moves.done ready ⟨⟨run, rfl, filled⟩, binds⟩

theorem decorator_parses {e : Nested} {starts : Prop} (works : e.Works laid starts)
    (ready : Ready laid .block level p) (here : p.cell.kind = .at) :
    Parses laid .block True level (decorator e) p Made := by
  have line : Ready laid .line level p := ready.line fun _ => .inl (by rw [here]; rfl)
  rw [parses_iff, decorator]
  refine Completes.bind (?_ : Parses laid .line True level _ p Sentence) ?_
  · refine build_sentence line ?_ rfl rfl rfl
    rw [parses_iff, discard_bind]
    refine line.opened.bump (by rw [opened_cell, here]; rfl) fun cell q _ moves ready _ => ?_
    refine moves.bind (decoratorTarget_item works q ready) fun target qs q moves ready ⟨run, made, _⟩ => ?_
    exact moves.done ready (by simp [gathers_iff, made])
  · rintro node ps q moves ready' ⟨run, rfl, -, unstarred⟩
    have alone : Moves laid .line True ([] ++ [.node node run]) p q := moves
    refine Completes.imp (alone.endLine ready.inside ready' unstarred fun kind ends => ?_) ?_
    · rw [eq_of_beq ends]
      rfl
    · rintro node' qs r _ ⟨⟨run', rfl, -⟩, -⟩
      exact ⟨run', rfl⟩

theorem missingFunction_completes (began : Ready laid .block level p)
    (moves : Moves laid .block True ps p.opened q) (ready : Ready laid .block level q) :
    Completes laid .block True level p (missingFunction p.marker (nodesOf ps)) q Made := by
  rw [missingFunction]
  refine moves.bind (missingName_parses ready _) fun name qs r moves ready ⟨cell, named, _, unclean⟩ => ?_
  have parameters : Parses laid .block False level (build .parameters do return (.none, [])) r Made := by
    refine build_parses (fun made ps _ => made.2 = [] ∧ ps = []) ready
      ((Moves.refl laid .block r.opened).done ready.opened ⟨rfl, rfl⟩) ?_
    rintro ⟨_, _⟩ _ s _ ⟨rfl, rfl⟩
    exact ⟨ParameterList.listed_empty.held rfl (.refl _) (by simp) nofun (fun _ => Aligned.empty.paired)
      (ParameterList.empty.rows _ []),
      fun _ _ => ⟨_, rfl⟩⟩
  refine moves.bind parameters.grown fun parameters qs r moves ready ⟨⟨run, given⟩, grows⟩ => ?_
  exact moves.complete began.inside ready (.block (by simp [named, given]) rfl (.free rfl) fun clean =>
    absurd (grows.clean clean) unclean) fun _ _ => ⟨_, rfl⟩

/-- The word is taken behind all that has been gone over. -/
theorem Moves.word (moves : Moves laid .block lead ps o q) (ready : Ready laid mode' level q)
    (ordinary : q.cell.kind.isOrdinary) :
    Completes laid .block lead level o Parser.bump q (Word laid level (nodesOf ps)) := by
  refine Ends.imp (bump_ordinary ready ordinary) ?_ fun _ broken => broken.after moves
  rintro cell r ⟨qs, more, ready, bumped⟩
  exact ⟨ps ++ qs, moves.trans (more.within (.line _)), ready.block, ⟨by simp [bumped.pieces], ready⟩⟩

/-- The decorators read so far. -/
structure Decorators (decorators : Array Node) (ps : List Piece) (q : Parser) : Prop where
  made : nodesOf ps = decorators.toList

theorem decorated_parses (works : inner.Works laid) (ready : Ready laid .block level p)
    (here : p.cell.kind = .at) :
    Parses laid .block True level (decorated inner) p Made := by
  rw [parses_iff, decorated, completes_start]
  refine Completes.bind (?_ : Parses laid .block True level _ p.opened Decorators) ?_
  · refine Ready.loop ready.opened Decorators Decorators ?_ ?_
    · rw [parses_iff, completes_at, if_pos (by simp [here])]
      refine (decorator_parses works.expressions ready.opened here).bind
        fun decorator ps q moves ready ⟨run, made⟩ => ?_
      exact moves.done ready ⟨by simp [made]⟩
    · intro decorators ps q before ready ⟨parts⟩
      rw [completes_at]
      split
      next again =>
        have again : q.cell.kind = .at := by simpa using again
        refine before.bind ((decorator_parses works.expressions ready again).lighter ready.rests
          (by simp [again])) fun decorator qs r moves ready ⟨⟨run, made⟩, lighter⟩ => ?_
        exact moves.done ready ⟨⟨by simp [parts, made]⟩, lighter⟩
      next => exact before.done ready ⟨parts⟩
  · intro decorators ps q moves ready' ⟨parts⟩
    rw [completes_at, ← parts]
    split
    next begins =>
      have begins : q.cell.kind = .kwDef := by simpa using begins
      exact function_completes works ready (moves.word ready' (by rw [begins]; rfl))
    rw [completes_at]
    split
    next begins =>
      have begins : q.cell.kind = .kwClass := by simpa using begins
      rw [completes_features]
      refine moves.complainUnless ready' rfl rfl fun r moves ready' still => ?_
      exact classBody_completes works ready (moves.word ready' (by rw [still.cell, begins]; rfl))
    next => exact missingFunction_completes ready moves ready'

theorem compoundForm_word {d : Dialect} {kind : TokenKind} {form : CompoundForm}
    (found : d.compoundForm? kind = some form) :
    kind.isOrdinary ∧ kind ≠ .name ∧ (form = .decorated → kind = .at) := by
  have all : ∀ pair ∈ d.compoundForms, pair.1.isOrdinary ∧ pair.1 ≠ .name ∧
      (pair.2 = .decorated → pair.1 = .at) := by
    cases d <;> decide
  obtain ⟨before, after, split, -⟩ := List.lookup_eq_some_iff.1 found
  exact all (kind, form) (by simp [split])

theorem compoundForm_parses (works : inner.Works laid) (ready : Ready laid .block level p)
    {form : CompoundForm} (ordinary : p.cell.kind.isOrdinary) (decorates : form = .decorated → p.cell.kind = .at) :
    Parses laid .block True level (compoundForm inner form) p Made := by
  have word : Completes laid .block True level p.opened bump p.opened (Word laid level []) := by
    refine Ends.imp (bump_ordinary ready.opened ordinary) ?_ fun _ broken => broken
    rintro cell q ⟨qs, moves, ready, bumped⟩
    exact ⟨qs, moves.within (.line _), ready.block, ⟨by simp [bumped.pieces], ready⟩⟩
  cases form with
  | conditional => exact conditional_parses works ready ordinary
  | whileLoop => exact whileLoop_parses works ready ordinary
  | forLoop => exact forLoop_parses works ready ordinary
  | tryBlock => exact tryBlock_parses works ready ordinary
  | withBlock => exact withBlock_parses works ready ordinary
  | function => exact function_completes works ready word
  | classBody => exact classBody_completes works ready word
  | decorated => exact decorated_parses works ready (decorates rfl)

end TolerantParser.Parser
