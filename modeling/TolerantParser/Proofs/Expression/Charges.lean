import TolerantParser.Proofs.Expression.Operator
import TolerantParser.Proofs.Parser.Charges

/-!
What expressions spend. Where none starts a name is put in for it, and that is all; where one starts, its first token
pays for that and has left a name and three errors over. So whatever leads to an expression behind a token of its own
spends nothing, and lists of expressions behind separators do not either.
-/

namespace TolerantParser.Parser

variable {d : Dialect} {here : TokenKind → Prop} {c : Cost} {e : Nested} {item : ParseM Node}

/-! ### Having some left over -/

/-- From anywhere at most a name is put in. Where the steps can start they have some left over. -/
structure Solvent (d : Dialect) (starts : TokenKind → Bool) (f : ParseM Node) : Prop where
  anywhere : Costs d Anywhere (1, 1) f
  started : Costs d (starts ·) (-1, -3) f

end Parser

/-- What the productions one level further in spend. -/
structure Nested.Charged (d : Dialect) (e : Nested) : Prop where
  test (conditional : Bool) : Parser.Solvent d Parser.startsExpression (e.test conditional)
  orTest : Parser.Costs d Parser.Anywhere (1, 1) e.orTest
  notTest : Parser.Costs d Parser.Anywhere (1, 1) e.notTest
  expr : Parser.Costs d Parser.Anywhere (1, 1) e.expr
  factor : Parser.Costs d Parser.Anywhere (1, 1) e.factor
  parameter : Parser.Costs d Parser.Anywhere (1, 1) e.parameter

namespace Parser

variable {d : Dialect} {here : TokenKind → Prop} {c : Cost} {e : Nested} {item : ParseM Node}

/-! ### What expressions share -/

theorem costs_canStartExpression : Costs d here 0 canStartExpression :=
  costs_look fun _ => ⟨_, rfl⟩

theorem costs_at (kind : TokenKind) : Costs d here 0 (at? kind) := costs_look fun _ => ⟨_, rfl⟩

theorem costs_optional (works : Solvent d startsExpression item) : Costs d here 0 (optional item) :=
  .ifAtSet ((works.started.bind fun _ => .pure (by decide))) .nothing

theorem costs_announced {kind : TokenKind} (pays : toll kind = (2, 6)) (works : Costs d Anywhere (1, 1) item) :
    Costs d here 0 (announced kind item) :=
  .ifEat (works.bind fun _ => .pure (by rw [pays]; decide)) .nothing

theorem costs_separated {separator : TokenKind} {stop : ParseM Bool} (pays : toll separator = (2, 6)) (first : Node)
    (stops : Costs d Anywhere 0 stop) (works : Costs d Anywhere (1, 1) item) :
    Costs d here 0 (separated separator first stop item) := by
  refine (Spends.repeated _ fun nodes => ?_).andThen fun _ => .nothing
  refine .ifEat (stops.bind fun stopped => .ite (fun _ => .pure ?_) fun _ => works.bind fun _ => .pure ?_)
    .nothing
  · rw [pays]
    decide
  · rw [pays]
    decide

theorem costs_commaSeparated (first : Node) (works : Costs d Anywhere (1, 1) item) :
    Costs d here 0 (commaSeparated first item) :=
  costs_separated rfl first (costs_canStartExpression.andThen fun _ => .nothing) works

theorem costs_nameAt (message : Option String) : Costs d (· = .name) (-2, -6) (name message) :=
  costs_build <| .ifAt (fun _ => costs_bump.bind fun _ => .pure (by decide)) (.never (by simp))

theorem costs_name {message : Option String} (tellable : Tellable message) : Costs d here (1, 1) (name message) :=
  costs_build <| .ifAt (fun _ => costs_bump.bind fun _ => .pure (by decide)) <|
    (costs_takeMissingName tellable).discard.andThen fun _ => .nothing

theorem costs_dottedName : Costs d here (1, 1) dottedName :=
  (costs_name (by decide)).andThen fun first => costs_separated rfl first .nothing (costs_name (by decide))

/-- Further items pay for themselves. -/
theorem costs_testList (anywhere : Costs d Anywhere (1, 1) item) (works : Costs d here c item) :
    Costs d here c (testList item) :=
  works.andThen fun first => .ifAt (fun _ => costs_build ((costs_commaSeparated first anywhere).andThen fun _ =>
    .nothing)) .nothing

theorem Solvent.testList {starts : TokenKind → Bool} (works : Solvent d starts item) :
    Solvent d starts (testList item) :=
  ⟨costs_testList works.anywhere works.anywhere, costs_testList works.anywhere works.started⟩

theorem costs_yieldExpression (inner : e.Charged d) : Costs d (· ≠ .endOfFile) (-2, -6) (yieldExpression e) :=
  costs_build <| (costs_bumpAt fun _ => id).discard.bind fun _ =>
    (costs_optional (inner.test true).testList).bind fun _ => .pure (by decide)

theorem costs_yieldOr (inner : e.Charged d) (works : Costs d here c item) (least : (-2, -6) ≤ c) :
    Costs d here c (yieldOr e item) := by
  refine .byWord fun kind starts => .look (fun _ => ⟨_, rfl⟩) fun f => .ite (fun yields => ?_) fun _ => ?_
  · rw [Bool.and_eq_true, beq_iff_eq] at yields
    refine ((costs_yieldExpression inner).within least).weaken ?_ fun _ => le_refl _
    rintro _ rfl
    rw [yields.1]
    decide
  · exact works.weaken (by rintro _ rfl; exact starts) fun _ => le_refl _

theorem Solvent.yieldOr {starts : TokenKind → Bool} (inner : e.Charged d) (works : Solvent d starts item) :
    Solvent d starts (yieldOr e item) :=
  ⟨costs_yieldOr inner works.anywhere (by decide), costs_yieldOr inner works.started (by decide)⟩

theorem solvent_testListOrYield (inner : e.Charged d) : Solvent d startsExpression (testListOrYield e) :=
  (inner.test true).testList.yieldOr inner

/-! ### Comprehensions and brackets -/

/-- A token that is taken if it is there; if not, an error is recorded. -/
theorem Spends.expect {α : Type} {kind : TokenKind} {errorKind : ErrorKind} {message : String} {k : PUnit → ParseM α}
    {cost : α → Cost} (recorded : isRecordedOnly errorKind) (oneLine : OneLine message.toList)
    (next : Spends d Anywhere (fun value => cost value - (0, 1)) (k ⟨⟩)) :
    Spends d here cost (eat kind >>= fun there => if there = true then k ⟨⟩ else complain errorKind message >>= k) := by
  refine .ifEat (next.weaken (fun _ => id) fun value => ?_) ?_
  · calc cost value - (0, 1) ≤ cost value := sub_le_self _ (by decide)
      _ ≤ cost value + toll kind := le_add_of_nonneg_right (toll_nonneg kind)
  · exact (stays_complain recorded oneLine).costs.there.bind fun _ => next

theorem costs_comprehensionClause (inner : e.Charged d) (bareTuples : Bool) :
    Costs d (· = .kwFor) (0, -3) (comprehensionClause e bareTuples) := by
  have iterables : Costs d Anywhere (1, 1) (if bareTuples then testList (e.test false) else e.orTest) :=
    .ite (fun _ => (inner.test false).testList.anywhere) fun _ => inner.orTest
  refine costs_build (costs_bump.discard.bind fun _ => (costs_testList inner.expr inner.expr).bind fun target => ?_)
  refine .expect rfl (by decide) ?_
  rw [ite_bind]
  refine iterables.bind fun iterable => (Spends.repeated _ fun conditions => ?_).bind fun _ => .pure (by decide)
  exact .ifEat ((inner.test false).anywhere.bind fun _ => .pure (by decide)) .nothing

theorem costs_comprehensionClauses (inner : e.Charged d) (inList : Bool) :
    Costs d here 0 (comprehensionClauses e inList) := by
  refine .look (fun _ => ⟨_, rfl⟩) fun f => (Spends.repeated _ fun clauses => ?_).andThen fun _ => .nothing
  exact .ifAt (fun _ => (costs_comprehensionClause inner _).bind fun _ => .pure (by decide)) .nothing

theorem costs_generatorTail (inner : e.Charged d) (element : Node) : Costs d here 0 (generatorTail e element) :=
  costs_build ((costs_comprehensionClauses inner false).andThen fun _ => .nothing)

/-- A bracket is closed, and with it the node. -/
theorem costs_closed (closer : TokenKind) (marker : Marker) (kind : NodeKind) (detail : Detail)
    (children : List (Label × Option Node)) :
    Costs d here (0, 1) (discard (expectCloser closer none) >>= fun _ => complete marker kind detail children) :=
  (costs_expectCloser closer (by decide)).discard.andThen fun _ => costs_complete ..

theorem costs_parenthesized (inner : e.Charged d) : Costs d (· = .leftParen) (-1, -4) (parenthesized e) := by
  refine .stay stays_start fun marker => costs_bump.discard.bind fun _ => ?_
  refine .ifEat ((costs_complete ..).within (by decide)) ?_
  refine Spends.bind (((inner.test true).yieldOr inner).anywhere.there) fun first => ?_
  refine .ifAt (fun _ => ?_) (.ifAt (fun _ => ?_) ?_)
  · exact (costs_comprehensionClauses inner false).bind fun clauses => (costs_closed ..).within (by decide)
  · refine (costs_commaSeparated first (inner.test true).anywhere).bind fun elements => ?_
    exact (costs_closed ..).within (by decide)
  · exact ((costs_expectCloser _ (by decide)).discard.andThen fun _ => costs_mergeInto marker first).within (by decide)

theorem costs_displayItems (inner : e.Charged d) (first : Node) (closer : TokenKind) :
    Costs d here 0 (displayItems e first closer) :=
  costs_separated rfl first ((costs_at closer).andThen fun _ => costs_canStartExpression.andThen fun _ => .nothing)
    (inner.test true).anywhere

theorem costs_listDisplay (inner : e.Charged d) : Costs d (· = .leftBracket) (-1, -4) (listDisplay e) := by
  refine .stay stays_start fun marker => costs_bump.discard.bind fun _ => ?_
  refine .ifEat ((costs_complete ..).within (by decide)) ?_
  refine Spends.bind (inner.test true).anywhere.there fun first => .ifAt (fun _ => ?_) ?_
  · exact (costs_comprehensionClauses inner true).bind fun clauses => (costs_closed ..).within (by decide)
  · exact (costs_displayItems inner first .rightBracket).bind fun elements => (costs_closed ..).within (by decide)

theorem costs_dictValue (inner : e.Charged d) : Costs d here (0, 1) (dictValue e) :=
  .ifAtSet ((inner.test true).started.bind fun _ => .pure (by decide)) <|
    (costs_recover (by decide) []).discard.bind fun _ => .pure (by decide)

theorem costs_colonAndValue (inner : e.Charged d) : Costs d here (0, 1) (colonAndValue e) :=
  .ifEat ((costs_dictValue inner).within (by decide))
    ((stays_complain rfl (by decide)).bind fun _ => .pure (by decide))

theorem costs_finishDict (inner : e.Charged d) (marker : Marker) (key : Node) (value : Option Node) :
    Costs d here (0, 1) (finishDict e marker key value) := by
  refine (Spends.repeated _ fun entries => ?_).bind fun entries => (costs_closed ..).within (by decide)
  obtain ⟨keys, values⟩ := entries
  refine .ifEat ?_ .nothing
  refine (costs_at .rightBrace).bind fun ends => costs_canStartExpression.bind fun starts =>
    .ite (fun _ => .pure (by decide)) fun _ => ?_
  exact (inner.test true).anywhere.bind fun key => (costs_colonAndValue inner).bind fun value => .pure (by decide)

theorem costs_dictDisplay (inner : e.Charged d) (marker : Marker) (key : Node) :
    Costs d here (1, 3) (dictDisplay e marker key) := by
  refine (costs_dictValue inner).bind fun value => (costs_at .kwFor).bind fun tail => .look (fun _ => ⟨_, rfl⟩) fun f =>
    .ite (fun _ => ?_) fun _ => (costs_finishDict inner marker key value).within (by decide)
  refine (costs_comprehensionClauses inner false).bind fun clauses => ?_
  refine (costs_expectCloser _ (by decide)).discard.bind fun _ => ?_
  cases value with
  | none => exact (costs_name (by decide)).bind fun value => (costs_complete ..).within (by decide)
  | some value => exact (costs_complete ..).within (by decide)

theorem costs_braceDisplay (inner : e.Charged d) : Costs d (· = .leftBrace) (-1, -3) (braceDisplay e) := by
  refine .stay stays_start fun marker => costs_bump.discard.bind fun _ => ?_
  refine .ifEat ((costs_complete ..).within (by decide)) ?_
  refine Spends.bind (inner.test true).anywhere.there fun first =>
    .ifEat ((costs_dictDisplay inner marker first).within (by decide)) ?_
  refine .look (fun _ => ⟨_, rfl⟩) fun f => .ite (fun _ => .ifAt (fun _ => ?_) ?_) fun _ => ?_
  · exact (costs_comprehensionClauses inner false).bind fun clauses => (costs_closed ..).within (by decide)
  · exact (costs_displayItems inner first .rightBrace).bind fun elements => (costs_closed ..).within (by decide)
  · exact (stays_complain rfl (by decide)).bind fun _ => (costs_finishDict inner marker first none).within (by decide)

/-! ### Parameters -/

/-- What a parameter begins with pays for it. -/
theorem costs_parameter (inner : e.Charged d) (least : (-1, -4) ≤ c)
    (otherwise : Costs d (fun kind => here kind ∧ kind ≠ .leftParen) c (name none)) : Costs d here c (parameter e) := by
  refine .ifAt (fun _ => Spends.within (costs_build ?_) least) otherwise
  refine costs_bump.discard.bind fun _ => inner.parameter.bind fun first => ?_
  refine (costs_separated rfl first (costs_at _) inner.parameter).bind fun elements => ?_
  exact (costs_expectCloser _ (by decide)).discard.bind fun _ => .pure (by decide)

theorem costs_parameterAt (inner : e.Charged d) {kind : TokenKind} (starts : kind = .name ∨ kind = .leftParen) :
    Costs d (· = kind) (-1, -4) (parameter e) :=
  costs_parameter inner (le_refl _) <| (costs_nameAt none).weaken
    (by rintro _ ⟨rfl, other⟩; exact starts.resolve_right other) fun _ => by decide

theorem costs_parameterHint (inner : e.Charged d) (allowed : Bool) : Costs d here 0 (parameterHint e allowed) :=
  .ite (fun _ => costs_announced rfl (inner.test true).anywhere) fun _ => .nothing

theorem costs_parameterEntry (inner : e.Charged d) (hints keywordOnly : Bool) (list : ParameterList) :
    Costs d here 0 (parameterEntry e hints keywordOnly list) := by
  have name {here : TokenKind → Prop} : Costs d here (1, 1) (name none) := costs_name (by decide)
  refine .ifEat ?_ (.ifEat ?_ ?_)
  · refine .look (fun _ => ⟨_, rfl⟩) fun f => (costs_at _).bind fun _ => .ite (fun _ => .pure (by decide)) fun _ => ?_
    exact name.bind fun star => (costs_parameterHint inner hints).bind fun _ => .pure (by decide)
  · exact name.bind fun star => (costs_parameterHint inner hints).bind fun _ => .pure (by decide)
  · have named {kind : TokenKind} {bracketed : Bool}
        (starts : (kind == .name || kind == .leftParen && bracketed) = true) : kind = .name ∨ kind = .leftParen := by
      simp only [Bool.or_eq_true, Bool.and_eq_true, beq_iff_eq] at starts
      exact starts.imp_right And.left
    refine .byWord fun kind _ => .byWord ?_
    rintro _ rfl
    refine .look (fun _ => ⟨_, rfl⟩) fun f => .ite (fun starts => ?_) fun _ => .nothing
    refine (costs_parameterAt inner (named starts)).bind fun node => ?_
    refine (costs_parameterHint inner hints).bind fun hint => ?_
    exact (costs_announced rfl (inner.test true).anywhere).bind fun default => .pure (by decide)

theorem costs_parameterList (inner : e.Charged d) (stop : TokenKind) (hints : Bool) :
    Costs d here 0 (parameterList e stop hints) := by
  refine (Spends.repeated _ fun made => ?_).andThen fun _ => .nothing
  obtain ⟨last, keywordOnly, list⟩ := made
  refine (costs_at stop).bind fun ends => .look (fun _ => ⟨_, rfl⟩) fun goesOn => ?_
  refine .ite (fun _ => .pure (by decide)) fun _ => ?_
  refine .seen fun p _ _ => (costs_parameterEntry inner hints keywordOnly list).bind fun entry => ?_
  cases entry with
  | none => exact .pure (by decide)
  | some more => exact .ifEat (.pure (by decide)) (.pure (by decide))

theorem costs_lambda (inner : e.Charged d) (conditional : Bool) :
    Costs d (· = .kwLambda) (-1, -4) (lambda e conditional) := by
  refine costs_build (costs_bump.discard.bind fun _ => ?_)
  refine (costs_build ((costs_parameterList inner .colon false).andThen fun _ => .nothing)).bind fun parameters => ?_
  exact .expect rfl (by decide) ((inner.test conditional).anywhere.bind fun body => .pure (by decide))

/-! ### Atoms and what follows them -/

theorem costs_leaf {kind : TokenKind} (more : toll kind = (2, 6)) (node : NodeKind) (detail : String → Detail) :
    Costs d (· = kind) (-2, -6) (leaf node detail) :=
  costs_build (costs_bump.bind fun _ => .pure (by rw [more]; decide))

theorem costs_stringAtom : Costs d (· = .string) (-2, -6) stringAtom := by
  refine costs_build ((Spends.loopPaid ?_ fun contents => ?_).andThen fun _ => .nothing)
  · exact .ifAt (fun _ => costs_bump.bind fun _ => .pure (by decide)) (.never (by simp))
  · exact .ifAt (fun _ => costs_bump.bind fun _ => .pure (by decide)) .nothing

theorem costs_backquoted (inner : e.Charged d) : Costs d (· = .backquote) (-1, -4) (backquoted e) :=
  costs_build (costs_bump.discard.bind fun _ => (inner.test true).testList.anywhere.bind fun _ =>
    (costs_expectCloser _ (by decide)).discard.bind fun _ => .pure (by decide))

/-- Where no atom starts a name is missing. -/
theorem costs_atom (inner : e.Charged d) (least : (-1, -3) ≤ c)
    (otherwise : ∀ kind, here kind → startsAtom kind = false →
      Costs d (· = kind) c (name (some "Expected an expression"))) :
    Costs d here c (atom e) := by
  refine .byKind fun kind starts => ?_
  split
  all_goals first
    | exact (costs_leaf rfl _ _).within (le_trans (by decide) least)
    | exact costs_stringAtom.within (le_trans (by decide) least)
    | exact (costs_parenthesized inner).within (le_trans (by decide) least)
    | exact (costs_listDisplay inner).within (le_trans (by decide) least)
    | exact (costs_braceDisplay inner).within least
    | exact (costs_backquoted inner).within (le_trans (by decide) least)
    | skip
  refine otherwise _ starts ?_
  cases kind <;> first | rfl | contradiction

theorem solvent_atom (inner : e.Charged d) : Solvent d startsAtom (atom e) where
  anywhere := costs_atom inner (by decide) fun _ _ _ => costs_name (by decide)
  started := costs_atom inner (le_refl _) fun kind starts fails => by
    rw [starts] at fails
    cases fails

theorem costs_keywordArgument (inner : e.Charged d) : Costs d (· = .name) (-1, -5) (keywordArgument e) :=
  costs_build ((costs_nameAt none).bind fun _ => costs_bumpOver.discard.bind fun _ =>
    (inner.test true).anywhere.bind fun _ => .pure (by decide))

/-- A keyword argument is at its name. -/
theorem Spends.ifAtKeywordArgument {α : Type} {f g : ParseM α} {cost : α → Cost} (yes : Spends d (· = .name) cost f)
    (no : Spends d here cost g) :
    Spends d here cost (atKeywordArgument >>= fun there => if there = true then f else g) := by
  rw [atKeywordArgument, bind_assoc]
  refine .byWord fun kind starts => ?_
  by_cases named : kind = .name
  · subst named
    rw [if_pos (beq_self_eq_true _), bind_assoc]
    refine .stay (stays_nth 1) fun next => ?_
    rw [pure_bind]
    exact .ite (fun _ => yes) fun _ => no.weaken (by rintro _ rfl; exact starts) fun _ => le_refl _
  · rw [if_neg (by simpa using named), pure_bind, if_neg Bool.false_ne_true]
    exact no.weaken (by rintro _ rfl; exact starts) fun _ => le_refl _

theorem costs_argumentEntry (inner : e.Charged d) (list : ArgumentList) : Costs d here 0 (argumentEntry e list) := by
  refine .ifEat ((inner.test true).anywhere.bind fun _ => .pure (by decide)) ?_
  refine .ifEat ((inner.test true).anywhere.bind fun _ => .pure (by decide)) ?_
  refine .ifAtKeywordArgument ((costs_keywordArgument inner).bind fun _ => .pure (by decide)) ?_
  refine .ifAtSet ((inner.test true).started.bind fun value => ?_) .nothing
  exact .ifAt (fun _ => (costs_generatorTail inner value).bind fun _ => .pure (by decide)) (.pure (by decide))

theorem costs_call (inner : e.Charged d) (function : Node) : Costs d (· = .leftParen) (-2, -5) (call e function) := by
  refine costs_build (costs_bump.discard.bind fun _ => Spends.bind (Spends.repeated _ fun made => ?_) fun made => ?_)
  · obtain ⟨last, list⟩ := made
    refine (costs_at _).bind fun ends => .look (fun _ => ⟨_, rfl⟩) fun goesOn => ?_
    refine .ite (fun _ => .pure (by decide)) fun _ => ?_
    refine .seen fun p _ _ => (costs_argumentEntry inner list).bind fun entry => ?_
    cases entry with
    | none => exact .pure (by decide)
    | some more => exact .ifEat (.pure (by decide)) (.pure (by decide))
  · exact (costs_expectCloser _ (by decide)).discard.bind fun _ => .pure (by decide)

theorem costs_atDottedEllipsis : Costs d here 0 atDottedEllipsis := by
  refine .seen fun p _ _ => .ite (fun _ => .nothing) fun _ => .ifAt (fun _ => ?_) .nothing
  exact .stay (stays_nth 1) fun _ => .ite (fun _ => .stay (stays_nth 2) fun _ => .nothing) fun _ => .nothing

theorem costs_subscriptItem (inner : e.Charged d) : Costs d here (1, 1) (subscriptItem e) := by
  refine costs_atDottedEllipsis.bind fun dotted => .ite (fun _ => ?_) fun _ => .stay stays_start fun marker => ?_
  · exact (costs_build (costs_bumpOver.discard.bind fun _ => costs_bumpOver.discard.bind fun _ =>
      costs_bumpOver.discard.bind fun _ => .pure (by decide)))
  have slice : ∀ lower : Option Node, Costs d Anywhere 0 (do
      discard bump
      let upper ← optional (e.test true)
      let step ← if ← eat .colon then optional (e.test true) else pure none
      complete marker .slice .none (child? .lower lower ++ child? .upper upper ++ child? .step step)) := fun lower => by
    refine costs_bumpOver.discard.bind fun _ => (costs_optional (inner.test true)).bind fun upper => ?_
    refine .ifEat ((costs_optional (inner.test true)).bind fun step => ?_) ?_
    · exact (costs_complete ..).within (by decide)
    · exact (costs_complete ..).within (by decide)
  have index : Costs d Anywhere (1, 1) (some <$> e.test true) :=
    (inner.test true).anywhere.bind fun _ => .pure (by decide)
  have none : Costs d (· = .colon) 0 (pure none : ParseM (Option Node)) := .nothing
  refine .ifAt (fun _ => none.bind fun lower => ?_) (index.there.bind fun lower => ?_)
  all_goals
    cases lower with
    | none => exact (slice _).within (by decide)
    | some index =>
      exact .ifAt (fun _ => (slice _).there.within (by decide)) ((costs_abandon marker).bind fun _ => .pure (by decide))

theorem costs_subscriptList (inner : e.Charged d) : Costs d here (1, 1) (subscriptList e) := by
  refine (costs_subscriptItem inner).bind fun first => .ifAt (fun _ => costs_build ?_) .nothing
  exact (costs_separated rfl first (costs_at _) (costs_subscriptItem inner)).andThen fun _ => .nothing

theorem costs_subscript (inner : e.Charged d) (value : Node) :
    Costs d (· = .leftBracket) (-1, -4) (subscript e value) :=
  costs_build (costs_bump.discard.bind fun _ => (costs_subscriptList inner).bind fun _ =>
    (costs_expectCloser _ (by decide)).discard.bind fun _ => .pure (by decide))

theorem costs_member (value : Node) : Costs d (· = .dot) (-1, -5) (member value) :=
  costs_build (costs_bump.discard.bind fun _ => (costs_name (by decide)).bind fun _ => .pure (by decide))

/-- What follows an atom pays for itself. -/
theorem costs_atomWithTrailers (inner : e.Charged d) (works : Costs d here c (atom e)) :
    Costs d here c (atomWithTrailers e) := by
  refine works.andThen fun first => .repeated _ fun node => .byKind fun kind _ => ?_
  split
  · exact (costs_call inner node).bind fun _ => .pure (by decide)
  · exact (costs_subscript inner node).bind fun _ => .pure (by decide)
  · exact (costs_member node).bind fun _ => .pure (by decide)
  · exact .nothing

/-! ### Operators -/

theorem costs_prefixed {kind : TokenKind} (pays : toll kind = (2, 6)) (op : String)
    (works : Costs d Anywhere (1, 1) item) : Costs d (· = kind) (-1, -5) (prefixed op item) :=
  costs_build (costs_bump.discard.bind fun _ => works.bind fun _ => .pure (by rw [pays]; decide))

theorem costs_infixed {kind : TokenKind} (pays : toll kind = (2, 6)) (op : String) (left : Node)
    (works : Costs d Anywhere (1, 1) item) : Costs d (· = kind) (-1, -5) (infixed op left item) :=
  costs_build (costs_bump.discard.bind fun _ => works.bind fun _ => .pure (by rw [pays]; decide))

theorem costs_power (inner : e.Charged d) (works : Costs d here c (atom e)) : Costs d here c (power e) :=
  (costs_atomWithTrailers inner works).andThen fun base =>
    .ifAt (fun _ => (costs_infixed rfl _ base inner.factor).within (by decide)) .nothing

/-- No operator ends the file. -/
theorem toll_operator {level : OperatorLevel} (others : level.lookup .endOfFile = none) {kind : TokenKind} {op : String}
    (found : level.lookup kind = some op) : toll kind = (2, 6) := by
  refine if_neg fun ends => ?_
  rw [ends, others] at found
  cases found

theorem costs_factor (inner : e.Charged d) (least : (-1, -5) ≤ c)
    (otherwise : Costs d (fun kind => here kind ∧ unaryOperators.lookup kind = none) c (power e)) :
    Costs d here c (factor e) := by
  refine .byKind fun kind starts => ?_
  cases found : unaryOperators.lookup kind with
  | some op => exact (costs_prefixed (toll_operator rfl found) _ inner.factor).within least
  | none => exact otherwise.weaken (by rintro _ rfl; exact ⟨starts, found⟩) fun _ => le_refl _

theorem solvent_factor (inner : e.Charged d) : Solvent d startsOperand (factor e) where
  anywhere := costs_factor inner (by decide) (costs_power inner (solvent_atom inner).anywhere.there)
  started := costs_factor inner (by decide) (costs_power inner ((solvent_atom inner).started.weaken
    (fun kind starts => by simpa [startsOperand, starts.2] using starts.1) fun _ => le_refl _))

/-- Operators pay for their right operands. -/
theorem costs_binaryChain (levels : List OperatorLevel) (others : ∀ level ∈ levels, level.lookup .endOfFile = none)
    (anywhere : Costs d Anywhere (1, 1) item) (works : Costs d here c item) :
    Costs d here c (binaryChain item levels) := by
  induction levels generalizing here c with
  | nil => exact works
  | cons level tighter ih =>
    rw [List.forall_mem_cons] at others
    refine (ih others.2 works).andThen fun first => .repeated _ fun left => .byKind fun kind _ => ?_
    cases found : level.lookup kind with
    | some op =>
      have pays := toll_operator others.1 found
      exact (costs_infixed pays _ left (ih others.2 anywhere)).bind fun _ => .pure (by decide)
    | none => exact .nothing

theorem solvent_expr (inner : e.Charged d) : Solvent d startsOperand (expr e) :=
  have others : ∀ level ∈ binaryLevels, level.lookup .endOfFile = none := by decide
  ⟨costs_binaryChain _ others (solvent_factor inner).anywhere (solvent_factor inner).anywhere,
    costs_binaryChain _ others (solvent_factor inner).anywhere (solvent_factor inner).started⟩

/-- A comparison operator is no end of the file. -/
theorem Spends.ifAtComparison {α : Type} {f g : ParseM α} {cost : α → Cost} (yes : Spends d (· ≠ .endOfFile) cost f)
    (no : Spends d here cost g) : Spends d here cost (atComparison >>= fun there => if there = true then f else g) := by
  rw [atComparison, bind_assoc]
  refine .byWord fun kind starts => ?_
  have no : Spends d (· = kind) cost g := no.weaken (by rintro _ rfl; exact starts) fun _ => le_refl _
  by_cases negated : kind = .kwNot
  · subst negated
    rw [if_pos (beq_self_eq_true _), bind_assoc]
    refine .stay (stays_nth 1) fun next => ?_
    rw [pure_bind]
    exact .ite (fun _ => yes.weaken (by rintro _ rfl; decide) fun _ => le_refl _) fun _ => no
  · rw [if_neg (by simpa using negated)]
    exact .ifAtSet (yes.weaken (by rintro _ compares rfl; cases compares) fun _ => le_refl _)
      (no.weaken (fun _ => And.left) fun _ => le_refl _)

theorem costs_comparisonOperator : Costs d (· ≠ .endOfFile) (-2, -6) comparisonOperator := by
  refine (costs_bumpAt fun _ => id).andThen fun cell => .ite (fun _ => ?_) fun _ => ?_
  · exact costs_bumpOver.discard.andThen fun _ => .nothing
  refine .ite (fun _ => ?_) fun _ => .nothing
  exact (costs_eat .kwNot).andThen fun _ => .ite (fun _ => .nothing) fun _ => .nothing

theorem costs_comparison (inner : e.Charged d) (works : Costs d here c (expr e)) : Costs d here c (comparison e) := by
  refine works.andThen fun left => .ifAtComparison (costs_build ?_) .nothing
  refine (Spends.repeated _ fun made => ?_).andThen fun _ => .nothing
  obtain ⟨ops, operands⟩ := made
  refine .ifAtComparison ?_ .nothing
  exact costs_comparisonOperator.bind fun op => (solvent_expr inner).anywhere.bind fun operand => .pure (by decide)

theorem solvent_notTest (inner : e.Charged d) : Solvent d startsNot (notTest e) where
  anywhere := .ifAt (fun _ => (costs_prefixed rfl _ inner.notTest).within (by decide))
    (costs_comparison inner (solvent_expr inner).anywhere.there)
  started := .ifAt (fun _ => (costs_prefixed rfl _ inner.notTest).within (by decide)) <|
    costs_comparison inner <| (solvent_expr inner).started.weaken
      (fun kind starts => by simpa [startsNot, starts.2] using starts.1) fun _ => le_refl _

theorem costs_boolean {word : TokenKind} (pays : toll word = (2, 6)) (op : String)
    (anywhere : Costs d Anywhere (1, 1) item) (works : Costs d here c item) :
    Costs d here c (boolean word op item) := by
  refine works.andThen fun first => .ifAt (fun _ => costs_build ?_) .nothing
  exact (costs_separated pays first .nothing anywhere).andThen fun _ => .nothing

theorem Solvent.boolean {starts : TokenKind → Bool} {word : TokenKind} (pays : toll word = (2, 6)) (op : String)
    (works : Solvent d starts item) : Solvent d starts (boolean word op item) :=
  ⟨costs_boolean pays op works.anywhere works.anywhere, costs_boolean pays op works.anywhere works.started⟩

theorem solvent_orTest (inner : e.Charged d) : Solvent d startsNot (orTest e) :=
  ((solvent_notTest inner).boolean rfl "and").boolean rfl "or"

/-- A condition behind a test pays for itself, even if nothing is said for when it does not hold. -/
theorem costs_test (inner : e.Charged d) (conditional : Bool) (least : (-1, -4) ≤ c)
    (works : Costs d (fun kind => here kind ∧ kind ≠ .kwLambda) c (orTest e)) :
    Costs d here c (test e conditional) := by
  refine .ifAt (fun _ => (costs_lambda inner conditional).within least) (works.andThen fun body => ?_)
  have choice : Costs d (· = .kwIf) 0 (build .choice do
      discard bump
      let condition ← orTest e
      let orElse ←
        if ← eat .kwElse then e.test true
        else name (some "Expected 'else' in conditional expression")
      return (.none, child .body body ++ child .test condition ++ child .orElse orElse)) :=
    costs_build (costs_bump.discard.bind fun _ => (solvent_orTest inner).anywhere.bind fun condition =>
      .ifEat ((inner.test true).anywhere.bind fun _ => .pure (by decide))
        ((costs_name (by decide)).bind fun _ => .pure (by decide)))
  refine .look (fun _ => ⟨_, rfl⟩) fun f => .byWord fun kind _ => ?_
  refine .ite (fun goesOn => ?_) fun _ => .nothing
  rw [Bool.and_eq_true, beq_iff_eq] at goesOn
  rw [goesOn.2]
  exact choice

theorem solvent_test (inner : e.Charged d) (conditional : Bool) : Solvent d startsExpression (test e conditional) where
  anywhere := costs_test inner conditional (by decide) (solvent_orTest inner).anywhere.there
  started := costs_test inner conditional (by decide) <|
    (solvent_orTest inner).started.weaken
      (fun kind starts => by simpa [startsExpression_eq, starts.2] using starts.1) fun _ => le_refl _

/-- Expressions that nest to any depth. -/
theorem charged_levels (d : Dialect) (depth : Nat) : (Nested.levels depth).Charged d := by
  induction depth with
  | zero =>
    have refused {here : TokenKind → Prop} {cost : Cost} : Costs d here cost (throw .tooDeep : ParseM Node) := .throw _
    exact ⟨fun _ => ⟨refused, refused⟩, refused, refused, refused, refused, refused⟩
  | succ depth ih =>
    exact ⟨solvent_test ih, (solvent_orTest ih).anywhere, (solvent_notTest ih).anywhere, (solvent_expr ih).anywhere,
      (solvent_factor ih).anywhere, costs_parameter ih (by decide) (costs_name (by decide))⟩

end Parser

end TolerantParser
