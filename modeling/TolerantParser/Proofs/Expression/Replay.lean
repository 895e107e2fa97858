import TolerantParser.Parser.Expression.Operator
import TolerantParser.Proofs.Parser.Replay

/-!
Expressions in a later dialect. Only a test may be followed by a gained word, where the later dialect goes on with a
condition, and only at the first word of a list of tests it may go another way, where it begins with a yield.
-/

namespace TolerantParser

/-- A later dialect repeats the productions one level further in. From a gained word none of them gets anywhere. -/
structure Nested.Replays (later : Dialect) (e : Nested) : Prop where
  test (conditional : Bool) : Parser.Replays later true conditional (e.test conditional)
  orTest : Parser.Replays later true false e.orTest
  notTest : Parser.Replays later true false e.notTest
  expr : Parser.Replays later true false e.expr
  factor : Parser.Replays later true false e.factor
  parameter : Parser.Replays later true false e.parameter

namespace Parser

open TokenStream (bind_ok)

variable {later : Dialect} {before behind : Bool} {e : Nested} {item : ParseM Node}

/-! ### What expressions share -/

theorem replays_canStartExpression : Replays later before before canStartExpression := replays_atSet _

theorem replays_optional (works : Replays later false behind item) : Replays later behind behind (optional item) :=
  replays_ifAtSet ⟨rfl, rfl⟩ (works.bind fun _ => .pure id) (.pure id)

theorem replays_announced {kind : TokenKind} (other : kind.isGained = false) (works : Replays later false behind item) :
    Replays later behind behind (announced kind item) :=
  replays_ifEat other (works.bind fun _ => .pure id) (.pure id)

theorem replays_separated {separator : TokenKind} {stop : ParseM Bool} (other : separator.isGained = false)
    (first : Node) (stops : Replays later false false stop) (works : Replays later false behind item) :
    Replays later behind behind (separated separator first stop item) := by
  refine (ReplaysTo.repeated _ fun nodes => ?_).bind fun _ => .pure id
  refine replays_ifEat other (stops.bind fun stopped => .ite (.pure nofun) ?_) (.pure id)
  exact works.bind fun _ => .pure id

theorem replays_commaSeparated (first : Node) (works : Replays later false behind item) :
    Replays later behind behind (commaSeparated first item) :=
  replays_separated rfl first (replays_canStartExpression.bind fun _ => .pure id) works

theorem replays_name (message : Option String) : Replays later before false (name message) := by
  refine replays_build (replays_ifAt rfl (replays_bump.bind fun _ => .pure id) ?_)
  exact (replays_takeMissingName message).discard.bind fun _ => .pure id

theorem replays_dottedName : Replays later before false dottedName :=
  (replays_name none).bind fun first => replays_separated rfl first (.pure id) (replays_name none)

theorem replays_testList (works : Replays later true behind item) : Replays later true behind (testList item) := by
  refine works.bind fun first => replays_ifAt rfl (replays_build ?_) (.pure id)
  exact (replays_commaSeparated first works.settled).settled.bind fun _ => .pure id

/-- Where a yield stands, the earlier dialect finds no item, or it stops there. -/
theorem replays_yieldExpression (inner : e.Replays later) : Replays later false true (yieldExpression e) :=
  replays_build <| replays_bump.discard.bind fun _ =>
    (replays_optional (replays_testList (inner.test true)).settled).settled.bind fun _ => .pure id

theorem replays_yieldOr (inner : e.Replays later) (works : Replays later true true item) :
    Replays later false true (yieldOr e item) where
  retains := (retains_of_eq fun _ => rfl).bind fun _ => Retains.bind (retains_of_eq fun _ => rfl) fun _ =>
    .ite (replays_yieldExpression inner).retains works.retains
  runs {p q value} fits done clean := by
    have either : ∀ p, yieldOr e item p =
        if (p.cell.kind == .kwYield && p.dialect.features.yieldExpressions) =
          true then yieldExpression e p else item p :=
      fun p => by
        show (if (p.cell.kind == .kwYield && p.dialect.features.yieldExpressions) = true then yieldExpression e
          else item) p = _
        split <;> rfl
    have sees : (p.recast later).cell = p.cell ∧ (p.recast later).dialect = later := ⟨rfl, rfl⟩
    rw [either] at done
    split at done
    next begins =>
      obtain ⟨after, same, -⟩ := (replays_yieldExpression inner).runs fits done clean
      rw [Bool.and_eq_true] at begins
      refine ⟨after, fun settled => ?_, nofun⟩
      rw [either, sees.1, sees.2, begins.1, fits.newer.gains.yieldExpressions begins.2]
      exact same settled
    next =>
      obtain ⟨after, same, stays⟩ := works.runs fits done clean
      refine ⟨after, fun settled => ?_, nofun⟩
      rw [either, sees.1, sees.2]
      split
      next begins =>
        -- the item was begun at a yield, and so it stops there
        have here : p.AtGained := by
          rw [Bool.and_eq_true, beq_iff_eq] at begins
          rw [AtGained, begins.1]
          rfl
        exact absurd (stays rfl here).2 (settled rfl)
      next => exact same settled

theorem replays_testListOrYield (inner : e.Replays later) : Replays later false true (testListOrYield e) :=
  replays_yieldOr inner (replays_testList (inner.test true))

/-! ### Comprehensions and brackets -/

/-- A token that is taken if it is there; if not, an error is recorded. -/
theorem replays_expect {α : Type} {kind : TokenKind} {errorKind : ErrorKind} {message : String} {k : PUnit → ParseM α}
    {mid : α → Bool} (other : kind.isGained = false) (next : ReplaysTo later false mid (k ⟨⟩)) :
    ReplaysTo later before mid
      (eat kind >>= fun there => if there = true then k ⟨⟩ else complain errorKind message >>= k) :=
  replays_ifEat other next ((replays_complain _ _).bind fun _ => next)

theorem replays_comprehensionClause (inner : e.Replays later) (bareTuples : Bool) :
    Replays later false false (comprehensionClause e bareTuples) := by
  have iterables : Replays later false false (if bareTuples then testList (e.test false) else e.orTest) :=
    .ite (replays_testList (inner.test false)).anywhere inner.orTest.anywhere
  refine replays_build (replays_bump.discard.bind fun _ => (replays_testList inner.expr).anywhere.bind fun target => ?_)
  refine replays_expect rfl ?_
  rw [ite_bind]
  refine iterables.bind fun iterable => (ReplaysTo.repeated _ fun conditions => ?_).bind fun _ => .pure id
  refine (replays_eat .kwIf).bind fun _ => .ite ?_ (.pure id)
  exact (inner.test false).anywhere.bind fun _ => .pure id

theorem replays_comprehensionClauses (inner : e.Replays later) (inList : Bool) :
    Replays later before before (comprehensionClauses e inList) := by
  refine replays_shared (fun f => (ReplaysTo.repeated _ fun clauses => ?_).bind fun _ => .pure id)
    fun f g gains => by rw [gains.tupleComprehensionIterables]
  refine replays_ifAt rfl ?_ (.pure id)
  exact (replays_comprehensionClause inner _).bind fun _ => .pure nofun

theorem replays_generatorTail (inner : e.Replays later) (element : Node) :
    Replays later before before (generatorTail e element) :=
  replays_build ((replays_comprehensionClauses inner false).bind fun _ => .pure id)

/-- A bracket is closed, and with it the node. -/
theorem replays_closed {closer : TokenKind} {marker : Marker} {kind : NodeKind} {detail : Detail}
    {children : List (Label × Option Node)} (other : closer.isGained = false) :
    Replays later before false
      (discard (expectCloser closer none) >>= fun _ => complete marker kind detail children) :=
  (replays_expectCloser other none).discard.bind fun _ => replays_complete ..

theorem replays_parenthesized (inner : e.Replays later) : Replays later false false (parenthesized e) := by
  refine replays_start.bind fun marker => replays_bump.discard.bind fun _ => ?_
  refine replays_ifEat rfl (replays_complete ..) ?_
  refine (replays_yieldOr inner (inner.test true)).bind fun first => replays_ifAt rfl ?_ (replays_ifAt rfl ?_ ?_)
  · exact (replays_comprehensionClauses inner false).bind fun clauses => replays_closed rfl
  · exact (replays_commaSeparated first (inner.test true).anywhere).settled.bind fun elements => replays_closed rfl
  · exact (replays_expectCloser rfl none).discard.bind fun _ => replays_mergeInto marker first

theorem replays_displayItems (inner : e.Replays later) (first : Node) (closer : TokenKind) :
    Replays later true true (displayItems e first closer) :=
  replays_separated rfl first ((replays_at closer).bind fun _ => replays_canStartExpression.bind fun _ => .pure id)
    (inner.test true).anywhere

theorem replays_listDisplay (inner : e.Replays later) : Replays later false false (listDisplay e) := by
  refine replays_start.bind fun marker => replays_bump.discard.bind fun _ => ?_
  refine replays_ifEat rfl (replays_complete ..) ?_
  refine (inner.test true).anywhere.bind fun first => replays_ifAt rfl ?_ ?_
  · exact (replays_comprehensionClauses inner true).bind fun clauses => replays_closed rfl
  · exact (replays_displayItems inner first .rightBracket).bind fun elements => replays_closed rfl

theorem replays_dictValue (inner : e.Replays later) : Replays later true true (dictValue e) :=
  replays_ifAtSet ⟨rfl, rfl⟩ ((inner.test true).anywhere.bind fun _ => .pure id)
    ((ReplaysTo.discard (replays_recover ..)).bind fun _ => .pure id)

theorem replays_colonAndValue (inner : e.Replays later) : Replays later true true (colonAndValue e) :=
  replays_ifEat rfl (replays_dictValue inner).settled ((replays_complain _ _).bind fun _ => .pure id)

theorem replays_finishDict (inner : e.Replays later) (marker : Marker) (key : Node) (value : Option Node) :
    Replays later true false (finishDict e marker key value) := by
  refine ReplaysTo.bind (ReplaysTo.repeated _ fun entries => ?_) fun entries => replays_closed rfl
  obtain ⟨keys, values⟩ := entries
  refine replays_ifEat rfl ?_ (.pure id)
  refine (replays_at .rightBrace).bind fun ends => replays_canStartExpression.bind fun starts => .ite (.pure nofun) ?_
  exact (inner.test true).anywhere.bind fun key => (replays_colonAndValue inner).bind fun value => .pure id

theorem replays_dictDisplay (inner : e.Replays later) (marker : Marker) (key : Node) :
    Replays later false false (dictDisplay e marker key) := by
  refine (replays_dictValue inner).settled.bind fun value => (replays_at .kwFor).bind fun tail =>
    replays_shared (fun f => .ite ?_ (replays_finishDict inner marker key value))
      fun f g gains => by rw [gains.setDictComprehensions]
  refine (replays_comprehensionClauses inner false).bind fun clauses => ?_
  refine (replays_expectCloser rfl none).discard.bind fun _ => ?_
  cases value with
  | none => exact (replays_name _).bind fun value => replays_complete ..
  | some value => exact replays_complete ..

theorem replays_braceDisplay (inner : e.Replays later) : Replays later false false (braceDisplay e) := by
  refine replays_start.bind fun marker => replays_bump.discard.bind fun _ => ?_
  refine replays_ifEat rfl (replays_complete ..) ?_
  refine (inner.test true).anywhere.bind fun first => replays_ifEat rfl (replays_dictDisplay inner marker first) ?_
  refine replays_shared (fun f => .ite (replays_ifAt rfl ?_ ?_) ?_) fun f g gains => by rw [gains.setLiterals]
  · exact (replays_comprehensionClauses inner false).bind fun clauses => replays_closed rfl
  · exact (replays_displayItems inner first .rightBrace).bind fun elements => replays_closed rfl
  · exact (replays_complain _ _).bind fun _ => replays_finishDict inner marker first none

/-! ### Parameters -/

theorem replays_parameter (inner : e.Replays later) : Replays later true false (parameter e) := by
  refine replays_ifAt rfl (replays_build ?_) (replays_name none)
  refine replays_bump.discard.bind fun _ => inner.parameter.anywhere.bind fun first => ?_
  refine (replays_separated rfl first (replays_at _) inner.parameter.anywhere).bind fun elements => ?_
  exact (replays_expectCloser rfl none).discard.bind fun _ => .pure id

theorem replays_parameterHint (inner : e.Replays later) (allowed : Bool) :
    Replays later false true (parameterHint e allowed) :=
  .ite (replays_announced rfl (inner.test true).anywhere).settled (.pure nofun)

theorem replays_parameterEntry (inner : e.Replays later) (hints keywordOnly : Bool) (list : ParameterList) :
    Replays later true true (parameterEntry e hints keywordOnly list) := by
  refine replays_ifEat rfl ?_ (replays_ifEat rfl ?_ ?_)
  · refine replays_shared (fun f => (replays_at _).bind fun _ => .ite (.pure nofun) ?_)
      fun f g gains => by rw [gains.keywordOnlyArguments]
    exact (replays_name none).bind fun star => (replays_parameterHint inner hints).bind fun _ => .pure id
  · exact (replays_name none).bind fun star => (replays_parameterHint inner hints).bind fun _ => .pure id
  · refine (replays_at .name).bind fun named => (replays_at .leftParen).bind fun bracketed =>
      replays_shared (fun f => .ite ?_ (.pure id)) fun f g gains => by rw [gains.tupleParameters]
    refine (replays_parameter inner).bind fun node => (replays_parameterHint inner hints).bind fun hint => ?_
    exact (replays_announced rfl (inner.test true).anywhere).bind fun default => .pure id

theorem replays_parameterList (inner : e.Replays later) (stop : TokenKind) (hints : Bool) :
    Replays later false true (parameterList e stop hints) := by
  show ReplaysTo later false (fun _ => true) _
  refine ReplaysTo.bind (ReplaysTo.settled (ReplaysTo.repeated _ fun made => ?_)) fun _ => .pure id
  obtain ⟨last, keywordOnly, list⟩ := made
  refine (replays_at stop).bind fun ends => (replays_hasProgressed last).bind fun goesOn => .ite (.pure id) ?_
  refine .seen (fun _ _ => rfl) fun p => (replays_parameterEntry inner hints keywordOnly list).bind fun entry => ?_
  cases entry with
  | none => exact .pure id
  | some more => exact replays_ifEat rfl (.pure nofun) (.pure id)

theorem replays_lambda (inner : e.Replays later) (conditional : Bool) :
    Replays later false conditional (lambda e conditional) := by
  refine replays_build (replays_bump.discard.bind fun _ => ?_)
  refine (replays_build ((replays_parameterList inner .colon false).bind fun _ => .pure id)).bind fun parameters => ?_
  exact replays_expect rfl ((inner.test conditional).anywhere.bind fun body => .pure id)

/-! ### Atoms and what follows them -/

theorem replays_leaf (kind : NodeKind) (detail : String → Detail) : Replays later false false (leaf kind detail) :=
  replays_build (replays_bump.bind fun _ => .pure id)

theorem replays_stringAtom : Replays later false false stringAtom := by
  refine replays_build ((ReplaysTo.repeated _ fun contents => ?_).bind fun _ => .pure id)
  exact replays_ifAt rfl (replays_bump.bind fun _ => .pure id) (.pure id)

theorem replays_backquoted (inner : e.Replays later) : Replays later false false (backquoted e) :=
  replays_build (replays_bump.discard.bind fun _ => (replays_testList (inner.test true)).settled.bind fun _ =>
    (replays_expectCloser rfl _).discard.bind fun _ => .pure id)

theorem replays_atom (inner : e.Replays later) : Replays later true false (atom e) := by
  refine replays_byKind (fun kind gained => ?_) fun kind => ?_
  · cases kind <;> first | exact replays_name _ | cases gained
  · split
    all_goals first
      | exact replays_leaf _ _
      | exact replays_stringAtom
      | exact replays_parenthesized inner
      | exact replays_listDisplay inner
      | exact replays_braceDisplay inner
      | exact replays_backquoted inner
      | exact replays_name _

theorem replays_keywordArgument (inner : e.Replays later) : Replays later true true (keywordArgument e) :=
  replays_build ((replays_name none).bind fun _ => replays_bump.discard.bind fun _ =>
    (inner.test true).anywhere.bind fun _ => .pure id)

theorem replays_atKeywordArgument : Replays later before before atKeywordArgument :=
  replays_ifAt rfl ((replays_nth 1).bind fun _ => .pure nofun) (.pure id)

theorem replays_argumentEntry (inner : e.Replays later) (list : ArgumentList) :
    Replays later true true (argumentEntry e list) := by
  refine replays_ifEat rfl ((inner.test true).anywhere.bind fun _ => .pure id) ?_
  refine replays_ifEat rfl ((inner.test true).anywhere.bind fun _ => .pure id) ?_
  refine replays_atKeywordArgument.bind fun named => .ite ?_ ?_
  · exact (replays_keywordArgument inner).bind fun _ => .pure id
  refine replays_ifAtSet ⟨rfl, rfl⟩ ((inner.test true).anywhere.bind fun value => ?_) (.pure id)
  exact replays_ifAt rfl ((replays_generatorTail inner value).bind fun _ => .pure nofun) (.pure id)

theorem replays_call (inner : e.Replays later) (function : Node) : Replays later false false (call e function) := by
  refine replays_build (replays_bump.discard.bind fun _ =>
    (ReplaysTo.settled (?_ : Replays later true true _)).bind fun made => ?_)
  · refine .repeated _ fun made => ?_
    obtain ⟨last, list⟩ := made
    refine (replays_at _).bind fun ends => (replays_hasProgressed last).bind fun goesOn => .ite (.pure id) ?_
    refine .seen (fun _ _ => rfl) fun p => (replays_argumentEntry inner list).bind fun entry => ?_
    cases entry with
    | none => exact .pure id
    | some more => exact replays_ifEat rfl (.pure nofun) (.pure id)
  · exact (replays_expectCloser rfl none).discard.bind fun _ => .pure id

theorem replays_atDottedEllipsis : Replays later false false atDottedEllipsis := by
  refine .seen (fun p fits => ?_) fun p => .ite (.pure id) ?_
  · have same : (p.recast later).dialect.defines .ellipsis = p.dialect.defines .ellipsis :=
      fits.newer.elim (motive := fun later d => later.defines .ellipsis = d.defines .ellipsis) rfl rfl rfl rfl
    rw [same]
  · refine replays_ifAt rfl ?_ (.pure id)
    exact (replays_nth 1).bind fun _ => .ite ((replays_nth 2).bind fun _ => .pure id) (.pure id)

theorem replays_subscriptItem (inner : e.Replays later) : Replays later false true (subscriptItem e) := by
  refine replays_atDottedEllipsis.bind fun dotted => .ite ?_ (replays_start.bind fun marker => ?_)
  · exact (replays_build (replays_bump.discard.bind fun _ => replays_bump.discard.bind fun _ =>
      replays_bump.discard.bind fun _ => .pure id)).loosen
  have slice : ∀ lower : Option Node, Replays later false true (do
      discard bump
      let upper ← optional (e.test true)
      let step ← if ← eat .colon then optional (e.test true) else pure none
      complete marker .slice .none (child? .lower lower ++ child? .upper upper ++ child? .step step)) := fun lower => by
    refine replays_bump.discard.bind fun _ => (replays_optional (inner.test true).anywhere).settled.bind fun upper => ?_
    refine replays_ifEat rfl ((replays_optional (inner.test true).anywhere).settled.bind fun step => ?_) ?_
    · exact replays_complete ..
    · exact replays_complete ..
  -- with no index in front, a colon is at the cursor
  have none : ReplaysTo later false Option.isSome (pure none : ParseM (Option Node)) := .pure nofun
  have index : ReplaysTo later false Option.isSome (some <$> e.test true) :=
    (inner.test true).anywhere.bind fun _ => .pure id
  refine replays_ifAt rfl (none.bind fun lower => ?_) (index.bind fun lower => ?_)
  all_goals
    cases lower with
    | none => exact slice _
    | some index => exact replays_ifAt rfl (slice _) ((replays_abandon marker).bind fun _ => .pure id)

theorem replays_subscriptList (inner : e.Replays later) : Replays later false true (subscriptList e) := by
  refine (replays_subscriptItem inner).bind fun first => replays_ifAt rfl (replays_build ?_) (.pure id)
  exact (replays_separated rfl first (replays_at _) (replays_subscriptItem inner)).settled.bind fun _ => .pure id

theorem replays_subscript (inner : e.Replays later) (value : Node) : Replays later false false (subscript e value) :=
  replays_build (replays_bump.discard.bind fun _ => (replays_subscriptList inner).bind fun _ =>
    (replays_expectCloser rfl none).discard.bind fun _ => .pure id)

theorem replays_member (value : Node) : Replays later false false (member value) :=
  replays_build (replays_bump.discard.bind fun _ => (replays_name none).bind fun _ => .pure id)

theorem replays_atomWithTrailers (inner : e.Replays later) : Replays later true false (atomWithTrailers e) := by
  refine (replays_atom inner).bind fun first => .repeated _ fun node => replays_current.bind fun kind => ?_
  split
  · exact (replays_call inner node).bind fun _ => .pure id
  · exact (replays_subscript inner node).bind fun _ => .pure id
  · exact (replays_member node).bind fun _ => .pure id
  · exact .pure id

/-! ### Operators -/

theorem replays_prefixed (op : String) {operand : ParseM Node} (works : Replays later false behind operand) :
    Replays later false behind (prefixed op operand) :=
  replays_build (replays_bump.discard.bind fun _ => works.bind fun _ => .pure id)

theorem replays_infixed (op : String) (left : Node) (works : Replays later false behind item) :
    Replays later false behind (infixed op left item) :=
  replays_build (replays_bump.discard.bind fun _ => works.bind fun _ => .pure id)

theorem replays_power (inner : e.Replays later) : Replays later true false (power e) :=
  (replays_atomWithTrailers inner).bind fun base =>
    replays_ifAt rfl (replays_infixed _ base inner.factor.anywhere) (.pure id)

theorem replays_factor (inner : e.Replays later) : Replays later true false (factor e) := by
  refine replays_byKind (fun kind gained => ?_) fun kind => ?_
  · have none : unaryOperators.lookup kind = none := by cases kind <;> first | rfl | cases gained
    rw [none]
    exact replays_power inner
  · split
    · exact replays_prefixed _ inner.factor.anywhere
    · exact (replays_power inner).anywhere

theorem replays_binaryChain (works : Replays later true false item) (levels : List OperatorLevel) :
    Replays later true false (binaryChain item levels) := by
  induction levels with
  | nil => exact works
  | cons level tighter ih =>
    refine ih.bind fun first => .repeated _ fun left => replays_current.bind fun kind => ?_
    split
    · exact (replays_infixed _ left ih.anywhere).bind fun _ => .pure id
    · exact .pure id

theorem replays_expr (inner : e.Replays later) : Replays later true false (expr e) :=
  replays_binaryChain (replays_factor inner) binaryLevels

theorem replays_exprList (inner : e.Replays later) : Replays later true false (exprList e) :=
  replays_testList (replays_expr inner)

theorem replays_atComparison : Replays later false false atComparison :=
  replays_ifAt rfl ((replays_nth 1).bind fun _ => .pure id) (replays_atSet _)

theorem replays_comparisonOperator : Replays later false false comparisonOperator := by
  refine replays_bump.bind fun cell => .ite (replays_bump.discard.bind fun _ => .pure id) (.ite ?_ (.pure id))
  exact (replays_eat .kwNot).bind fun _ => .ite (.pure id) (.pure id)

theorem replays_comparison (inner : e.Replays later) : Replays later true false (comparison e) := by
  refine (replays_expr inner).bind fun left => replays_atComparison.bind fun more => .ite (replays_build ?_) (.pure id)
  refine (ReplaysTo.repeated _ fun made => ?_).bind fun _ => .pure id
  obtain ⟨ops, operands⟩ := made
  refine replays_atComparison.bind fun more => .ite ?_ (.pure id)
  exact replays_comparisonOperator.bind fun op => (replays_expr inner).anywhere.bind fun operand => .pure id

theorem replays_notTest (inner : e.Replays later) : Replays later true false (notTest e) :=
  replays_ifAt rfl (replays_prefixed _ inner.notTest.anywhere) (replays_comparison inner)

theorem replays_boolean {word : TokenKind} (other : word.isGained = false) (op : String)
    (works : Replays later true false item) : Replays later true false (boolean word op item) := by
  refine works.bind fun first => replays_ifAt other (replays_build ?_) (.pure id)
  exact (replays_separated other first (.pure id) works.anywhere).bind fun _ => .pure id

theorem replays_andTest (inner : e.Replays later) : Replays later true false (andTest e) :=
  replays_boolean rfl _ (replays_notTest inner)

theorem replays_orTest (inner : e.Replays later) : Replays later true false (orTest e) :=
  replays_boolean rfl _ (replays_andTest inner)

/-- Where the earlier dialect stops short of a condition, it stops at a gained word. -/
theorem replays_test (inner : e.Replays later) (conditional : Bool) :
    Replays later true conditional (test e conditional) := by
  refine replays_ifAt rfl (replays_lambda inner conditional) ?_
  refine (replays_orTest inner).bind fun body => ?_
  cases conditional with
  | false => exact replays_shared (fun f => (replays_at _).bind fun _ => .pure id) fun f g gains => rfl
  | true =>
    refine replays_features (fun f => (replays_at _).bind fun there => .ite (replays_build ?_) (.pure nofun))
      fun f g gains p q value done clean settled => ?_
    · refine replays_bump.discard.bind fun _ => (replays_orTest inner).anywhere.bind fun condition => ?_
      exact replays_ifEat rfl ((inner.test true).anywhere.bind fun orElse => .pure id)
        ((replays_name _).bind fun orElse => .pure nofun)
    · cases had : f.conditionalExpressions with
      | true =>
        rw [had] at done
        rw [gains.conditionalExpressions had]
        exact done
      | false =>
        rw [had] at done
        cases done
        have other : (p.cell.kind == .kwIf) = false := by
          have passed := settled rfl
          rw [AtGained] at passed
          revert passed
          cases p.cell.kind <;> simp [TokenKind.isGained]
        have looks : at? .kwIf p = .ok false p := congrArg (EStateM.Result.ok · p) other
        rw [bind_ok looks, Bool.and_false]
        rfl

/-- Expressions that nest to any depth. -/
theorem replays_levels (later : Dialect) (depth : Nat) : (Nested.levels depth).Replays later := by
  induction depth with
  | zero => exact ⟨fun _ => .throw _, .throw _, .throw _, .throw _, .throw _, .throw _⟩
  | succ depth ih =>
    exact ⟨replays_test ih, replays_orTest ih, replays_notTest ih, replays_expr ih, replays_factor ih,
      replays_parameter ih⟩

end Parser

end TolerantParser
