import TolerantParser.Parser.Statement.Basic
import TolerantParser.Proofs.Expression.Replay
import TolerantParser.Proofs.Statement.InStepGuarded

/-!
Statements in a later dialect. Lines, blocks and headers end at tokens that no expression goes on with, so whatever the
later dialect might do there, the earlier one finds an error first. What a later dialect has gained beyond expressions
only spares complaints.
-/

namespace TolerantParser

/-- A later dialect repeats expressions, and statements one block further in. -/
structure Inner.Replays (later : Dialect) (inner : Inner) : Prop where
  e : inner.e.Replays later
  statement : Parser.Replays later false false inner.statement

namespace Parser

open TokenStream (bind_ok)

variable {later : Dialect} {before : Bool} {e : Nested} {inner : Inner}

theorem replays_describeCurrent : Replays later before before describeCurrent :=
  replays_look (fun p => describe p.cell) (fun _ => rfl) fun _ => rfl

/-! ### Statements that end with their line -/

theorem replays_expressionStatement (exprs : e.Replays later) : Replays later false true (expressionStatement e) := by
  refine replays_start.bind fun marker => (replays_testListOrYield exprs).bind fun first => ?_
  refine replays_ifAtSet ⟨rfl, rfl⟩ ?_ (replays_ifAt rfl ?_ (replays_complete ..))
  · exact replays_bump.bind fun op => (replays_testListOrYield exprs).bind fun value => replays_complete ..
  · exact (replays_separated rfl first (.pure id) (replays_testListOrYield exprs)).settled.bind fun parts =>
      replays_complete ..

theorem replays_wordStatement (kind : NodeKind) : Replays later false false (wordStatement kind) :=
  replays_build (replays_bump.discard.bind fun _ => .pure id)

/-- The values of a print statement behind the first one. -/
theorem replays_printed (exprs : e.Replays later) (destination first : Option Node) : Replays later true true (do
    let (values, endsLine) ← loop (first.toArray, true) fun (values, endsLine) => do
      unless ← eat .comma do return .done (values, endsLine)
      unless ← canStartExpression do return .done (values, false)
      return .yield (values.push (← e.test true), true)
    return (Detail.print endsLine, child? .destination destination ++ several .values values.toList)) := by
  refine ReplaysTo.bind (ReplaysTo.repeated _ fun made => ?_) fun _ => .pure id
  obtain ⟨values, endsLine⟩ := made
  refine replays_ifEat rfl (replays_ifAtSet ⟨rfl, rfl⟩ ?_ (.pure nofun)) (.pure id)
  exact (exprs.test true).anywhere.bind fun _ => .pure id

theorem replays_printStatement (exprs : e.Replays later) : Replays later false true (printStatement e) := by
  refine replays_build (replays_bump.discard.bind fun _ => ?_)
  refine (replays_announced rfl (exprs.test true).anywhere).settled.bind fun destination => ?_
  refine .ite (ReplaysTo.bind (.pure id) (replays_printed exprs destination)) ?_
  exact (replays_optional (exprs.test true).anywhere).bind (replays_printed exprs destination)

theorem replays_deleteStatement (exprs : e.Replays later) : Replays later false false (deleteStatement e) :=
  replays_build (replays_bump.discard.bind fun _ => (replays_expr exprs).anywhere.bind fun first =>
    (replays_commaSeparated first (replays_expr exprs).anywhere).bind fun _ => .pure id)

theorem replays_returnStatement (exprs : e.Replays later) : Replays later false true (returnStatement e) :=
  replays_build (replays_bump.discard.bind fun _ =>
    (replays_optional (replays_testList (exprs.test true)).settled).settled.bind fun _ => .pure id)

/-- A part behind another one, which there is only if the other one is there. -/
theorem replays_behind {α : Type} {kind : TokenKind} {item : ParseM Node} {k : Option Node → ParseM α} (c : Bool)
    (other : kind.isGained = false) (works : Replays later true true item)
    (next : ∀ part, Replays later true true (k part)) :
    Replays later true true (if c = true then announced kind item >>= k else pure none >>= k) :=
  .ite ((replays_announced other works.settled).bind next) (ReplaysTo.bind (.pure id) next)

theorem replays_raiseArguments (exprs : e.Replays later) : Replays later true true (raiseArguments e) := by
  refine replays_shared (fun f => ?_) fun f g gains => by rw [gains.raiseFrom, gains.raiseWithArguments]
  refine replays_behind _ rfl (exprs.test true) fun cause => .ite (.pure id) ?_
  refine (replays_announced rfl (exprs.test true).settled).bind fun inst => ?_
  exact replays_behind _ rfl (exprs.test true) fun traceback => .pure id

theorem replays_raiseStatement (exprs : e.Replays later) : Replays later false true (raiseStatement e) := by
  refine replays_build (replays_bump.discard.bind fun _ => ?_)
  refine (replays_optional (exprs.test true).settled).settled.bind fun type => ?_
  cases type with
  | none => exact .pure id
  | some type => exact (replays_raiseArguments exprs).bind fun _ => .pure id

theorem replays_namesStatement (kind : NodeKind) : Replays later false false (namesStatement kind) :=
  replays_build (replays_bump.discard.bind fun _ => (replays_name none).bind fun first =>
    (replays_separated rfl first (.pure id) (replays_name none)).bind fun _ => .pure id)

theorem replays_execStatement (exprs : e.Replays later) : Replays later false true (execStatement e) := by
  refine replays_build (replays_bump.discard.bind fun _ => (replays_expr exprs).anywhere.bind fun body => ?_)
  refine (replays_announced rfl (exprs.test true).settled).settled.bind fun globals => ?_
  exact replays_behind _ rfl (exprs.test true) fun locals => .pure id

theorem replays_assertStatement (exprs : e.Replays later) : Replays later false true (assertStatement e) :=
  replays_build (replays_bump.discard.bind fun _ => (exprs.test true).settled.bind fun _ =>
    (replays_announced rfl (exprs.test true).settled).bind fun _ => .pure id)

theorem replays_yieldStatement (exprs : e.Replays later) : Replays later false true (yieldStatement e) :=
  replays_build ((replays_yieldExpression exprs).bind fun _ => .pure id)

theorem replays_imported {path : ParseM (List Node)} (works : Replays later false false path) :
    Replays later false false (imported path) :=
  replays_build (works.bind fun _ => (replays_announced rfl (replays_name none)).bind fun _ => .pure id)

theorem replays_importStatement : Replays later false false importStatement :=
  replays_build (replays_bump.discard.bind fun _ => (replays_imported replays_dottedName).bind fun first =>
    (replays_separated rfl first (.pure id) (replays_imported replays_dottedName)).bind fun _ => .pure id)

theorem replays_relativeLevel : Replays later false false relativeLevel := by
  refine .repeated _ fun level => (replays_at _).bind fun dot => (replays_at _).bind fun dots => .ite ?_ (.pure id)
  refine replays_complaint (replays_bump.bind fun _ => .pure id) fun f g gains without => ?_
  simp only [Bool.and_eq_true, Bool.not_eq_true', decide_eq_true_eq] at without ⊢
  refine ⟨without.1, Bool.eq_false_iff.2 fun had => ?_⟩
  exact absurd (gains.relativeImports had) (by simp [without.2])

theorem replays_importedNames : Replays later false false importedNames := by
  have item : Replays later false false (imported (return [← name none])) :=
    replays_imported ((replays_name none).bind fun _ => .pure id)
  refine replays_ifEat rfl (.pure id) ((replays_eat _).bind fun inParentheses => item.bind fun first => ?_)
  refine (replays_separated rfl first ((replays_at _).bind fun _ => .pure id) item).bind fun names => ?_
  exact .ite ((replays_expectCloser rfl none).discard.bind fun _ => .pure id) (.pure id)

/-- What a module gives names to, behind the path of the module. -/
theorem replays_importNames (level : Nat) (path : List Node) : Replays later false false (do
    unless ← eat .kwImport do
      complain .statementMalformed "Expected 'import'"
      return (Detail.importFrom level false, several .path path)
    let (all, names) ← importedNames
    return (.importFrom level all, several .path path ++ several .names names)) :=
  replays_ifEat rfl (replays_importedNames.bind fun _ => .pure id) ((replays_complain _ _).bind fun _ => .pure id)

theorem replays_importFromStatement : Replays later false false importFromStatement := by
  refine replays_build (replays_bump.discard.bind fun _ => replays_relativeLevel.bind fun level =>
    (replays_at _).bind fun named => ?_)
  exact .ite (replays_dottedName.bind (replays_importNames level))
    (ReplaysTo.bind (.pure id) (replays_importNames level))

theorem replays_simpleForm (exprs : e.Replays later) (form : SimpleForm) :
    Replays later false true (simpleForm e form) := by
  cases form with
  | pass | «break» | «continue» => exact (replays_wordStatement _).loosen
  | «return» => exact replays_returnStatement exprs
  | raise => exact replays_raiseStatement exprs
  | global | nonlocal => exact (replays_namesStatement _).loosen
  | delete => exact (replays_deleteStatement exprs).loosen
  | importName => exact replays_importStatement.loosen
  | importFrom => exact replays_importFromStatement.loosen
  | assert => exact replays_assertStatement exprs
  | yield => exact replays_yieldStatement exprs
  | print => exact replays_printStatement exprs
  | exec => exact replays_execStatement exprs

/-- What can begin a statement on a line is the same in all dialects of the series. -/
theorem simpleForm?_recast {p : Parser} (fits : p.stream.Fits later) (kind : TokenKind) :
    (p.recast later).dialect.simpleForm? kind = p.dialect.simpleForm? kind :=
  congrArg (List.lookup kind) fits.newer.simpleForms

theorem replays_canStartSimpleStatement : Replays later before before canStartSimpleStatement := by
  refine .seen (fun p fits => ?_) fun p => .pure id
  have same : (p.recast later).cell = p.cell := rfl
  rw [simpleForm?_recast fits, same]

theorem replays_smallStatement (exprs : e.Replays later) : Replays later false true (smallStatement e) := by
  refine .seen (fun p fits => ?_) fun p => ?_
  · have same : (p.recast later).cell = p.cell := rfl
    rw [simpleForm?_recast fits, same]
  · split
    · exact replays_simpleForm exprs _
    · exact replays_expressionStatement exprs

theorem replays_attachToLineEnd (node : Node) : Replays later false false (attachToLineEnd node) := by
  refine .repeated _ fun node => (replays_atSet _).bind fun _ => .ite (.pure id) ?_
  exact replays_bump.bind fun cell => (replays_attach node cell).bind fun _ => .pure id

/-- No line ends at a gained word. -/
theorem replays_endLine {isEnd : TokenKind → Bool} (others : isEnd .kwIf = false ∧ isEnd .kwYield = false) (node : Node)
    (construct : String) : Replays later before false (endLine node isEnd construct) := by
  have last : ∀ node : Node, Replays later false false (do return (← eatInto node .newline).1) := fun node =>
    (replays_eatInto rfl node).bind fun made => .pure (by simp)
  refine replays_ifAtSet others (ReplaysTo.bind (.pure id) last) ?_
  exact replays_describeCurrent.bind fun found => (replays_complain _ _).bind fun _ =>
    (replays_attachToLineEnd node).bind last

/-- Only the last statement of a line may stop at a gained word, and the line does not end there. -/
theorem replays_simpleStatement (exprs : e.Replays later) : Replays later false false (simpleStatement e) := by
  refine ReplaysTo.bind (?_ : ReplaysTo later false (fun nodes : Array Node => nodes.back?.isSome) _) fun nodes => ?_
  · refine .loop _ fun nodes => (replays_smallStatement exprs).bind fun node =>
      (replays_eatInto rfl node).bind fun made => ?_
    obtain ⟨node, semicolon⟩ := made
    refine replays_canStartSimpleStatement.bind fun more => ?_
    cases semicolon with
    | none => exact .pure (by simp [ReplaysTo.rounds])
    | some cell => exact .ite (.pure nofun) (.pure nofun)
  · cases nodes.back? with
    | none => exact .pure id
    | some last => exact (replays_endLine ⟨rfl, rfl⟩ last _).bind fun _ => .pure id

/-! ### Blocks -/

theorem replays_skipLine : Replays later false false skipLine := by
  refine ReplaysTo.bind (ReplaysTo.repeated _ fun _ => ?_) fun _ => (replays_eat _).discard
  exact (replays_atSet _).bind fun _ => .ite (.pure id) (replays_bump.discard.bind fun _ => .pure id)

theorem replays_recoverStatement (parsed : Parsed) : Replays later false false (recoverStatement parsed) := by
  refine .ite (.pure id) ((replays_atSet _).bind fun _ => .ite (.pure id) ((replays_atSet _).bind fun _ => ?_))
  exact replays_describeCurrent.bind fun found => (replays_complain _ _).bind fun _ =>
    replays_skipLine.bind fun _ => .pure id

theorem replays_statementList (works : inner.Replays later) (stop : TokenKind → Bool) :
    Replays later false false (statementList inner stop) := by
  rw [statementList_eq]
  refine ReplaysTo.bind (ReplaysTo.repeated _ fun made => ?_) fun made => .pure id
  refine (replays_at _).bind fun _ => (replays_atSet stop).bind fun _ => .ite (.pure id) ?_
  refine (replays_hasProgressed _).bind fun _ => .ite ?_ (.pure id)
  refine .seen (fun _ _ => rfl) fun p => works.statement.bind fun parsed => ?_
  exact (replays_recoverStatement parsed).bind fun _ => .ite (.pure id) (.pure id)

theorem replays_block (works : inner.Replays later) : Replays later false false (block inner) := by
  refine (replays_statementList works _).bind fun body => (replays_eat _).bind fun _ => .ite (.pure id) ?_
  have found : Replays later false false (recover .dedentExpected none []) := replays_recover _ _ _
  exact found.bind fun outcome => .ite (.pure id) (.ite (replays_bump.discard.bind fun _ => .pure id) (.pure id))

theorem replays_unindentedBlock (works : inner.Replays later) : Replays later false false (unindentedBlock inner) := by
  refine (replays_atSet _).bind fun _ => ?_
  refine ReplaysTo.bind (replays_recover _ _ _) fun outcome => .ite (.pure id) ?_
  exact (replays_statementList works _).bind fun _ => .pure id

theorem replays_suite (works : inner.Replays later) : Replays later false false (suite inner) := by
  refine replays_ifEat rfl (replays_ifEat rfl (replays_block works) (replays_unindentedBlock works)) ?_
  refine replays_canStartSimpleStatement.bind fun _ => .ite
    ((replays_simpleStatement works.e).bind fun _ => .pure id) ?_
  exact replays_describeCurrent.bind fun found => (replays_complain _ _).bind fun _ => .pure id

theorem replays_colonDistance : Replays later false false colonDistance := by
  refine ReplaysTo.bind (ReplaysTo.repeated _ fun made => ?_) fun made => .pure id
  obtain ⟨found, distance⟩ := made
  exact (replays_nth distance).bind fun kind => .ite (.pure id) (.ite (.pure id) (.pure id))

theorem replays_bumpMany (count : Nat) : Replays later false false (bumpMany count) := by
  induction count with
  | zero => exact .pure id
  | succ count ih => exact replays_bump.discard.bind fun _ => ih

/-- No header has a gained word in place of its colon. -/
theorem replays_expectColon (construct : String) : Replays later before false (expectColon construct) := by
  refine replays_ifEat rfl (.pure id)
    ((replays_complain _ _).bind fun _ => replays_colonDistance.bind fun distance => ?_)
  cases distance with
  | none => exact .pure id
  | some distance => exact replays_bumpMany (distance + 1)

theorem replays_elseClause (works : inner.Replays later) (construct : String) (failed : Bool) :
    Replays later false false (elseClause inner construct failed) := by
  refine .ite (.pure id) (replays_ifEat rfl ?_ (.pure id))
  exact (replays_expectColon _).bind fun _ => (replays_suite works).bind fun _ => .pure id

/-! ### Conditions and loops -/

theorem replays_openClause (works : inner.Replays later) (outer : List OpenClause) :
    Replays later false false (openClause inner outer) :=
  replays_start.bind fun _ => replays_bump.bind fun _ => (works.e.test true).settled.bind fun _ =>
    (replays_expectColon _).bind fun _ => (replays_suite works).bind fun _ => .pure id

theorem replays_closeLadder (node : Node) (clauses : List OpenClause) :
    Replays later false false (closeLadder node clauses) := by
  induction clauses generalizing node with
  | nil => exact .pure id
  | cons clause outer ih => exact (replays_complete ..).bind fun node => ih node

theorem replays_conditional (works : inner.Replays later) : Replays later false false (conditional inner) := by
  refine (replays_openClause works []).bind fun first => ReplaysTo.bind (ReplaysTo.repeated _ fun ladder => ?_)
    fun ladder => (replays_elseClause works _ _).bind fun _ => (replays_complete ..).bind fun node =>
      replays_closeLadder node _
  refine (replays_at _).bind fun _ => .ite (.pure id) ?_
  exact (replays_openClause works _).bind fun _ => .pure id

theorem replays_whileLoop (works : inner.Replays later) : Replays later false false (whileLoop inner) :=
  replays_build (replays_bump.discard.bind fun _ => (works.e.test true).settled.bind fun _ =>
    (replays_expectColon _).bind fun _ => (replays_suite works).bind fun _ =>
      (replays_elseClause works _ _).bind fun _ => .pure id)

theorem replays_forLoop (works : inner.Replays later) : Replays later false false (forLoop inner) := by
  refine replays_build (replays_bump.discard.bind fun _ => (replays_exprList works.e).anywhere.bind fun target => ?_)
  refine replays_expect rfl ((replays_testList (works.e.test true)).settled.bind fun iterable => ?_)
  exact (replays_expectColon _).bind fun _ => (replays_suite works).bind fun _ =>
    (replays_elseClause works _ _).bind fun _ => .pure id

/-! ### Try and with -/

theorem replays_caught (exprs : e.Replays later) : Replays later false true (caught e) := by
  have named : ∀ (f : Features) (type : Node), Replays later false true (do
      discard bump
      return (some type, some (← if f.exceptComma then e.test true else name none))) := fun f type =>
    replays_bump.discard.bind fun _ => .ite ((exprs.test true).settled.bind fun _ => .pure id)
      ((replays_name none).bind fun _ => .pure nofun)
  have listed : ∀ type : Node, Replays later false true (do
      discard bump
      return (some type, some (← e.test true))) := fun type =>
    replays_bump.discard.bind fun _ => (exprs.test true).settled.bind fun _ => .pure id
  refine replays_features (fun f => ?_) fun f g gains => ?_
  · refine (replays_optional (exprs.test true).settled).settled.bind fun type => ?_
    cases type with
    | none => exact .pure id
    | some type =>
      refine replays_ifAt rfl (.ite (named f type) ((replays_complain _ _).bind fun _ => named f type)) ?_
      exact replays_ifAt rfl (.ite (listed type) ((replays_complain _ _).bind fun _ => listed type)) (.pure id)
  · rw [gains.exceptComma]
    refine .bind fun type => ?_
    cases type with
    | none => exact widens_refl _
    | some type =>
      refine .bind fun there => ?_
      cases there with
      | false => exact widens_refl _
      | true => exact widens_complaintUnless (named f type).retains gains.exceptAs

theorem replays_handler (works : inner.Replays later) : Replays later false false (handler inner) :=
  replays_start.bind fun _ => replays_bump.discard.bind fun _ => (replays_caught works.e).bind fun _ =>
    (replays_expectColon _).bind fun _ => (replays_suite works).bind fun _ =>
      (replays_complete ..).bind fun _ => .pure id

theorem replays_handlers (works : inner.Replays later) (failed : Bool) :
    Replays later false false (handlers inner failed) := by
  refine ReplaysTo.bind (ReplaysTo.repeated _ fun made => ?_) fun made => .pure id
  obtain ⟨nodes, failed⟩ := made
  refine (replays_at _).bind fun _ => .ite (.pure id) ?_
  exact (replays_handler works).bind fun _ => .pure id

theorem replays_tryElse (works : inner.Replays later) (handled failed : Bool) :
    Replays later false false (tryElse inner handled failed) := by
  have rest : Replays later false false (do
      discard bump
      expectColon "'else' in try statement"
      suite inner) :=
    replays_bump.discard.bind fun _ => (replays_expectColon _).bind fun _ => replays_suite works
  refine (replays_at _).bind fun _ => .ite (.pure id) (.ite rest ((replays_complain _ _).bind fun _ => rest))

theorem replays_finalClause (works : inner.Replays later) (handled : Bool) :
    Replays later false false (finalClause inner handled) := by
  refine replays_complaint ?_ fun f g gains without => ?_
  · exact replays_bump.discard.bind fun _ => (replays_expectColon _).bind fun _ =>
      (replays_suite works).bind fun _ => .pure id
  · simp only [Bool.and_eq_true, Bool.not_eq_true'] at without ⊢
    refine ⟨without.1, Bool.eq_false_iff.2 fun had => ?_⟩
    exact absurd (gains.unifiedTry had) (by simp [without.2])

theorem replays_tryBlock (works : inner.Replays later) : Replays later false false (tryBlock inner) := by
  refine replays_build (replays_bump.discard.bind fun _ => (replays_expectColon _).bind fun _ =>
    (replays_suite works).bind fun body => (replays_handlers works body.failed).bind fun made => ?_)
  obtain ⟨handlers, failed⟩ := made
  have without : Replays later false false (pure [] : ParseM (List Node)) := .pure id
  refine (replays_tryElse works _ _).bind fun orElse => (replays_at _).bind fun ends => ?_
  refine .ite ((replays_finalClause works _).bind fun final => ?_) (without.bind fun final => ?_)
  all_goals exact .ite ((replays_complain _ _).bind fun _ => .pure id) (.pure id)

theorem replays_withBlock (works : inner.Replays later) : Replays later false false (withBlock inner) :=
  replays_build (replays_bump.discard.bind fun _ => (works.e.test true).settled.bind fun _ =>
    (replays_announced rfl (replays_expr works.e).anywhere.loosen).bind fun _ =>
      (replays_expectColon _).bind fun _ => (replays_suite works).bind fun _ => .pure id)

/-! ### Functions and classes -/

theorem replays_signature (exprs : e.Replays later) : Replays later false false (signature e) := by
  refine replays_build (replays_ifEat rfl ?_ ((replays_complain _ _).bind fun _ => .pure id))
  refine replays_shared (fun f => ?_) fun f g gains => by rw [gains.annotations]
  exact (replays_parameterList exprs _ _).bind fun list => (replays_expectCloser rfl none).discard.bind
    fun _ => .pure id

theorem replays_function (works : inner.Replays later) (marker : Marker) (decorators : List Node) :
    Replays later false false (function inner marker decorators) := by
  refine replays_bump.discard.bind fun _ => (replays_name none).bind fun name =>
    (replays_signature works.e).bind fun parameters => ?_
  refine replays_shared (fun f => ?_) fun f g gains => by rw [gains.annotations]
  have rest : ∀ returns : Option Node, Replays later true false (do
      expectColon "function signature"
      let suite ← suite inner
      complete marker .function .none
        (several .decorators decorators ++ child .name name ++ child .args parameters ++
          child? .returns returns ++ several .body suite.body)) := fun returns =>
    (replays_expectColon _).bind fun _ => (replays_suite works).bind fun _ => replays_complete ..
  exact .ite ((replays_announced rfl (works.e.test true).settled).settled.bind rest) (ReplaysTo.bind (.pure nofun) rest)

theorem replays_baseClasses (exprs : e.Replays later) : Replays later false false (baseClasses e) := by
  refine replays_ifEat rfl ((replays_at _).bind fun ended => replays_complaint ?_ fun f g gains without => ?_)
    (.pure nofun)
  · have closes : ∀ bases : Array Node, Replays later true false (do
        discard <| expectCloser .rightParen none
        return bases.toList) := fun bases => (replays_expectCloser rfl none).discard.bind fun _ => .pure id
    refine ReplaysTo.bind (ReplaysTo.settled (ReplaysTo.repeated _ fun bases => ?_)) closes
    refine replays_ifAtSet ⟨rfl, rfl⟩ ((exprs.test true).settled.bind fun base => ?_) (.pure id)
    exact replays_ifEat rfl (.pure nofun) (.pure id)
  · simp only [Bool.and_eq_true, Bool.not_eq_true'] at without ⊢
    refine ⟨without.1, Bool.eq_false_iff.2 fun had => ?_⟩
    exact absurd (gains.emptyClassBases had) (by simp [without.2])

theorem replays_classBody (works : inner.Replays later) (marker : Marker) (decorators : List Node) :
    Replays later false false (classBody inner marker decorators) :=
  replays_bump.discard.bind fun _ => (replays_name none).bind fun _ => (replays_baseClasses works.e).bind fun _ =>
    (replays_expectColon _).bind fun _ => (replays_suite works).bind fun _ => replays_complete ..

theorem replays_decoratorTarget (exprs : e.Replays later) : Replays later false false (decoratorTarget e) := by
  refine (replays_name none).bind fun first => ReplaysTo.bind (ReplaysTo.repeated _ fun target => ?_) fun target => ?_
  · exact replays_ifAt rfl ((replays_member target).bind fun _ => .pure id) (.pure id)
  · exact replays_ifAt rfl (replays_call exprs target) (.pure id)

theorem replays_decorator (exprs : e.Replays later) : Replays later false false (decorator e) := by
  have node : Replays later false false (build .decorator do
      discard bump
      return (.none, child .function (← decoratorTarget e))) :=
    replays_build (replays_bump.discard.bind fun _ => (replays_decoratorTarget exprs).bind fun _ => .pure id)
  exact node.bind fun node => replays_endLine ⟨rfl, rfl⟩ node _

theorem replays_missingFunction (marker : Marker) (decorators : List Node) :
    Replays later false false (missingFunction marker decorators) := by
  have name : Replays later false false (build .name do
      discard <| takeMissingName (some "Expected 'def' or 'class' after decorator")
      return (.name missingName, [])) :=
    replays_build ((replays_takeMissingName _).discard.bind fun _ => .pure id)
  have parameters : Replays later false false (build .parameters do return (.none, [])) := replays_build (.pure id)
  exact name.bind fun _ => parameters.bind fun _ => replays_complete ..

theorem replays_decorated (works : inner.Replays later) : Replays later false false (decorated inner) := by
  refine replays_start.bind fun marker => ReplaysTo.bind (ReplaysTo.repeated _ fun decorators => ?_)
    fun decorators => ?_
  · exact replays_ifAt rfl ((replays_decorator works.e).bind fun _ => .pure id) (.pure id)
  · refine replays_ifAt rfl (replays_function works marker _) (replays_ifAt rfl ?_ (replays_missingFunction marker _))
    exact replays_complaintUnless (replays_classBody works marker _) fun f g gains => gains.classDecorators

theorem replays_compoundForm (works : inner.Replays later) (form : CompoundForm) :
    Replays later false false (compoundForm inner form) := by
  cases form with
  | conditional => exact replays_conditional works
  | whileLoop => exact replays_whileLoop works
  | forLoop => exact replays_forLoop works
  | tryBlock => exact replays_tryBlock works
  | withBlock => exact replays_withBlock works
  | function => exact replays_start.bind fun marker => replays_function works marker []
  | classBody => exact replays_start.bind fun marker => replays_classBody works marker []
  | decorated => exact replays_decorated works

/-! ### Statements of any form -/

theorem replays_unexpectedBlock (works : inner.Replays later) : Replays later false false (unexpectedBlock inner) :=
  (replays_complain _ _).bind fun _ => replays_bump.discard.bind fun _ => (replays_statementList works _).bind fun _ =>
    (replays_eat _).discard.bind fun _ => .pure id

theorem replays_anyStatement (works : inner.Replays later) : Replays later false false (anyStatement inner) := by
  refine replays_ifAt rfl (replays_unexpectedBlock works) (.seen (fun p fits => ?_) fun p => ?_)
  · have known : p.dialect.defines p.cell.kind := fits.known p.stream.current (by simp [TokenStream.document])
    have same : (p.recast later).dialect.compoundForm? (p.recast later).cell.kind =
      p.dialect.compoundForm? p.cell.kind :=
      fits.newer.compoundForm? known
    rw [same]
  · split
    · exact (replays_compoundForm works _).bind fun _ => .pure id
    · refine replays_canStartSimpleStatement.bind fun _ => .ite ?_ (.pure id)
      exact (replays_simpleStatement works.e).bind fun _ => .pure id

/-- A statement that the earlier dialect has not given up is not given up. -/
theorem replays_guardedStatement (works : inner.Replays later) :
    Replays later false false (guardedStatement inner) where
  retains := retains_guarded (replays_anyStatement works).retains
  runs {p q value} fits done clean := by
    have whole : ∀ p, guardedStatement inner p = orTooDeep (anyStatement inner) (abandonStatement p.here) p :=
      fun _ => rfl
    rw [whole, orTooDeep] at done
    cases steps : anyStatement inner p with
    | ok parsed held =>
      rw [steps] at done
      cases done
      obtain ⟨after, same, -⟩ := (replays_anyStatement works).runs fits steps clean
      exact ⟨after, fun settled => by rw [whole, orTooDeep, same settled], fun gained => by cases gained⟩
    | error fault held =>
      rw [steps] at done
      cases fault with
      | tooDeep =>
        have gaveUp : abandonStatement p.here held = .ok value q := done
        have found := blaming_abandonLine (p.rewound held)
        rw [← abandonStatement_eq, gaveUp] at found
        exact absurd clean found
      | _ => cases done

theorem replays_statementAt (exprs : e.Replays later) (depth : Nat) :
    Replays later false false (statementAt e depth) := by
  induction depth with
  | zero => exact .throw _
  | succ depth ih => exact replays_guardedStatement ⟨exprs, ih⟩

theorem replays_full (limits : Limits) (later : Dialect) : Inner.Replays later (full limits) :=
  ⟨replays_levels later _, replays_statementAt (replays_levels later _) _⟩

theorem replays_documentBody (works : inner.Replays later) : Replays later false false (documentBody inner) := by
  refine ReplaysTo.bind (ReplaysTo.repeated _ fun body => ?_) fun body => .pure id
  refine (replays_statementList works _).bind fun nodes => (replays_at _).bind fun _ => .ite (.pure id) ?_
  exact replays_describeCurrent.bind fun found => (replays_complain _ _).bind fun _ =>
    replays_bump.discard.bind fun _ => .pure id

/-- A later dialect repeats whole documents. -/
theorem replays_document (limits : Limits) (later : Dialect) : Replays later false false (document (full limits)) := by
  refine replays_build ((replays_documentBody (replays_full limits later)).bind fun body => .seen
    (fun _ _ => rfl) fun p => ?_)
  exact (replays_take _).discard.bind fun _ => .pure id

end Parser

end TolerantParser
