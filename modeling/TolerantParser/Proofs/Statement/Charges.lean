import TolerantParser.Parser.Statement.Basic
import TolerantParser.Proofs.Expression.Charges
import TolerantParser.Proofs.Statement.InStepGuarded

/-!
What statements spend. A statement that is not there costs nothing, and the others begin with a token that pays for all
they put in and complain of, the colon and the block behind them included. A statement that nests too deeply gives up
what was found in it but not what was put in, so nothing is said then of what was spent.
-/

namespace TolerantParser

/-- What expressions and the statements one block further in spend. -/
structure Inner.Charged (d : Dialect) (inner : Inner) : Prop where
  e : inner.e.Charged d
  statement : Parser.Costs d Parser.Anywhere 0 inner.statement

namespace Parser

open TokenStream (bind_ok)

variable {d : Dialect} {here : TokenKind → Prop} {c : Cost} {e : Nested} {inner : Inner}

/-! ### Looking and telling -/

theorem oneLine_describe (cell : Cell) : OneLine (describe cell).toList := by
  unfold describe
  split
  all_goals first
    | decide
    | exact oneLine_quoted _

/-- The token at the cursor is named on one line. -/
theorem Spends.describeCurrent {α : Type} {k : String → ParseM α} {cost : α → Cost}
    (next : ∀ found, OneLine found.toList → Spends d here cost (k found)) :
    Spends d here cost (describeCurrent >>= k) :=
  .seen fun p _ starts => (next _ (oneLine_describe p.cell)).weaken (by rintro _ rfl; exact starts) fun _ => le_refl _

/-- The word in front of a condition is on one line. -/
theorem Spends.bumpWord {α : Type} {k : Cell → ParseM α} {cost : α → Cost} {kind : TokenKind}
    (word : kind = .kwIf ∨ kind = .kwElif)
    (next : ∀ cell, OneLine cell.text.toList → Spends d Anywhere (fun value => cost value + toll kind) (k cell)) :
    Spends d (· = kind) cost (bump >>= k) := by
  refine costs_bump.bindAt (fun cell _ => OneLine cell.text.toList) (fun {p q cell} steady here done => ?_)
    fun cell => ⟨fun steady one => ?_, fun steady one => ?_⟩
  · have more : p.cell.kind ≠ .endOfFile := by
      rw [here]
      rcases word with rfl | rfl <;> decide
    obtain ⟨_, _, bumps, -⟩ := bump_eq steady.sound more
    obtain ⟨rfl, -⟩ := EStateM.Result.ok.inj (bumps.symm.trans done)
    have listed : p.cell.toToken ∈ p.stream.tokens := by simp [TokenStream.tokens_eq, TokenStream.upcoming, Parser.cell]
    exact steady.worded p.cell.toToken listed (here ▸ word)
  · exact (next cell one).onward steady trivial
  · simpa only [sub_neg_eq_add] using (next cell one).pays steady trivial

section

variable {α : Type} {errorKind : ErrorKind} {message : String} {cost : α → Cost} {known : Prop} [Decidable known]

/-- What a grammar does not have costs an error. -/
theorem Spends.complaintUnless {k : PUnit → ParseM α} (recorded : isRecordedOnly errorKind)
    (oneLine : OneLine message.toList) (next : Spends d here (fun value => cost value - (0, 1)) (k ⟨⟩)) :
    Spends d here cost (if known then k ⟨⟩ else complain errorKind message >>= k) := by
  refine .ite (fun _ => ?_) fun _ => (stays_complain recorded oneLine).bind fun _ => next
  exact next.weaken (fun _ => id) fun value => sub_le_self _ (by decide)

theorem Spends.complaintIf {k : PUnit → ParseM α} (recorded : isRecordedOnly errorKind)
    (oneLine : OneLine message.toList) (next : Spends d here (fun value => cost value - (0, 1)) (k ⟨⟩)) :
    Spends d here cost (if known then complain errorKind message >>= k else k ⟨⟩) := by
  rw [← ite_not]
  exact .complaintUnless recorded oneLine next

end

/-! ### Statements that end with their line -/

/-- A line of statements may start with these. -/
def startsSmall (d : Dialect) (kind : TokenKind) : Bool := (d.simpleForm? kind).isSome || startsExpression kind

theorem costs_expressionStatement (exprs : e.Charged d) (works : Costs d here c (testListOrYield e)) :
    Costs d here c (expressionStatement e) := by
  refine .stay stays_start fun marker => works.andThen fun first => ?_
  refine .ifAtSet ?_ (.ifAt (fun _ => ?_) (costs_complete ..))
  · refine (costs_bumpAt (by rintro _ augmented rfl; cases augmented)).bind fun op => ?_
    exact (solvent_testListOrYield exprs).anywhere.bind fun value => (costs_complete ..).within (by decide)
  · exact (costs_separated rfl first .nothing (solvent_testListOrYield exprs).anywhere).andThen fun parts =>
      costs_complete ..

theorem costs_wordStatement (kind : NodeKind) : Costs d (· ≠ .endOfFile) (-2, -6) (wordStatement kind) :=
  costs_build ((costs_bumpAt fun _ => id).discard.andThen fun _ => .nothing)

/-- The values of a print statement behind the first one. -/
theorem costs_printed (exprs : e.Charged d) (destination first : Option Node) : Costs d Anywhere 0 (do
    let (values, endsLine) ← loop (first.toArray, true) fun (values, endsLine) => do
      unless ← eat .comma do return .done (values, endsLine)
      unless ← canStartExpression do return .done (values, false)
      return .yield (values.push (← e.test true), true)
    return (Detail.print endsLine, child? .destination destination ++ several .values values.toList)) := by
  refine Spends.andThen (Spends.repeated _ fun made => ?_) fun _ => .nothing
  obtain ⟨values, endsLine⟩ := made
  refine .ifEat (.ifAtSet ?_ (.pure (by decide))) .nothing
  exact (exprs.test true).started.bind fun _ => .pure (by decide)

theorem costs_printStatement (exprs : e.Charged d) : Costs d (· ≠ .endOfFile) (-2, -6) (printStatement e) := by
  refine costs_build ((costs_bumpAt fun _ => id).discard.andThen fun _ => ?_)
  refine (costs_announced rfl (exprs.test true).anywhere).andThen fun destination => .ite (fun _ => ?_) fun _ => ?_
  · exact costs_printed exprs destination none
  · exact (costs_optional (exprs.test true)).andThen (costs_printed exprs destination)

theorem costs_deleteStatement (exprs : e.Charged d) : Costs d (· ≠ .endOfFile) (-1, -5) (deleteStatement e) :=
  costs_build ((costs_bumpAt fun _ => id).discard.bind fun _ => (solvent_expr exprs).anywhere.bind fun first =>
    (costs_commaSeparated first (solvent_expr exprs).anywhere).bind fun _ => .pure (by decide))

theorem costs_returnStatement (exprs : e.Charged d) : Costs d (· ≠ .endOfFile) (-2, -6) (returnStatement e) :=
  costs_build ((costs_bumpAt fun _ => id).discard.andThen fun _ =>
    (costs_optional (exprs.test true).testList).andThen fun _ => .nothing)

/-- A part behind another one, which there is only if the other one is there. -/
theorem costs_behind {α : Type} {kind : TokenKind} {item : ParseM Node} {k : Option Node → ParseM α} (there : Bool)
    (pays : toll kind = (2, 6)) (works : Costs d Anywhere (1, 1) item) (next : ∀ part, Costs d Anywhere 0 (k part)) :
    Costs d Anywhere 0 (if there = true then announced kind item >>= k else pure none >>= k) :=
  .ite (fun _ => (costs_announced pays works).andThen next) fun _ => next none

theorem costs_raiseArguments (exprs : e.Charged d) : Costs d Anywhere 0 (raiseArguments e) := by
  refine .look (fun _ => ⟨_, rfl⟩) fun f => costs_behind _ rfl (exprs.test true).anywhere fun cause =>
    .ite (fun _ => .nothing) fun _ => ?_
  refine (costs_announced rfl (exprs.test true).anywhere).andThen fun inst => ?_
  exact costs_behind _ rfl (exprs.test true).anywhere fun traceback => .nothing

theorem costs_raiseStatement (exprs : e.Charged d) : Costs d (· ≠ .endOfFile) (-2, -6) (raiseStatement e) := by
  refine costs_build ((costs_bumpAt fun _ => id).discard.andThen fun _ => ?_)
  refine (costs_optional (exprs.test true)).andThen fun type => ?_
  cases type with
  | none => exact .nothing
  | some type => exact (costs_raiseArguments exprs).andThen fun _ => .nothing

theorem costs_namesStatement (kind : NodeKind) : Costs d (· ≠ .endOfFile) (-1, -5) (namesStatement kind) :=
  costs_build ((costs_bumpAt fun _ => id).discard.bind fun _ => (costs_name (by decide)).bind fun first =>
    (costs_separated rfl first .nothing (costs_name (by decide))).bind fun _ => .pure (by decide))

theorem costs_execStatement (exprs : e.Charged d) : Costs d (· ≠ .endOfFile) (-1, -5) (execStatement e) := by
  have spaces : Costs d Anywhere 0 (announced .kwIn (e.test true)) := costs_announced rfl (exprs.test true).anywhere
  refine costs_build ((costs_bumpAt fun _ => id).discard.bind fun _ => ?_)
  refine (solvent_expr exprs).anywhere.bind fun body => ?_
  refine Spends.within (spaces.andThen fun globals => ?_) (by decide)
  exact costs_behind _ rfl (exprs.test true).anywhere fun locals => .nothing

theorem costs_assertStatement (exprs : e.Charged d) : Costs d (· ≠ .endOfFile) (-1, -5) (assertStatement e) :=
  costs_build ((costs_bumpAt fun _ => id).discard.bind fun _ => (exprs.test true).anywhere.bind fun _ =>
    (costs_announced rfl (exprs.test true).anywhere).bind fun _ => .pure (by decide))

theorem costs_yieldStatement (exprs : e.Charged d) : Costs d (· ≠ .endOfFile) (-2, -6) (yieldStatement e) :=
  costs_build ((costs_yieldExpression exprs).andThen fun _ => .nothing)

theorem costs_imported {path : ParseM (List Node)} (works : Costs d here c path) : Costs d here c (imported path) :=
  costs_build (works.andThen fun _ => (costs_announced rfl (costs_name (by decide))).andThen fun _ => .nothing)

theorem costs_importStatement : Costs d (· ≠ .endOfFile) (-1, -5) importStatement :=
  costs_build ((costs_bumpAt fun _ => id).discard.bind fun _ => (costs_imported costs_dottedName).bind fun first =>
    (costs_separated rfl first .nothing (costs_imported costs_dottedName)).bind fun _ => .pure (by decide))

theorem costs_relativeLevel : Costs d here 0 relativeLevel := by
  refine .repeated _ fun level => .ifAtEither (fun kind either => ?_) .nothing
  have more : ∀ other, other = kind → other ≠ .endOfFile := by
    rintro _ rfl
    rcases either with rfl | rfl <;> decide
  refine .look (fun _ => ⟨_, rfl⟩) fun f => .complaintIf rfl (by decide) ?_
  exact (costs_bumpAt more).bind fun _ => .pure (by decide)

theorem costs_importedNames : Costs d here (1, 2) importedNames := by
  have item {here : TokenKind → Prop} : Costs d here (1, 1) (imported (return [← name none])) :=
    costs_imported ((costs_name (by decide)).andThen fun _ => .nothing)
  refine .ifEat (.pure (by decide)) ((costs_eat _).bind fun inParentheses => item.bind fun first => ?_)
  refine (costs_separated rfl first ((costs_at _).andThen fun _ => .nothing) item).bind fun names => ?_
  refine .ite (fun _ => ?_) fun _ => .pure (by decide)
  exact (costs_expectCloser _ (by decide)).discard.bind fun _ => .pure (by decide)

/-- What a module gives names to, behind the path of the module. -/
theorem costs_importNames (level : Nat) (path : List Node) : Costs d Anywhere (0, 1) (do
    unless ← eat .kwImport do
      complain .statementMalformed "Expected 'import'"
      return (Detail.importFrom level false, several .path path)
    let (all, names) ← importedNames
    return (.importFrom level all, several .path path ++ several .names names)) :=
  .ifEat (costs_importedNames.bind fun _ => .pure (by decide))
    ((stays_complain rfl (by decide)).bind fun _ => .pure (by decide))

theorem costs_importFromStatement : Costs d (· ≠ .endOfFile) (-1, -4) importFromStatement := by
  refine costs_build ((costs_bumpAt fun _ => id).discard.bind fun _ => costs_relativeLevel.bind fun level =>
    (costs_at _).bind fun named => .ite (fun _ => ?_) fun _ => ?_)
  · exact costs_dottedName.bind fun path => (costs_importNames level path).within (by decide)
  · exact (costs_importNames level []).within (by decide)

theorem costs_simpleForm (exprs : e.Charged d) (form : SimpleForm) :
    Costs d (· ≠ .endOfFile) (-1, -3) (simpleForm e form) := by
  cases form with
  | pass | «break» | «continue» => exact (costs_wordStatement _).within (by decide)
  | «return» => exact (costs_returnStatement exprs).within (by decide)
  | raise => exact (costs_raiseStatement exprs).within (by decide)
  | global | nonlocal => exact (costs_namesStatement _).within (by decide)
  | delete => exact (costs_deleteStatement exprs).within (by decide)
  | importName => exact costs_importStatement.within (by decide)
  | importFrom => exact costs_importFromStatement.within (by decide)
  | assert => exact (costs_assertStatement exprs).within (by decide)
  | yield => exact (costs_yieldStatement exprs).within (by decide)
  | print => exact (costs_printStatement exprs).within (by decide)
  | exec => exact (costs_execStatement exprs).within (by decide)

theorem simpleForm?_endOfFile (d : Dialect) : d.simpleForm? .endOfFile = none := by
  cases d <;> rfl

theorem costs_smallStatement (exprs : e.Charged d) (least : (-1, -3) ≤ c)
    (otherwise : Costs d (fun kind => here kind ∧ d.simpleForm? kind = none) c (expressionStatement e)) :
    Costs d here c (smallStatement e) := by
  refine .seen fun p steady starts => ?_
  rw [steady.dialect]
  cases found : d.simpleForm? p.cell.kind with
  | some form =>
    refine ((costs_simpleForm exprs form).within least).weaken ?_ fun _ => le_refl _
    rintro _ rfl ends
    rw [ends, simpleForm?_endOfFile] at found
    cases found
  | none => exact otherwise.weaken (by rintro _ rfl; exact ⟨starts, found⟩) fun _ => le_refl _

/-- A statement on a line: one token pays for it and has some left over, or a name is put in. -/
theorem smallStatement_anywhere (exprs : e.Charged d) : Costs d Anywhere (1, 1) (smallStatement e) :=
  costs_smallStatement exprs (by decide) <|
    costs_expressionStatement exprs (solvent_testListOrYield exprs).anywhere.there

theorem smallStatement_started (exprs : e.Charged d) : Costs d (startsSmall d ·) (-1, -3) (smallStatement e) :=
  costs_smallStatement exprs (by decide) <| costs_expressionStatement exprs <|
    (solvent_testListOrYield exprs).started.weaken (fun kind starts => by simpa [startsSmall, starts.2] using starts.1)
      fun _ => le_refl _

/-- Where a line of statements can start one may be read. -/
theorem Spends.ifCanStart {α : Type} {f g : ParseM α} {cost : α → Cost} (yes : Spends d (startsSmall d ·) cost f)
    (no : Spends d here cost g) :
    Spends d here cost (canStartSimpleStatement >>= fun there => if there = true then f else g) := by
  refine .seen fun p steady starts => .ite (fun can => ?_) fun _ => ?_
  · rw [steady.dialect] at can
    exact yes.weaken (by rintro _ rfl; exact can) fun _ => le_refl _
  · exact no.weaken (by rintro _ rfl; exact starts) fun _ => le_refl _

theorem costs_attachToLineEnd (node : Node) : Costs d here 0 (attachToLineEnd node) :=
  .repeated _ fun node => .ifAtSet .nothing <| costs_bumpOver.andThen fun cell =>
    (costs_attach node cell).andThen fun _ => .nothing

/-- A line that does not end costs an error. -/
theorem costs_endLine (isEnd : TokenKind → Bool) (node : Node) {construct : String}
    (oneLine : OneLine construct.toList) : Costs d here (0, 1) (endLine node isEnd construct) := by
  have last {here : TokenKind → Prop} (node : Node) : Costs d here 0 (do return (← eatInto node .newline).1) :=
    Spends.andThen ((spends_eatInto .newline node).weaken (fun _ => id) fun made => by
      split <;> decide) fun _ => .nothing
  refine .ifAtSet ((last node).within (by decide)) (.describeCurrent fun found one => ?_)
  have message : OneLine s!"Expected end of {construct}, found {found}".toList :=
    oneLine_append (oneLine_append (oneLine_append (by decide) oneLine) (by decide)) one
  exact (stays_complain rfl message).bind fun _ => ((costs_attachToLineEnd node).andThen last).within (by decide)

/-- What one round over a line spends. Only the last one may leave a debt. -/
theorem spends_statementOnLine (works : Costs d here c (smallStatement e)) (nodes : Array Node) :
    Spends d here (Spends.rounds c (c - (1, 1))) (do
      let node ← smallStatement e
      let (node, semicolon) ← eatInto node .semicolon
      if semicolon.isSome && (← canStartSimpleStatement) then return .yield (nodes.push node)
      return .done (nodes.push node)) := by
  refine works.bind fun node => (spends_eatInto .semicolon node).bind fun made => ?_
  obtain ⟨node, semicolon⟩ := made
  refine .look (fun _ => ⟨_, rfl⟩) fun more => ?_
  cases semicolon with
  | none => exact .ite nofun fun _ => .pure (by simp [Spends.rounds])
  | some cell =>
    refine .ite (fun _ => .pure ?_) fun _ => .pure ?_
    · show 0 ≤ c - (1, 1) - c - -toll .semicolon
      rw [sub_sub_cancel_left]
      decide
    · show 0 ≤ c - c - -toll .semicolon
      rw [sub_self]
      decide

/-- A line of statements, where one can start. -/
theorem costs_simpleStatement (exprs : e.Charged d) : Costs d (startsSmall d ·) (-1, -2) (simpleStatement e) := by
  have line : Costs d (startsSmall d ·) (-1, -3) (loop #[] fun nodes => do
      let node ← smallStatement e
      let (node, semicolon) ← eatInto node .semicolon
      if semicolon.isSome && (← canStartSimpleStatement) then return .yield (nodes.push node)
      return .done (nodes.push node)) :=
    .loopFrom (1, 1) (spends_statementOnLine (smallStatement_started exprs) _)
      (spends_statementOnLine (smallStatement_anywhere exprs))
  refine line.bind fun nodes => ?_
  cases nodes.back? with
  | none => exact .pure (by decide)
  | some last => exact (costs_endLine _ last (by decide)).bind fun _ => .pure (by decide)

theorem skipLine_anywhere : Costs d here 0 skipLine :=
  Spends.andThen (.repeated _ fun _ => .ifAtSet .nothing (costs_bumpOver.discard.andThen fun _ => .nothing)) fun _ =>
    (costs_eat _).discard

/-- What is skipped of a line pays, also if it is nothing but the end of the line. -/
theorem costs_skipLine : Costs d (isBlockEnd · = false) (-2, -6) skipLine := by
  refine .apart (fun kind => kind.isLineEnd) ?_ ?_
  · have newline : Costs d (· = .newline) (-2, -6) (discard (eat .newline) : ParseM PUnit) := by
      rw [eat_eq]
      exact (Spends.ifAt (fun _ => costs_bump.bind fun _ => .pure (by decide)) (.never (by simp))).discard
    refine (newline.weaken (fun kind here => ?_) fun _ => le_refl _).congr fun p here => ?_
    · by_contra other
      rcases isBlockEnd_of_isLineEnd here.2 other with rfl | rfl <;> cases here.1
    · exact bind_ok (skipToLineEnd_stays here.2) _
  · refine Spends.andThen (.loopPaid ?_ fun _ => ?_) fun _ => (costs_eat _).discard
    · refine .bySet fun kind here => .ite (fun ends => absurd ends here.2) fun _ => ?_
      refine (costs_bumpAt ?_).discard.andThen fun _ => .nothing
      rintro _ rfl rfl
      exact absurd rfl here.2
    · exact .ifAtSet .nothing (costs_bumpOver.discard.andThen fun _ => .nothing)

end Parser

end TolerantParser
