import TolerantParser.Parser.Statement.Suite

/-!
Statements that hold blocks: conditions, loops, `try`, `with`, functions and classes.

Embeds `parse_if_statement`, `parse_while_statement`, `parse_for_statement`, `parse_try_statement`,
`_parse_except_handler`, `parse_with_statement`, `parse_funcdef`, `_parse_parameters`, `parse_classdef`,
`parse_decorated` and `_parse_decorator`.
-/

namespace TolerantParser

/-- One clause of a conditional statement whose node is still open. -/
structure OpenClause where
  marker : Marker
  test : Node
  body : List Node

/-- The clauses of a conditional statement read so far: the last one, those before it with the
nearest first, and whether the last one's block failed. -/
structure Ladder where
  last : OpenClause
  outer : List OpenClause
  failed : Bool

namespace Parser

/-! ### Conditions and loops -/

/-- A condition and its block, at the word in front of them. -/
def openClause (inner : Inner) (outer : List OpenClause) : ParseM Ladder := do
  let marker ← start
  let keyword := (← bump).text
  let test ← inner.e.test true
  expectColon s!"'{keyword}' condition"
  let suite ← suite inner
  return { last := ⟨marker, test, suite.body⟩, outer, failed := suite.failed }

/-- Makes the nodes of clauses, each with the one made before as what happens otherwise. -/
def closeLadder (node : Node) : List OpenClause → ParseM Node
  | [] => return node
  | clause :: outer => do
    let node ← complete clause.marker .conditional .none
      (child .test clause.test ++ several .body clause.body ++ several .orElse [node])
    closeLadder node outer

/-- A condition with any number of further conditions. Each of those is a statement of its own in
what happens if the one before does not hold; all stay open until the last has been read. -/
def conditional (inner : Inner) : ParseM Node := do
  let ladder ← loop (← openClause inner []) fun ladder => do
    if ladder.failed || !(← at? .kwElif) then return .done ladder
    return .yield (← openClause inner (ladder.last :: ladder.outer))
  let orElse ← elseClause inner "if statement" ladder.failed
  let node ← complete ladder.last.marker .conditional .none
    (child .test ladder.last.test ++ several .body ladder.last.body ++ several .orElse orElse)
  closeLadder node ladder.outer

def whileLoop (inner : Inner) : ParseM Node :=
  build .whileLoop do
    discard bump
    let test ← inner.e.test true
    expectColon "'while' condition"
    let suite ← suite inner
    let orElse ← elseClause inner "while loop" suite.failed
    return (.none, child .test test ++ several .body suite.body ++ several .orElse orElse)

def forLoop (inner : Inner) : ParseM Node :=
  build .forLoop do
    discard bump
    let target ← exprList inner.e
    unless ← eat .kwIn do complain .compoundMalformed "Expected 'in' in for loop"
    let iterable ← testList (inner.e.test true)
    expectColon "'for' clause"
    let suite ← suite inner
    let orElse ← elseClause inner "for loop" suite.failed
    return (.none, child .target target ++ child .iterable iterable ++
      several .body suite.body ++ several .orElse orElse)

/-! ### Try and with -/

/-- What a handler catches, and the name it gives to it. -/
def caught (e : Nested) : ParseM (Option Node × Option Node) := do
  let f ← features
  let some type ← optional (e.test true) | return (none, none)
  if ← at? .kwAs then
    unless f.exceptAs do
      complain .compoundMalformed "'except ... as' is not valid in this grammar"
    discard bump
    return (some type, some (← if f.exceptComma then e.test true else name none))
  if ← at? .comma then
    unless f.exceptComma do
      complain .compoundMalformed "'except E, e' is not valid in this grammar"
    discard bump
    return (some type, some (← e.test true))
  return (some type, none)

/-- A handler, and whether its block failed. -/
def handler (inner : Inner) : ParseM (Node × Bool) := do
  let marker ← start
  discard bump
  let (type, name) ← caught inner.e
  expectColon "'except' clause"
  let suite ← suite inner
  let node ← complete marker .handler .none
    (child? .type type ++ child? .name name ++ several .body suite.body)
  return (node, suite.failed)

/-- The handlers of a `try`, and whether the last block failed. -/
def handlers (inner : Inner) (failed : Bool) : ParseM (List Node × Bool) := do
  let (nodes, failed) ← loop (#[], failed) fun (nodes, failed) => do
    if failed || !(← at? .kwExcept) then return .done (nodes, failed)
    let (node, failed) ← handler inner
    return .yield (nodes.push node, failed)
  return (nodes.toList, failed)

/-- The block of a `try` for when nothing was raised, which needs a handler before it. -/
def tryElse (inner : Inner) (handled failed : Bool) : ParseM Suite := do
  if failed || !(← at? .kwElse) then return ⟨[], failed⟩
  unless handled do complain .compoundMalformed "'else' in try statement needs an 'except'"
  discard bump
  expectColon "'else' in try statement"
  suite inner

/-- The block that a `try` ends with, if there is one. -/
def finalClause (inner : Inner) (handled : Bool) : ParseM (List Node) := do
  if handled && !(← features).unifiedTry then
    complain .compoundMalformed "'except' and 'finally' cannot be combined in this grammar"
  discard bump
  expectColon "'finally'"
  return (← suite inner).body

def tryBlock (inner : Inner) : ParseM Node :=
  build .tryBlock do
    discard bump
    expectColon "'try'"
    let body ← suite inner
    let (handlers, failed) ← handlers inner body.failed
    let handled := !handlers.isEmpty
    let orElse ← tryElse inner handled failed
    let hasFinal := !orElse.failed && (← at? .kwFinally)
    let final ← if hasFinal then finalClause inner handled else pure []
    if !handled && !hasFinal && !orElse.failed then
      complain .compoundMalformed "Expected 'except' or 'finally' after try block"
    return (.none, several .body body.body ++ several .handlers handlers ++
      several .orElse orElse.body ++ several .finalBody final)

def withBlock (inner : Inner) : ParseM Node :=
  build .withBlock do
    discard bump
    let context ← inner.e.test true
    let boundTo ← announced .kwAs (expr inner.e)
    expectColon "'with' clause"
    let suite ← suite inner
    return (.none, child .context context ++ child? .boundTo boundTo ++ several .body suite.body)

/-! ### Functions and classes -/

/-- The parameters of a function with their parentheses. -/
def signature (e : Nested) : ParseM Node :=
  build .parameters do
    unless ← eat .leftParen do
      complain .compoundMalformed "Expected '(' after function name"
      return (.none, [])
    let list ← parameterList e .rightParen (← features).annotations
    discard <| expectCloser .rightParen none
    return (.none, list.children)

/-- A function, at its first word, with the decorators read before it. -/
def function (inner : Inner) (marker : Marker) (decorators : List Node) : ParseM Node := do
  discard bump
  let name ← name none
  let parameters ← signature inner.e
  let returns ←
    if (← features).annotations then announced .arrow (inner.e.test true) else pure none
  expectColon "function signature"
  let suite ← suite inner
  complete marker .function .none
    (several .decorators decorators ++ child .name name ++ child .args parameters ++
      child? .returns returns ++ several .body suite.body)

/-- The base classes with their parentheses, if there are any. -/
def baseClasses (e : Nested) : ParseM (List Node) := do
  unless ← eat .leftParen do return []
  if (← at? .rightParen) && !(← features).emptyClassBases then
    complain .compoundMalformed "Empty base class list is not valid in this grammar"
  let bases ← loop #[] fun bases => do
    unless ← canStartExpression do return .done bases
    let bases := bases.push (← e.test true)
    if ← eat .comma then return .yield bases
    return .done bases
  discard <| expectCloser .rightParen none
  return bases.toList

/-- A class, at its first word, with the decorators read before it. -/
def classBody (inner : Inner) (marker : Marker) (decorators : List Node) : ParseM Node := do
  discard bump
  let name ← name none
  let bases ← baseClasses inner.e
  expectColon "class header"
  let suite ← suite inner
  complete marker .classBody .none
    (several .decorators decorators ++ child .name name ++ several .bases bases ++
      several .body suite.body)

/-- What a decorator names: a dotted name that may be called. -/
def decoratorTarget (e : Nested) : ParseM Node := do
  let target ← loop (← name none) fun target => do
    if ← at? .dot then return .yield (← member target)
    return .done target
  if ← at? .leftParen then call e target else return target

def decorator (e : Nested) : ParseM Node := do
  let node ← build .decorator do
    discard bump
    return (.none, child .function (← decoratorTarget e))
  endLine node (· == .newline) "decorator"

/-- A function without name and parameters, for decorators that nothing follows. -/
def missingFunction (marker : Marker) (decorators : List Node) : ParseM Node := do
  let name ← build .name do
    discard <| takeMissingName (some "Expected 'def' or 'class' after decorator")
    return (.name missingName, [])
  let parameters ← build .parameters do return (.none, [])
  complete marker .function .none
    (several .decorators decorators ++ child .name name ++ child .args parameters)

/-- Decorators with the function or class behind them. -/
def decorated (inner : Inner) : ParseM Node := do
  let marker ← start
  let decorators ← loop #[] fun decorators => do
    if ← at? .at then return .yield (decorators.push (← decorator inner.e))
    return .done decorators
  if ← at? .kwDef then return ← function inner marker decorators.toList
  if ← at? .kwClass then
    unless (← features).classDecorators do
      complain .compoundMalformed "Class decorators are not valid in this grammar"
    return ← classBody inner marker decorators.toList
  missingFunction marker decorators.toList

/-- The statement of a form. -/
def compoundForm (inner : Inner) : CompoundForm → ParseM Node
  | .conditional => conditional inner
  | .whileLoop => whileLoop inner
  | .forLoop => forLoop inner
  | .tryBlock => tryBlock inner
  | .withBlock => withBlock inner
  | .function => do function inner (← start) []
  | .classBody => do classBody inner (← start) []
  | .decorated => decorated inner

end Parser

end TolerantParser
