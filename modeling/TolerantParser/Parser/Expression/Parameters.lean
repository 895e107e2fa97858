import TolerantParser.Parser.Expression.Nested

/-!
Parameter lists and lambdas.

Embeds `parse_parameter_list`, `_parse_parameter`, `_parse_annotation` and `parse_lambda`.
-/

namespace TolerantParser

/-- The parameters read so far. Hints and defaults of keyword-only parameters have a gap where a
parameter has none; plain defaults belong to the last parameters. -/
structure ParameterList where
  args : Array Node
  defaults : Array Node
  hints : Array (Option Node)
  keywordOnly : Array Node
  keywordDefaults : Array (Option Node)
  keywordHints : Array (Option Node)
  star : Option (Node × Option Node)
  doubleStar : Option (Node × Option Node)

namespace ParameterList

def empty : ParameterList :=
  { args := #[], defaults := #[], hints := #[], keywordOnly := #[], keywordDefaults := #[],
    keywordHints := #[], star := none, doubleStar := none }

/-- Adds a parameter that may be given by place. -/
def add (list : ParameterList) (parameter : Node) (hint default : Option Node) : ParameterList :=
  { list with
    args := list.args.push parameter
    hints := list.hints.push hint
    defaults := match default with
      | some node => list.defaults.push node
      | none => list.defaults }

/-- Adds a parameter that can only be given by keyword. -/
def addKeywordOnly (list : ParameterList) (parameter : Node) (hint default : Option Node) :
    ParameterList :=
  { list with
    keywordOnly := list.keywordOnly.push parameter
    keywordHints := list.keywordHints.push hint
    keywordDefaults := list.keywordDefaults.push default }

/-- The children of a parameter node. -/
def children (list : ParameterList) : List (Label × Option Node) :=
  several .args list.args.toList ++ several .defaults list.defaults.toList ++
  sparse .hints list.hints.toList ++
  child? .starParameter (list.star.map Prod.fst) ++
  child? .starHint (list.star.bind Prod.snd) ++
  several .keywordOnly list.keywordOnly.toList ++
  sparse .keywordDefaults list.keywordDefaults.toList ++
  sparse .keywordHints list.keywordHints.toList ++
  child? .doubleStarParameter (list.doubleStar.map Prod.fst) ++
  child? .doubleStarHint (list.doubleStar.bind Prod.snd)

end ParameterList

namespace Parser

/-- A parameter's name, or parameters in parentheses that take a tuple apart. -/
def parameter (e : Nested) : ParseM Node := do
  unless ← at? .leftParen do return ← name none
  build .tuple do
    discard bump
    let first ← e.parameter
    let elements ← separated .comma first (at? .rightParen) e.parameter
    discard <| expectCloser .rightParen none
    return (.none, several .elements elements)

/-- What a colon says about a parameter, in lists where it may. -/
def parameterHint (e : Nested) (allowed : Bool) : ParseM (Option Node) := do
  if allowed then announced .colon (e.test true) else return none

/-- One entry of a parameter list; `none` where none can start. In dialects with keyword-only
parameters, those after a star are; the star may stand alone there. -/
def parameterEntry (e : Nested) (hints keywordOnly : Bool) (list : ParameterList) :
    ParseM (Option (Bool × ParameterList)) := do
  if ← eat .star then
    let keywordOnly := (← features).keywordOnlyArguments
    if keywordOnly && (← at? .comma) then return some (keywordOnly, list)
    let star ← name none
    return some (keywordOnly, { list with star := some (star, ← parameterHint e hints) })
  if ← eat .doubleStar then
    let doubleStar ← name none
    return some (keywordOnly, { list with doubleStar := some (doubleStar, ← parameterHint e hints) })
  if (← at? .name) || ((← at? .leftParen) && (← features).tupleParameters) then
    let node ← parameter e
    let hint ← parameterHint e hints
    let default ← announced .equal (e.test true)
    return some (keywordOnly,
      if keywordOnly then list.addKeywordOnly node hint default else list.add node hint default)
  return none

/-- The parameters up to the token that ends them. The node and its brackets are the caller's. -/
def parameterList (e : Nested) (stop : TokenKind) (hints : Bool) : ParseM ParameterList := do
  let (_, _, list) ← loop ((none, false, .empty) : Option Nat × Bool × ParameterList)
    fun (last, keywordOnly, list) => do
      if (← at? stop) || !(← hasProgressed last) then return .done (last, keywordOnly, list)
      let here := (← get).position
      match ← parameterEntry e hints keywordOnly list with
      | none => return .done (some here, keywordOnly, list)
      | some (keywordOnly, list) =>
        if ← eat .comma then return .yield (some here, keywordOnly, list)
        return .done (some here, keywordOnly, list)
  return list

def lambda (e : Nested) (conditional : Bool) : ParseM Node :=
  build .lambda do
    discard bump
    let parameters ← build .parameters do
      return (.none, (← parameterList e .colon false).children)
    unless ← eat .colon do complain .statementMalformed "Expected ':' in lambda"
    let body ← e.test conditional
    return (.none, child .args parameters ++ child .body body)

end Parser

end TolerantParser
