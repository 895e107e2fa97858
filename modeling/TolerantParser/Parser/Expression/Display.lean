import TolerantParser.Parser.Expression.Nested

/-!
Comprehensions, and what stands in brackets: parentheses, lists, dictionaries and sets.

Embeds `parse_comprehension_clauses`, `_parse_generator_tail`, `_parse_parenthesized`, `_parse_display_items`,
`_parse_list_display`, `_parse_brace_display`, `_finish_dict` and `_parse_dict_value`.
-/

namespace TolerantParser.Parser

/-- One clause of a comprehension, at its first word. -/
def comprehensionClause (e : Nested) (bareTuples : Bool) : ParseM Node :=
  build .clause do
    discard bump
    let target ← testList e.expr
    unless ← eat .kwIn do complain .statementMalformed "Expected 'in' in comprehension"
    let iterable ← if bareTuples then testList (e.test false) else e.orTest
    let conditions ← loop #[] fun conditions => do
      if ← eat .kwIf then return .yield (conditions.push (← e.test false))
      return .done conditions
    return (.none, child .target target ++ child .iterable iterable ++
      several .conditions conditions.toList)

/-- The clauses of a comprehension. Where the dialect allows it, a list comprehension may go over
the items of a tuple without parentheses. -/
def comprehensionClauses (e : Nested) (inList : Bool) : ParseM (List Node) := do
  let bareTuples := inList && (← features).tupleComprehensionIterables
  let clauses ← loop #[] fun clauses => do
    if ← at? .kwFor then return .yield (clauses.push (← comprehensionClause e bareTuples))
    return .done clauses
  return clauses.toList

/-- The clauses of a comprehension in a call, whose parentheses are the generator's too. -/
def generatorTail (e : Nested) (element : Node) : ParseM Node :=
  build .generator do
    let clauses ← comprehensionClauses e false
    return (.none, child .element element ++ several .generators clauses)

/-- Parentheses: the empty tuple, a generator, a tuple, or an expression that keeps its own kind
and takes the parentheses over. -/
def parenthesized (e : Nested) : ParseM Node := do
  let marker ← start
  discard bump
  if ← eat .rightParen then return ← complete marker .tuple .none []
  let first ← yieldOr e (e.test true)
  if ← at? .kwFor then
    let clauses ← comprehensionClauses e false
    discard <| expectCloser .rightParen none
    return ← complete marker .generator .none
      (child .element first ++ several .generators clauses)
  if ← at? .comma then
    let elements ← commaSeparated first (e.test true)
    discard <| expectCloser .rightParen none
    return ← complete marker .tuple .none (several .elements elements)
  discard <| expectCloser .rightParen none
  mergeInto marker first

/-- The items of a list or set behind the first. -/
def displayItems (e : Nested) (first : Node) (closer : TokenKind) : ParseM (List Node) :=
  separated .comma first (return (← at? closer) || !(← canStartExpression)) (e.test true)

def listDisplay (e : Nested) : ParseM Node := do
  let marker ← start
  discard bump
  if ← eat .rightBracket then return ← complete marker .list .none []
  let first ← e.test true
  if ← at? .kwFor then
    let clauses ← comprehensionClauses e true
    discard <| expectCloser .rightBracket none
    return ← complete marker .listComprehension .none
      (child .element first ++ several .generators clauses)
  let elements ← displayItems e first .rightBracket
  discard <| expectCloser .rightBracket none
  complete marker .list .none (several .elements elements)

/-- The value of a dictionary entry, behind its colon. -/
def dictValue (e : Nested) : ParseM (Option Node) := do
  if ← canStartExpression then return some (← e.test true)
  discard <| recover .dictValueMissing none []
  return none

/-- The value of a dictionary entry and the colon in front of it. -/
def colonAndValue (e : Nested) : ParseM (Option Node) := do
  if ← eat .colon then return ← dictValue e
  complain .dictValueMissing "Expected ':' and a value after dict key"
  return none

/-- The entries of a dictionary behind the first, and its end. -/
def finishDict (e : Nested) (marker : Marker) (key : Node) (value : Option Node) : ParseM Node := do
  let (keys, values) ← loop (#[key], #[value]) fun (keys, values) => do
    unless ← eat .comma do return .done (keys, values)
    if (← at? .rightBrace) || !(← canStartExpression) then return .done (keys, values)
    let key ← e.test true
    let value ← colonAndValue e
    return .yield (keys.push key, values.push value)
  discard <| expectCloser .rightBrace none
  complete marker .dict .none (several .keys keys.toList ++ sparse .values values.toList)

/-- Behind the first key and colon of a dictionary: its entries, or the clauses of a
comprehension. -/
def dictDisplay (e : Nested) (marker : Marker) (key : Node) : ParseM Node := do
  let value ← dictValue e
  unless (← at? .kwFor) && (← features).setDictComprehensions do
    return ← finishDict e marker key value
  let clauses ← comprehensionClauses e false
  discard <| expectCloser .rightBrace none
  let value ← match value with
    | some node => pure node
    | none => name (some "Expected a value in dict comprehension")
  complete marker .dictComprehension .none
    (child .key key ++ child .value value ++ several .generators clauses)

/-- Braces: a dictionary, or in dialects that have them a set, or a comprehension of either. -/
def braceDisplay (e : Nested) : ParseM Node := do
  let marker ← start
  discard bump
  if ← eat .rightBrace then return ← complete marker .dict .none []
  let first ← e.test true
  if ← eat .colon then return ← dictDisplay e marker first
  unless (← features).setLiterals do
    complain .dictValueMissing "Expected ':' and a value after dict key"
    return ← finishDict e marker first none
  if ← at? .kwFor then
    let clauses ← comprehensionClauses e false
    discard <| expectCloser .rightBrace none
    return ← complete marker .setComprehension .none
      (child .element first ++ several .generators clauses)
  let elements ← displayItems e first .rightBrace
  discard <| expectCloser .rightBrace none
  complete marker .set .none (several .elements elements)

end TolerantParser.Parser
