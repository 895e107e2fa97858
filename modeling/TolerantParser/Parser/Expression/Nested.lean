import TolerantParser.Parser.Core
import TolerantParser.Tree.Depth

/-!
What the productions of expressions share: the productions one nesting level further in, and lists
of parts with something between them.

Embeds `can_start_expression`, `parse_name`, `parse_dotted_name`, `parse_testlist`, `parse_testlist_or_yield`,
`parse_testlist_or_yield_item`, `parse_yield_expression` and `ParserProgress`.
-/

namespace TolerantParser

/-- The productions that expressions lead back to. A production is written over the productions one
level further in, so that nesting has a floor; at the floor they all report that it is too deep.
`test` is told whether a conditional expression may follow. -/
structure Nested where
  test : Bool → ParseM Node
  orTest : ParseM Node
  notTest : ParseM Node
  expr : ParseM Node
  factor : ParseM Node
  parameter : ParseM Node

namespace Nested

/-- The floor of nesting. -/
def tooDeep : Nested :=
  { test := fun _ => throw .tooDeep, orTest := throw .tooDeep, notTest := throw .tooDeep,
    expr := throw .tooDeep, factor := throw .tooDeep, parameter := throw .tooDeep }

end Nested

namespace Parser

/-- The tokens that an expression can start with. -/
def startsExpression : TokenKind → Bool
  | .name | .number | .string | .leftParen | .leftBracket | .leftBrace | .backquote | .ellipsis
  | .kwTrue | .kwFalse | .kwNone | .plus | .minus | .tilde | .kwNot | .kwLambda => true
  | _ => false

def canStartExpression : ParseM Bool := atSet? startsExpression

/-- An expression, if one can start here. -/
def optional (item : ParseM Node) : ParseM (Option Node) := do
  if ← canStartExpression then return some (← item)
  return none

/-- A part that a token announces. -/
def announced (kind : TokenKind) (item : ParseM Node) : ParseM (Option Node) := do
  if ← eat kind then return some (← item)
  return none

/-- The parts behind the first, with a token in front of each. After the token, `stop` may end the
list. -/
def separated (separator : TokenKind) (first : Node) (stop : ParseM Bool) (item : ParseM Node) :
    ParseM (List Node) := do
  let nodes ← loop #[first] fun nodes => do
    unless ← eat separator do return .done nodes
    if ← stop then return .done nodes
    return .yield (nodes.push (← item))
  return nodes.toList

/-- The parts behind the first, with commas; a last comma may end the list. -/
def commaSeparated (first : Node) (item : ParseM Node) : ParseM (List Node) :=
  separated .comma first (return !(← canStartExpression)) item

/-- A name, or the one put in where it is missing. -/
def name (message : Option String) : ParseM Node :=
  build .name do
    if ← at? .name then return (.name (← bump).text, [])
    discard <| takeMissingName message
    return (.name missingName, [])

/-- Names with points between them. The points belong to the node around. -/
def dottedName : ParseM (List Node) := do
  separated .dot (← name none) (return false) (name none)

/-- Items with commas between them: the item itself, or a tuple if there is a comma. -/
def testList (item : ParseM Node) : ParseM Node := do
  let first ← item
  unless ← at? .comma do return first
  build .tuple do
    return (.none, several .elements (← commaSeparated first item))

/-- Progress of a list: the position has grown since it was last looked at. -/
def hasProgressed (last : Option Nat) : ParseM Bool := return last.all (· < (← get).position)

/-! ### Yield -/

def yieldExpression (e : Nested) : ParseM Node :=
  build .yield do
    discard bump
    return (.none, child? .value (← optional (testList (e.test true))))

/-- Parses a yield where it stands, if it is an expression in the dialect, and else the item. -/
def yieldOr (e : Nested) (item : ParseM Node) : ParseM Node := do
  if (← at? .kwYield) && (← features).yieldExpressions then yieldExpression e else item

/-- A list of tests, or a yield. -/
def testListOrYield (e : Nested) : ParseM Node := yieldOr e (testList (e.test true))

end Parser

end TolerantParser
