import TolerantParser.Parser.Expression.Atom
import TolerantParser.Parser.Expression.Parameters

/-!
Operators, from the tightest to the loosest, and the tests made of them.

Embeds `parse_power`, `parse_factor`, `_parse_term` up to `parse_expr` with `_parse_binary`, `parse_exprlist`,
`parse_comparison` with `_at_comparison` and `_bump_comparison_operator`, `parse_not_test`, `parse_and_test` and
`parse_or_test` with `_parse_bool_op`, `parse_test` and `parse_old_test`.
-/

namespace TolerantParser

/-- The operators of one level of binding, with the way each is written in the tree. -/
abbrev OperatorLevel := List (TokenKind × String)

/-- The levels of the left-associative operators, the loosest first. -/
def binaryLevels : List OperatorLevel := [
  [(.bar, "|")],
  [(.circumflex, "^")],
  [(.ampersand, "&")],
  [(.leftShift, "<<"), (.rightShift, ">>")],
  [(.plus, "+"), (.minus, "-")],
  [(.star, "*"), (.slash, "/"), (.percent, "%"), (.doubleSlash, "//")]]

/-- The operators in front of one operand. -/
def unaryOperators : OperatorLevel := [(.plus, "+"), (.minus, "-"), (.tilde, "~")]

namespace Parser

/-- An operator in front of its operand. -/
def prefixed (op : String) (operand : ParseM Node) : ParseM Node :=
  build .unary do
    discard bump
    return (.operator op, child .operand (← operand))

/-- An operator between an operand that has been parsed and one that follows. -/
def infixed (op : String) (left : Node) (operand : ParseM Node) : ParseM Node :=
  build .binary do
    discard bump
    let right ← operand
    return (.operator op, child .left left ++ child .right right)

/-- An atom with trailers, raised to a power that may have a sign. -/
def power (e : Nested) : ParseM Node := do
  let base ← atomWithTrailers e
  if ← at? .doubleStar then infixed "**" base e.factor else return base

def factor (e : Nested) : ParseM Node := do
  match unaryOperators.lookup (← current) with
  | some op => prefixed op e.factor
  | none => power e

/-- Operands with the operators of one level between them, grouped from the left. -/
def binary (level : OperatorLevel) (operand : ParseM Node) : ParseM Node := do
  loop (← operand) fun left => do
    match level.lookup (← current) with
    | some op => return .yield (← infixed op left operand)
    | none => return .done left

/-- Operands with operators of several levels between them, the loosest first. -/
def binaryChain (operand : ParseM Node) : List OperatorLevel → ParseM Node
  | [] => operand
  | level :: tighter => binary level (binaryChain operand tighter)

def expr (e : Nested) : ParseM Node := binaryChain (factor e) binaryLevels

/-- Expressions with commas between them, as targets of loops are written. -/
def exprList (e : Nested) : ParseM Node := testList (expr e)

/-- The comparison operators of one token. -/
def isComparison : TokenKind → Bool
  | .less | .greater | .equalEqual | .notEqual | .lessGreater | .lessEqual | .greaterEqual
  | .kwIn | .kwIs => true
  | _ => false

def atComparison : ParseM Bool := do
  if ← at? .kwNot then return (← nth 1) == .kwIn
  atSet? isComparison

/-- Consumes a comparison operator of one or two words. -/
def comparisonOperator : ParseM String := do
  let cell ← bump
  if cell.kind == .kwNot then
    discard bump
    return "not in"
  if cell.kind == .kwIs then
    if ← eat .kwNot then return "is not"
  return cell.text

/-- Operands with comparisons between them make one node, however many there are. -/
def comparison (e : Nested) : ParseM Node := do
  let left ← expr e
  unless ← atComparison do return left
  build .comparison do
    let (ops, operands) ← loop ((#[], #[]) : Array String × Array Node) fun (ops, operands) => do
      unless ← atComparison do return .done (ops, operands)
      let op ← comparisonOperator
      let operand ← expr e
      return .yield (ops.push op, operands.push operand)
    return (.comparison ops.toList, child .left left ++ several .comparators operands.toList)

def notTest (e : Nested) : ParseM Node := do
  if ← at? .kwNot then prefixed "not" e.notTest else comparison e

/-- Operands with one word between them make one node, however many there are. -/
def boolean (word : TokenKind) (op : String) (operand : ParseM Node) : ParseM Node := do
  let first ← operand
  unless ← at? word do return first
  build .boolean do
    return (.operator op, several .values (← separated word first (return false) operand))

def andTest (e : Nested) : ParseM Node := boolean .kwAnd "and" (notTest e)

def orTest (e : Nested) : ParseM Node := boolean .kwOr "or" (andTest e)

/-- A lambda, or a test that may be followed by a condition and another test. -/
def test (e : Nested) (conditional : Bool) : ParseM Node := do
  if ← at? .kwLambda then return ← lambda e conditional
  let body ← orTest e
  unless conditional && (← features).conditionalExpressions && (← at? .kwIf) do return body
  build .choice do
    discard bump
    let condition ← orTest e
    let orElse ←
      if ← eat .kwElse then e.test true
      else name (some "Expected 'else' in conditional expression")
    return (.none, child .body body ++ child .test condition ++ child .orElse orElse)

end Parser

/-- The productions of expressions of which so many may stand in one another. -/
def Nested.levels : Nat → Nested
  | 0 => .tooDeep
  | depth + 1 =>
    let e := Nested.levels depth
    { test := Parser.test e, orTest := Parser.orTest e, notTest := Parser.notTest e,
      expr := Parser.expr e, factor := Parser.factor e, parameter := Parser.parameter e }

/-- The productions of expressions. -/
def Nested.full (limits : Limits) : Nested := Nested.levels (limits.expression + 1)

end TolerantParser
