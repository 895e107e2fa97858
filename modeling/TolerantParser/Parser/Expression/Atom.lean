import TolerantParser.Lexeme.StringLiteral
import TolerantParser.Parser.Expression.Display

/-!
Atoms, and the calls, subscripts and members that follow them.

Embeds `parse_atom`, `parse_atom_with_trailers`, `parse_call`, `_parse_subscript_list`, `_parse_subscript` and
`_at_dotted_ellipsis`.
-/

namespace TolerantParser

/-- The arguments of a call read so far. Of several starred arguments the last one counts. -/
structure ArgumentList where
  args : Array Node
  keywords : Array Node
  star : Option Node
  doubleStar : Option Node

namespace ArgumentList

def empty : ArgumentList := { args := #[], keywords := #[], star := none, doubleStar := none }

def children (list : ArgumentList) : List (Label × Option Node) :=
  several .args list.args.toList ++ several .keywords list.keywords.toList ++
  child? .starArgument list.star ++ child? .doubleStarArgument list.doubleStar

end ArgumentList

namespace Parser

/-- A token that is a node of its own. -/
def leaf (kind : NodeKind) (detail : String → Detail) : ParseM Node :=
  build kind do return (detail (← bump).text, [])

/-- String literals side by side make one node with all their contents. -/
def stringAtom : ParseM Node :=
  build .string do
    let contents ← loop "" fun contents => do
      unless ← at? .string do return .done contents
      let cell ← bump
      return .yield (contents ++ String.ofList (stringContents cell.text.toList))
    return (.string contents, [])

def backquoted (e : Nested) : ParseM Node :=
  build .backquoted do
    discard bump
    let value ← testList (e.test true)
    discard <| expectCloser .backquote (some "Expected closing '\x60'")
    return (.none, child .value value)

/-- The innermost expressions. Where none starts, a name is missing. -/
def atom (e : Nested) : ParseM Node := do
  match ← current with
  | .name | .kwTrue | .kwFalse | .kwNone => leaf .name .name
  | .number => leaf .number .number
  | .string => stringAtom
  | .ellipsis => leaf .ellipsis fun _ => .none
  | .leftParen => parenthesized e
  | .leftBracket => listDisplay e
  | .leftBrace => braceDisplay e
  | .backquote => backquoted e
  | _ => name (some "Expected an expression")

/-- A keyword argument, at its name. -/
def keywordArgument (e : Nested) : ParseM Node :=
  build .keyword do
    let name ← name none
    discard bump
    let value ← e.test true
    return (.none, child .argument name ++ child .value value)

/-- A keyword argument begins with a name and an equals sign. -/
def atKeywordArgument : ParseM Bool := do
  unless ← at? .name do return false
  return (← nth 1) == .equal

/-- One argument of a call; `none` where none can start. -/
def argumentEntry (e : Nested) (list : ArgumentList) : ParseM (Option ArgumentList) := do
  if ← eat .star then return some { list with star := some (← e.test true) }
  if ← eat .doubleStar then return some { list with doubleStar := some (← e.test true) }
  if ← atKeywordArgument then
    return some { list with keywords := list.keywords.push (← keywordArgument e) }
  if ← canStartExpression then
    let value ← e.test true
    let value ← if ← at? .kwFor then generatorTail e value else pure value
    return some { list with args := list.args.push value }
  return none

/-- A call, at its opening parenthesis. -/
def call (e : Nested) (function : Node) : ParseM Node :=
  build .call do
    discard bump
    let (_, list) ← loop ((none, .empty) : Option Nat × ArgumentList) fun (last, list) => do
      if (← at? .rightParen) || !(← hasProgressed last) then return .done (last, list)
      let here := (← get).position
      match ← argumentEntry e list with
      | none => return .done (some here, list)
      | some list =>
        if ← eat .comma then return .yield (some here, list)
        return .done (some here, list)
    discard <| expectCloser .rightParen none
    return (.none, child .function function ++ list.children)

/-- Three points, in dialects that have no token for them. -/
def atDottedEllipsis : ParseM Bool := do
  if (← get).dialect.defines .ellipsis then return false
  unless ← at? .dot do return false
  unless (← nth 1) == .dot do return false
  return (← nth 2) == .dot

/-- An index, a slice, or an ellipsis. -/
def subscriptItem (e : Nested) : ParseM Node := do
  if ← atDottedEllipsis then
    return ← build .ellipsis do
      discard bump
      discard bump
      discard bump
      return (.none, [])
  let marker ← start
  let lower ← if ← at? .colon then pure none else some <$> e.test true
  if let some index := lower then
    unless ← at? .colon do
      abandon marker
      return index
  discard bump
  let upper ← optional (e.test true)
  let step ← if ← eat .colon then optional (e.test true) else pure none
  complete marker .slice .none (child? .lower lower ++ child? .upper upper ++ child? .step step)

/-- What stands in the brackets of a subscript: one item, or a tuple of them. -/
def subscriptList (e : Nested) : ParseM Node := do
  let first ← subscriptItem e
  unless ← at? .comma do return first
  build .tuple do
    let items ← separated .comma first (at? .rightBracket) (subscriptItem e)
    return (.none, several .elements items)

/-- A subscript, at its opening bracket. -/
def subscript (e : Nested) (value : Node) : ParseM Node :=
  build .subscript do
    discard bump
    let index ← subscriptList e
    discard <| expectCloser .rightBracket none
    return (.none, child .value value ++ child .slice index)

/-- A member of a value, at its point. -/
def member (value : Node) : ParseM Node :=
  build .member do
    discard bump
    let member ← name none
    return (.none, child .value value ++ child .member member)

/-- An atom with all that follows it. -/
def atomWithTrailers (e : Nested) : ParseM Node := do
  loop (← atom e) fun node => do
    match ← current with
    | .leftParen => return .yield (← call e node)
    | .leftBracket => return .yield (← subscript e node)
    | .dot => return .yield (← member node)
    | _ => return .done node

end Parser

end TolerantParser
