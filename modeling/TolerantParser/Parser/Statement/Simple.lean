import TolerantParser.Parser.Expression.Operator

/-!
Statements that end with their line, and lines of several of them. The semicolon or line end behind
a statement belongs to it, outside of its span.

Embeds `can_start_simple_statement`, `parse_simple_statement`, `_parse_small_statement`, `parse_expression_statement`,
the statements from `parse_print_statement` to `parse_import_from`, `_parse_keyword_statement`, `_parse_name_list`,
`_parse_dotted_as_name`, `_parse_import_as_name` and `_describe`.
-/

namespace TolerantParser.Parser

/-- A token as messages about unexpected ones name it. -/
def describe (cell : Cell) : String :=
  match cell.kind with
  | .endOfFile => "end of file"
  | .newline => "newline"
  | .indent => "indent"
  | .dedent => "dedent"
  | _ => quoted cell.text

/-- The token at the cursor as messages name it. -/
def describeCurrent : ParseM String := return describe (← get).cell

/-! ### Expressions as statements -/

/-- An expression, an assignment, or one that also reads what it assigns to. -/
def expressionStatement (e : Nested) : ParseM Node := do
  let marker ← start
  let first ← testListOrYield e
  if ← atSet? TokenKind.isAugmentedAssignment then
    let op := (← bump).text
    let value ← testListOrYield e
    return ← complete marker .augmentedAssignment (.operator op)
      (child .target first ++ child .value value)
  if ← at? .equal then
    let parts ← separated .equal first (return false) (testListOrYield e)
    return ← complete marker .assignment .none
      (several .targets parts.dropLast ++ child .value (parts.getLast?.getD first))
  complete marker .expression .none (child .value first)

/-! ### Statements that begin with a word -/

/-- A statement that is one word. -/
def wordStatement (kind : NodeKind) : ParseM Node :=
  build kind do
    discard bump
    return (.none, [])

/-- A print statement. A comma at its end keeps the line open. -/
def printStatement (e : Nested) : ParseM Node :=
  build .print do
    discard bump
    let destination ← announced .rightShift (e.test true)
    let first ← if destination.isSome then pure none else optional (e.test true)
    let (values, endsLine) ← loop (first.toArray, true) fun (values, endsLine) => do
      unless ← eat .comma do return .done (values, endsLine)
      unless ← canStartExpression do return .done (values, false)
      return .yield (values.push (← e.test true), true)
    return (.print endsLine, child? .destination destination ++ several .values values.toList)

def deleteStatement (e : Nested) : ParseM Node :=
  build .delete do
    discard bump
    let first ← expr e
    return (.none, several .targets (← commaSeparated first (expr e)))

def returnStatement (e : Nested) : ParseM Node :=
  build .return do
    discard bump
    return (.none, child? .value (← optional (testList (e.test true))))

/-- What a raise statement says behind its type: in some dialects a cause, in others an instance and
a traceback. -/
def raiseArguments (e : Nested) : ParseM (List (Label × Option Node)) := do
  let f ← features
  let cause ← if f.raiseFrom then announced .kwFrom (e.test true) else pure none
  if cause.isSome || !f.raiseWithArguments then return child? .cause cause
  let inst ← announced .comma (e.test true)
  let traceback ← if inst.isSome then announced .comma (e.test true) else pure none
  return child? .inst inst ++ child? .traceback traceback

def raiseStatement (e : Nested) : ParseM Node :=
  build .raise do
    discard bump
    match ← optional (e.test true) with
    | none => return (.none, [])
    | some type => return (.none, child .type type ++ (← raiseArguments e))

/-- A statement that lists names. -/
def namesStatement (kind : NodeKind) : ParseM Node :=
  build kind do
    discard bump
    let first ← name none
    return (.none, several .names (← separated .comma first (return false) (name none)))

def execStatement (e : Nested) : ParseM Node :=
  build .exec do
    discard bump
    let body ← expr e
    let globals ← announced .kwIn (e.test true)
    let locals ← if globals.isSome then announced .comma (e.test true) else pure none
    return (.none, child .body body ++ child? .globals globals ++ child? .locals locals)

def assertStatement (e : Nested) : ParseM Node :=
  build .assert do
    discard bump
    let test ← e.test true
    let message ← announced .comma (e.test true)
    return (.none, child .test test ++ child? .message message)

def yieldStatement (e : Nested) : ParseM Node :=
  build .expression do return (.none, child .value (← yieldExpression e))

/-! ### Imports -/

/-- What an import names, with the name it is given here. -/
def imported (path : ParseM (List Node)) : ParseM Node :=
  build .imported do
    let path ← path
    let localName ← announced .kwAs (name none)
    return (.none, several .name path ++ child? .localName localName)

def importStatement : ParseM Node :=
  build .import do
    discard bump
    let first ← imported dottedName
    return (.none, several .names (← separated .comma first (return false) (imported dottedName)))

/-- The points in front of a module name. An ellipsis counts for three. -/
def relativeLevel : ParseM Nat :=
  loop 0 fun level => do
    unless (← at? .dot) || (← at? .ellipsis) do return .done level
    if level = 0 && !(← features).relativeImports then
      complain .statementMalformed "Relative imports are not supported by this grammar"
    let cell ← bump
    return .yield (level + if cell.kind == .ellipsis then 3 else 1)

/-- The names behind the word `import`, in parentheses or not; a star stands for all. -/
def importedNames : ParseM (Bool × List Node) := do
  if ← eat .star then return (true, [])
  let item := imported (return [← name none])
  let inParentheses ← eat .leftParen
  let first ← item
  let names ← separated .comma first (return inParentheses && (← at? .rightParen)) item
  if inParentheses then discard <| expectCloser .rightParen none
  return (false, names)

def importFromStatement : ParseM Node :=
  build .importFrom do
    discard bump
    let level ← relativeLevel
    let path ← if level = 0 || (← at? .name) then dottedName else pure []
    unless ← eat .kwImport do
      complain .statementMalformed "Expected 'import'"
      return (.importFrom level false, several .path path)
    let (all, names) ← importedNames
    return (.importFrom level all, several .path path ++ several .names names)

/-! ### Lines of statements -/

/-- The statement of a form. -/
def simpleForm (e : Nested) : SimpleForm → ParseM Node
  | .pass => wordStatement .pass
  | .break => wordStatement .break
  | .continue => wordStatement .continue
  | .return => returnStatement e
  | .raise => raiseStatement e
  | .global => namesStatement .global
  | .nonlocal => namesStatement .nonlocal
  | .delete => deleteStatement e
  | .importName => importStatement
  | .importFrom => importFromStatement
  | .assert => assertStatement e
  | .yield => yieldStatement e
  | .print => printStatement e
  | .exec => execStatement e

def canStartSimpleStatement : ParseM Bool := do
  let p ← get
  return (p.dialect.simpleForm? p.cell.kind).isSome || startsExpression p.cell.kind

def smallStatement (e : Nested) : ParseM Node := do
  let p ← get
  match p.dialect.simpleForm? p.cell.kind with
  | some form => simpleForm e form
  | none => expressionStatement e

/-- Gives the rest of the line to a node that should have ended with it. -/
def attachToLineEnd (node : Node) : ParseM Node :=
  loop node fun node => do
    if ← atSet? TokenKind.isLineEnd then return .done node
    return .yield (← attach node (← bump))

/-- Ends the line of a node. If it goes on, that is an error, and the rest belongs to the node. -/
def endLine (node : Node) (isEnd : TokenKind → Bool) (construct : String) : ParseM Node := do
  let node ←
    if ← atSet? isEnd then pure node
    else
      let found ← describeCurrent
      complain .newlineExpected s!"Expected end of {construct}, found {found}"
      attachToLineEnd node
  return (← eatInto node .newline).1

/-- A line of statements with semicolons between them. -/
def simpleStatement (e : Nested) : ParseM (List Node) := do
  let nodes ← loop #[] fun nodes => do
    let node ← smallStatement e
    let (node, semicolon) ← eatInto node .semicolon
    if semicolon.isSome && (← canStartSimpleStatement) then return .yield (nodes.push node)
    return .done (nodes.push node)
  match nodes.back? with
  | none => return []
  | some last => return nodes.pop.toList ++ [← endLine last TokenKind.isLineEnd "statement"]

end TolerantParser.Parser
