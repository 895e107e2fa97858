import TolerantParser.Parser.Statement.Simple

/-!
Blocks of statements, and the colon in front of them.

Embeds `ParsedSyntax`, `ParseNodeList.parse_list`, `parse_statement_list` with `is_at_list_end`, `_recover_statement`,
`parse_suite`, `_parse_block`, `_expect_colon` and `_parse_else_clause`.
-/

namespace TolerantParser

/-- What comes of looking for a statement: whether there was one, and the nodes it gave, which may be
several or none. -/
structure Parsed where
  present : Bool
  nodes : List Node

/-- The statements of a block. `failed` tells that its end was not found; the statement around it
then stops. -/
structure Suite where
  body : List Node
  failed : Bool

/-- The productions that statements lead back to: expressions, and statements one block further
in. -/
structure Inner where
  e : Nested
  statement : ParseM Parsed

namespace Parser

/-- Words that go on with a statement begun before. -/
def isClauseWord : TokenKind → Bool
  | .kwElse | .kwElif | .kwExcept | .kwFinally => true
  | _ => false

def isBlockEnd : TokenKind → Bool
  | .dedent | .endOfFile => true
  | _ => false

/-- Where a block that was not indented ends. -/
def endsUnindented (kind : TokenKind) : Bool := isBlockEnd kind || isClauseWord kind

/-- Goes on after a statement was looked for: skips a line that starts none. At the end of a block
there is nothing to go on with. -/
def recoverStatement (parsed : Parsed) : ParseM Bool := do
  if parsed.present then return true
  if ← atSet? isBlockEnd then return false
  let kind := if ← atSet? isClauseWord then .compoundMalformed else .statementMalformed
  let found ← describeCurrent
  complain kind s!"Unexpected {found}"
  skipLine
  return true

/-- Statements up to the end of the file, to a token that ends the list, or to one that repair does
not pass. -/
def statementList (inner : Inner) (stop : TokenKind → Bool) : ParseM (List Node) := do
  let (_, nodes) ← loop ((none, #[]) : Option Nat × Array Node) fun (last, nodes) => do
    if (← at? .endOfFile) || (← atSet? stop) then return .done (last, nodes)
    unless ← hasProgressed last do return .done (last, nodes)
    let here := (← get).position
    let parsed ← inner.statement
    let nodes := nodes ++ parsed.nodes.toArray
    if ← recoverStatement parsed then return .yield (some here, nodes)
    return .done (some here, nodes)
  return nodes.toList

/-- An indented block, behind the token that opened it. -/
def block (inner : Inner) : ParseM Suite := do
  let body ← statementList inner (· == .dedent)
  if ← eat .dedent then return ⟨body, false⟩
  let outcome ← recover .dedentExpected none []
  if outcome.escalate then return ⟨body, true⟩
  if outcome.resumed then discard bump
  return ⟨body, false⟩

/-- A block that is missing its indentation: the statements that follow, up to the end of the block
around it or a word that goes on with the statement. A block with nothing in it is left out. -/
def unindentedBlock (inner : Inner) : ParseM Suite := do
  let kind := if ← atSet? endsUnindented then .emptySuite else .indentExpected
  let outcome ← recover kind none []
  if outcome.emptySuite then return ⟨[], false⟩
  return ⟨← statementList inner endsUnindented, false⟩

/-- The block of a statement: on lines of its own, or on the line of its header. -/
def suite (inner : Inner) : ParseM Suite := do
  if ← eat .newline then
    if ← eat .indent then return ← block inner
    return ← unindentedBlock inner
  if ← canStartSimpleStatement then return ⟨← simpleStatement inner.e, false⟩
  let found ← describeCurrent
  complain .suiteMatchFailed s!"Expected a statement or an indented block, found {found}"
  return ⟨[], false⟩

/-- How many tokens stand in front of the next colon of the line, if there is one. -/
def colonDistance : ParseM (Option Nat) := do
  let (found, distance) ← loop (false, 0) fun (_, distance) => do
    let kind ← nth distance
    if kind == .colon then return .done (true, distance)
    if kind.isLineEnd || kind == .indent then return .done (false, distance)
    return .yield (false, distance + 1)
  return if found then some distance else none

/-- Consumes a number of tokens. -/
def bumpMany : Nat → ParseM Unit
  | 0 => return ()
  | count + 1 => do
    discard bump
    bumpMany count

/-- The colon behind a header. Tokens in front of it are passed over; without one in the line nothing
is. -/
def expectColon (construct : String) : ParseM Unit := do
  if ← eat .colon then return
  complain .compoundMalformed s!"Expected ':' after {construct}"
  if let some distance := (← colonDistance) then bumpMany (distance + 1)

/-- The block behind `else`, unless the block in front of it failed. -/
def elseClause (inner : Inner) (construct : String) (failed : Bool) : ParseM (List Node) := do
  if failed then return []
  unless ← eat .kwElse do return []
  expectColon s!"'else' in {construct}"
  return (← suite inner).body

end Parser

end TolerantParser
