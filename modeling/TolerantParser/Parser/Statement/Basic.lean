import TolerantParser.Parser.Statement.Compound

/-!
Statements of any form, and whole documents. A statement that nests too deeply is given up: the
parse goes back to its start and skips the line.

Embeds `parse_statement`, `_parse_statement`, `_parse_unexpected_block` and `parse_file_input`.
-/

namespace TolerantParser

namespace Parser

/-- A block where none may start: its statements count as if they were not indented. -/
def unexpectedBlock (inner : Inner) : ParseM Parsed := do
  complain .statementMalformed "Unexpected indent"
  discard bump
  let nodes ← statementList inner (· == .dedent)
  discard <| eat .dedent
  return ⟨true, nodes⟩

/-- A statement, over the statements one block further in. -/
def anyStatement (inner : Inner) : ParseM Parsed := do
  if ← at? .indent then return ← unexpectedBlock inner
  let p ← get
  if let some form := p.dialect.compoundForm? p.cell.kind then
    return ⟨true, [← compoundForm inner form]⟩
  if ← canStartSimpleStatement then return ⟨true, ← simpleStatement inner.e⟩
  return ⟨false, []⟩

/-- Takes steps and, if they nest too deeply, others instead. -/
def orTooDeep {α : Type} (steps rescue : ParseM α) : ParseM α := fun p =>
  match steps p with
  | .error .tooDeep p => rescue p
  | result => result

/-- Gives a statement up that nests too deeply. -/
def abandonStatement (start : Checkpoint) : ParseM Parsed := do
  rewind start
  complain .statementMalformed "Statement is nested too deeply to parse"
  skipLine
  return ⟨true, []⟩

def guardedStatement (inner : Inner) : ParseM Parsed := do
  let start ← checkpoint
  orTooDeep (anyStatement inner) (abandonStatement start)

/-- A statement, where so many may stand in one another. -/
def statementAt (e : Nested) : Nat → ParseM Parsed
  | 0 => throw .tooDeep
  | depth + 1 => guardedStatement ⟨e, statementAt e depth⟩

/-- The productions that a document leads to. -/
def full (limits : Limits) : Inner := ⟨.full limits, statementAt (.full limits) (limits.block + 1)⟩

/-- The statements of a document. What stops them short of the end of the file is passed over. -/
def documentBody (inner : Inner) : ParseM (List Node) := do
  let body ← loop #[] fun body => do
    let body := body ++ (← statementList inner (· == .endOfFile)).toArray
    if ← at? .endOfFile then return .done body
    let found ← describeCurrent
    complain .endOfFileExpected s!"Unexpected {found} at module level"
    discard bump
    return .yield body
  return body.toList

/-- A whole document. The end of the file belongs to it. -/
def document (inner : Inner) : ParseM Node :=
  build .document do
    let body ← documentBody inner
    discard <| take (← get).cell
    return (.none, several .body body)

end Parser

end TolerantParser
