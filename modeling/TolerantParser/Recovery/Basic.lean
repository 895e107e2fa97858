import TolerantParser.Recovery.Engine

/-!
Repairs. Each kind of error has one: go on at the end of the block, put in a missing name, go on at
the closing bracket, fold an empty block away, or leave it to the production that found the error.

Embeds `RecoveryEngine.recover` with `_trace`, and its handlers `_continue_without_indent`, `_fold_empty_suite`,
`_resync_at_dedent`, `_synthesize_name`, `_scan_to_closer` and `_record_only`. The two that search walk with the
cursor, and `search` takes it back if they find nothing.
-/

namespace TolerantParser

/-- What a repair did. `skipped` are the tokens it went over, which the node under construction is
to own; `resumed` tells that the cursor is where the search was to end, `emptySuite` that the block
is to be left out, and `escalate` that the enclosing statement is to stop as well. -/
structure Outcome where
  error : ParseError
  skipped : List Cell
  synthetic : Option Cell
  emptySuite : Bool
  escalate : Bool
  resumed : Bool
  deriving Repr

namespace Outcome

/-- Nothing was done but recording the error. -/
def recorded (error : ParseError) : Outcome :=
  { error, skipped := [], synthetic := none, emptySuite := false, escalate := false, resumed := false }

end Outcome

namespace TokenStream

/-- Searches for the end of the block the cursor is in, looking at so many tokens. `level` counts
blocks opened on the way and `passed` holds the tokens gone over, the last first. -/
def searchDedent (level : Nat) (passed : List Cell) : Nat → StreamM (Option (List Cell))
  | 0 => return none
  | budget + 1 => do
    let cell := (← get).current
    match cell.kind with
    | .endOfFile => return none
    | .dedent =>
      if level = 0 then return some passed.reverse
      discard forwardSignificant
      searchDedent (level - 1) (cell :: passed) budget
    | .indent =>
      discard forwardSignificant
      searchDedent (level + 1) (cell :: passed) budget
    | _ =>
      discard forwardSignificant
      searchDedent level (cell :: passed) budget

/-- Searches the logical line for a closing bracket that is wanted and not inside brackets opened on
the way; `depth` counts those. The last argument bounds the walk; to outlast it is a fault. -/
def searchCloser (wanted : List TokenKind) (depth : Nat) (passed : List Cell) :
    Nat → StreamM (Option (List Cell))
  | 0 => throw .boundExceeded
  | bound + 1 => do
    let cell := (← get).current
    if cell.kind == .newline || cell.kind == .endOfFile then return none
    if depth = 0 && wanted.contains cell.kind then return some passed.reverse
    let depth :=
      if cell.kind.isOpening then depth + 1 else if cell.kind.isClosing then depth - 1 else depth
    discard forwardSignificant
    searchCloser wanted depth (cell :: passed) bound

/-- Makes a search and stays where it ends; the cursor goes back if nothing was found. -/
def search (steps : StreamM (Option (List Cell))) : StreamM (Option (List Cell)) := do
  let home := (← get).current.index
  let found ← orReturn steps
  if found.isNone then modify (·.seek home)
  return found

/-- Puts a missing name in at the cursor. Comments in front of the cursor stay in front of it. -/
def insertMissingName : StreamM Cell := insertHere .name missingName

end TokenStream

namespace Engine

/-- The repair for an error of each kind. -/
def repair (error : ParseError) (closers : List TokenKind) : EngineM Outcome := do
  match error.kind with
  | .emptySuite => return { Outcome.recorded error with emptySuite := true }
  | .dedentExpected =>
    let budget := (← get).options.dedentBudget
    match ← onStream (TokenStream.search (TokenStream.searchDedent 0 [] budget)) with
    | some skipped => return { Outcome.recorded error with skipped, resumed := true }
    | none => return { Outcome.recorded error with escalate := true }
  | .nameExpected =>
    let cell ← onStream TokenStream.insertMissingName
    return { Outcome.recorded error with synthetic := some cell }
  | .unmatchedBracket =>
    let wanted := if closers.isEmpty then [.rightParen] else closers
    let bound := (← get).stream.total + 1
    match ← onStream (TokenStream.search (TokenStream.searchCloser wanted 0 [] bound)) with
    | some skipped => return { Outcome.recorded error with skipped, resumed := true }
    | none => return Outcome.recorded error
  | _ => return Outcome.recorded error

private def yesNo (b : Bool) : String := if b then "True" else "False"

/-- The line that the trace holds for a repair, with the tokens around the error. -/
def traceLine (o : Outcome) (before after : Option Cell) : String :=
  let cell := o.error.cell
  let shown := fun (neighbour : Option Cell) => quotedOrNone (neighbour.map (·.text))
  s!"recovered {o.error.kind.word} at {cell.first.line}:{cell.first.column}: {o.error.message}" ++
  s!" | context {shown before} [{quoted cell.text}] {shown after}" ++
  s!" | skipped={o.skipped.length} synthetic={yesNo o.synthetic.isSome}" ++
  s!" empty_suite={yesNo o.emptySuite} escalate={yesNo o.escalate}"

/-- Adds a repair to the trace. -/
def trace (o : Outcome) : EngineM Unit := do
  let index := o.error.cell.index
  let before := (← get).stream.preceding? index
  let after ← onStream (TokenStream.following? index)
  modify fun e => { e with log := e.log.push (traceLine o before after) }

/-- Records an error at the cursor and repairs it. -/
def recover (kind : ErrorKind) (message : Option String) (closers : List TokenKind) :
    EngineM Outcome := do
  let error ← record kind message none
  let outcome ← repair error closers
  if (← get).options.trace then trace outcome
  return outcome

end Engine

end TolerantParser
