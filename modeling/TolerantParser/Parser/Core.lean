import TolerantParser.Recovery.Basic
import TolerantParser.Tree.Span

/-!
The core of the parser: it consumes tokens, hands each to the innermost node under construction,
and records and repairs errors. Nodes under construction nest strictly.

Embeds `Parser` with `start`, `close_marker`, `collect`, `take`, `attach`, `bump`, `eat`, `eat_into`, `recover`,
`expect_closer`, `take_missing_name`, `skip_line`, `checkpoint`, `rewind` and `finish`, and `Marker` with `complete`,
`merge_into` and `abandon`.
-/

namespace TolerantParser

/-- A parse in progress. `collectors` hold the tokens of the nodes under construction, innermost
first; `position` counts the tokens consumed. -/
structure Parser where
  engine : Engine
  collectors : List (Array Cell)
  position : Nat
  deriving Repr

/-- Steps of a parse. A refused step keeps what was done before. -/
abbrev ParseM := EStateM Fault Parser

/-- A node under construction: how many are open around it, and the token it begins at. -/
structure Marker where
  depth : Nat
  anchor : Cell
  deriving DecidableEq, Repr

/-- A state of the parse to go back to. -/
structure Checkpoint where
  cursor : Nat
  errors : Nat
  markers : Nat
  collected : Nat
  position : Nat
  deriving DecidableEq, Repr

namespace Parser

def ofStream (stream : TokenStream) (options : ParseOptions) : Parser :=
  { engine := .ofStream stream options, collectors := [], position := 0 }

def stream (p : Parser) : TokenStream := p.engine.stream

def dialect (p : Parser) : Dialect := p.stream.dialect

/-- The token at the cursor. -/
def cell (p : Parser) : Cell := p.stream.current

def errors (p : Parser) : Array ParseError := p.engine.errors

/-- Takes steps on the recovery engine. -/
def onEngine {α : Type} (steps : EngineM α) : ParseM α := fun p =>
  match steps p.engine with
  | .ok value engine => .ok value { p with engine }
  | .error fault engine => .error fault { p with engine }

/-- Takes steps on the token stream. -/
def onStream {α : Type} (steps : StreamM α) : ParseM α := onEngine (Engine.onStream steps)

/-! ### Looking -/

/-- The kind of the token at the cursor. -/
def current : ParseM TokenKind := return (← get).cell.kind

def at? (kind : TokenKind) : ParseM Bool := return (← get).cell.kind == kind

def atSet? (accept : TokenKind → Bool) : ParseM Bool := return accept (← get).cell.kind

/-- The kind of the token so many steps on. -/
def nth (count : Nat) : ParseM TokenKind := return (← onStream (TokenStream.peek count)).kind

def features : ParseM Features := return (← get).dialect.features

/-! ### Nodes under construction -/

/-- Begins a node at the cursor. -/
def start : ParseM Marker := do
  let p ← get
  set { p with collectors := #[] :: p.collectors }
  return ⟨p.collectors.length, p.cell⟩

/-- Ends a node and gives the tokens it collected. Only the innermost node may be ended. -/
def close (marker : Marker) : ParseM (List Cell) := do
  let p ← get
  match p.collectors with
  | [] => throw .markersOutOfOrder
  | innermost :: outer =>
    if marker.depth != outer.length then throw .markersOutOfOrder
    set { p with collectors := outer }
    return innermost.toList

/-- Hands tokens to the innermost node. -/
def collect (cells : List Cell) : ParseM Unit :=
  modify fun p =>
    match p.collectors with
    | [] => p
    | innermost :: outer => { p with collectors := innermost.appendList cells :: outer }

/-- Hands over a token that was not consumed. -/
def take (cell : Cell) : ParseM Cell := do
  collect [cell]
  return cell

/-- Ends a node and makes it. -/
def complete (marker : Marker) (kind : NodeKind) (detail : Detail)
    (children : List (Label × Option Node)) : ParseM Node := do
  let tokens ← close marker
  return Node.make kind detail marker.anchor tokens (.ofList children)

/-- Ends a node and hands its tokens to one that has been made, whose span stays as it is. -/
def mergeInto (marker : Marker) (node : Node) : ParseM Node :=
  return node.addTokens (← close marker)

/-- Ends a node without making it; its tokens go to the node around it. -/
def abandon (marker : Marker) : ParseM Unit := do
  collect (← close marker)

/-- Takes a token from the innermost node: the last one, if it is the token, else the first that
is. -/
def uncollect (cell : Cell) (collected : Array Cell) : Option (Array Cell) :=
  if collected.back?.any (·.index == cell.index) then some collected.pop
  else if collected.any (·.index == cell.index) then
    some (collected.toList.eraseP (·.index == cell.index)).toArray
  else none

/-- Takes a token away from the innermost node under construction, which must have collected it. -/
def release (cell : Cell) : ParseM Unit := do
  let p ← get
  match p.collectors with
  | [] => throw .notCollected
  | innermost :: outer =>
    match uncollect cell innermost with
    | none => throw .notCollected
    | some rest => set { p with collectors := rest :: outer }

/-- Moves a token from the innermost node under construction to one that has been made. -/
def attach (node : Node) (cell : Cell) : ParseM Node := do
  release cell
  return node.addTokens [cell]

/-! ### Consuming -/

/-- Consumes the token at the cursor, unless the file ends there. -/
def bump : ParseM Cell := do
  let cell := (← get).cell
  if cell.kind == .endOfFile then return cell
  discard <| onStream TokenStream.advance
  collect [cell]
  modify fun p => { p with position := p.position + 1 }
  return cell

/-- Consumes a token of a kind if it is at the cursor. -/
def eat? (kind : TokenKind) : ParseM (Option Cell) := do
  if ← at? kind then return some (← bump)
  return none

/-- Consumes a token of a kind if it is at the cursor, and tells whether it was. -/
def eat (kind : TokenKind) : ParseM Bool := return (← eat? kind).isSome

/-- Consumes a token of a kind if it is at the cursor, and gives it to a node. -/
def eatInto (node : Node) (kind : TokenKind) : ParseM (Node × Option Cell) := do
  if ← at? kind then
    let cell ← bump
    return (← attach node cell, some cell)
  return (node, none)

/-! ### Errors -/

/-- Records and repairs an error. Tokens gone over belong to the innermost node. -/
def recover (kind : ErrorKind) (message : Option String) (closers : List TokenKind) :
    ParseM Outcome := do
  let outcome ← onEngine (Engine.recover kind message closers)
  unless outcome.skipped.isEmpty do
    collect outcome.skipped
    modify fun p => { p with position := p.position + outcome.skipped.length }
  return outcome

/-- Records an error for which nothing is to be repaired. -/
def complain (kind : ErrorKind) (message : String) : ParseM Unit :=
  discard <| recover kind (some message) []

/-- Consumes a closing bracket, going on to it if it is further on in the line. -/
def expectCloser (kind : TokenKind) (message : Option String) : ParseM (Option Cell) := do
  if ← at? kind then return some (← bump)
  let outcome ← recover .unmatchedBracket message [kind]
  if outcome.resumed then return some (← bump)
  return none

/-- Records that a name is missing and takes the one put in for it. -/
def takeMissingName (message : Option String) : ParseM Cell := do
  match (← recover .nameExpected message []).synthetic with
  | some cell => take cell
  | none => throw .noPlaceholder

/-! ### Repeating -/

/-- Repeats a step until it is done. More repetitions than the bound allows are a fault. -/
def iterate {α : Type} (body : α → ParseM (ForInStep α)) : Nat → α → ParseM α
  | 0, _ => throw .boundExceeded
  | bound + 1, value => do
    match ← body value with
    | .done value => return value
    | .yield value => iterate body bound value

/-- Repeats a step until it is done. Every step but the last consumes a token, and of the tokens put
in meanwhile at most one is met without another behind it, so twice the number of tokens bounds the
repetition. -/
def loop {α : Type} (init : α) (body : α → ParseM (ForInStep α)) : ParseM α := do
  iterate body (2 * ((← get).stream.total + 1)) init

/-- Consumes tokens up to the end of the logical line, handing each to the innermost node. -/
def skipToLineEnd : ParseM Unit :=
  loop () fun _ => do
    if ← atSet? TokenKind.isLineEnd then return .done ()
    discard bump
    return .yield ()

/-- Consumes tokens up to and with the end of the logical line. -/
def skipLine : ParseM Unit := do
  skipToLineEnd
  discard <| eat .newline

/-! ### Going back -/

def checkpoint : ParseM Checkpoint := do
  let p ← get
  return {
    cursor := p.cell.index, errors := p.errors.size, markers := p.collectors.length,
    collected := (p.collectors.head?.map Array.size).getD 0, position := p.position }

/-- Goes back to a checkpoint. Tokens put in since then stay. -/
def rewind (c : Checkpoint) : ParseM Unit := do
  onEngine do
    Engine.onStream (modify (·.seek c.cursor))
    Engine.truncate c.errors
  modify fun p =>
    let kept := p.collectors.drop (p.collectors.length - c.markers)
    { p with
      position := c.position
      collectors := match kept with
        | [] => []
        | innermost :: outer => innermost.take c.collected :: outer }

/-- Ends the parse. No node may be under construction. -/
def finish : ParseM (Array ParseError) := do
  let p ← get
  unless p.collectors.isEmpty do throw (.markersLeftOpen p.collectors.length)
  return p.errors

/-- Makes a node of what `body` consumes. -/
def build (kind : NodeKind) (body : ParseM (Detail × List (Label × Option Node))) : ParseM Node := do
  let marker ← start
  let (detail, children) ← body
  complete marker kind detail children

end Parser

end TolerantParser
