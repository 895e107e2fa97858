import TolerantParser.Recovery.Basic
import TolerantParser.Stream.Arena

/-!
A token stream and its recovery engine, worked by hand: one step at a time, with numbered marks to
come back to. The steps of the stream are taken on its arena as well, and the arena tells what they give.
-/

namespace TolerantParser

/-- A step on a token stream or its recovery engine. Tokens are named by their numbers. -/
inductive StreamStep where
  | advance
  | advanceTo (text : String)
  | peek (count : Nat)
  | peekKind (count : Nat)
  | mark
  | rewind (mark : Nat)
  | rewindTo (token : Nat)
  | rewindForeign
  | next (token : Nat)
  | previous (token : Nat)
  | following (token : Nat)
  | preceding (token : Nat)
  | insert (after : Option Nat) (kind : TokenKind) (text : String)
  | iterate
  | finish
  | record (kind : ErrorKind) (message : Option String) (token : Option Nat)
  | recover (kind : ErrorKind) (message : Option String) (closers : List TokenKind)
  | truncate (length : Int)
  | errors
  | firstError
  | source
  deriving Repr

/-- What a step gives. -/
inductive StreamReply where
  | nothing
  | cell (cell : Option Cell)
  | kind (kind : TokenKind)
  | position (index : Nat)
  | indices (indices : List Nat)
  | linked (slot : Slot)
  | document (slots : List Slot)
  | error (error : ParseError)
  | outcome (outcome : Outcome)
  | texts (texts : List String)
  | text (text : Option String)
  deriving Repr

/-- The engine at work, the arena of its stream, the marks taken so far, and the text and tokens it was started with. -/
structure StreamBench where
  engine : Engine
  arena : Arena
  marks : Array Nat
  source : String
  supply : List Token
  deriving Repr

namespace StreamBench

def start (d : Dialect) (options : ParseOptions) (source : String) (supply : List Token) :
    Except Fault StreamBench := do
  let stream ← TokenStream.ofTokens 0 d options.onDemand supply
  let arena ← Arena.ofTokens 0 d options.onDemand supply
  return { engine := .ofStream stream options, arena, marks := #[], source, supply }

/-- How many of `size` errors a length keeps. One below zero counts back from their end. -/
def kept (length : Int) (size : Nat) : Nat :=
  if length < 0 then (size + length).toNat else length.toNat

/-- Takes steps on the arena and the same ones on the stream. -/
private def onBoth {α β : Type} (steps : ArenaM α) (same : StreamM β) : EStateM Fault StreamBench α := fun b =>
  let engine := match Engine.onStream same b.engine with
    | .ok _ engine => engine
    | .error _ engine => engine
  match steps b.arena with
  | .ok value arena => .ok value { b with engine, arena }
  | .error fault arena => .error fault { b with engine, arena }

/-- The arena with as much read as the stream and with its cursor. -/
private def keepUp (t : TokenStream) (a : Arena) : Arena :=
  let read := (List.range (a.supply.length - t.unread.length)).foldl (fun a _ =>
    match Arena.pull a with
    | .ok _ a => a
    | .error _ a => a) a
  { read with current := t.current.index }

/-- Puts into the arena what the engine has put into the stream. -/
private def putIn (t : TokenStream) (cell : Cell) (a : Arena) : Arena :=
  match Arena.insertSynthetic ((t.previous? cell.index).map (·.index)) cell.kind cell.text a with
  | .ok _ a => a
  | .error _ a => a

/-- Takes steps of the engine, and brings the arena to where they have brought the stream. -/
private def onEngine {α : Type} (steps : EngineM α) (added : α → Option Cell) : EStateM Fault StreamBench α := fun b =>
  match steps b.engine with
  | .ok value engine =>
    let arena := (added value).elim b.arena fun cell => putIn engine.stream cell b.arena
    .ok value { b with engine, arena := keepUp engine.stream arena }
  | .error fault engine => .error fault { b with engine, arena := keepUp engine.stream b.arena }

/-- The cell in a slot of the arena. -/
private def cellAt (index : Nat) : EStateM Fault StreamBench Cell := do
  return (← onBoth (Arena.slot index) (pure ())).cell

private def advance : EStateM Fault StreamBench Cell := do
  cellAt (← onBoth Arena.advance TokenStream.advance)

/-- Advances until the current text is the one given, or the file ends; the number bounds it. -/
private def advanceUntil (text : String) : Nat → EStateM Fault StreamBench Cell
  | 0 => throw .boundExceeded
  | bound + 1 => do
    let cell ← cellAt (← get).arena.current
    if cell.text == text || cell.kind == .endOfFile then return cell
    discard advance
    advanceUntil text bound

/-- Takes one step. A refused step keeps what was done before it was refused. -/
def run (step : StreamStep) : EStateM Fault StreamBench StreamReply := do
  let b ← get
  let stream := b.engine.stream
  match step with
  | .advance => return .cell (some (← advance))
  | .advanceTo text => return .cell (some (← advanceUntil text b.arena.bound))
  | .peek count => return .cell (some (← cellAt (← onBoth (Arena.peek count) (TokenStream.peek count))))
  | .peekKind count => return .kind (← cellAt (← onBoth (Arena.peek count) (TokenStream.peek count))).kind
  | .mark =>
    set { b with marks := b.marks.push b.arena.current }
    return .position b.arena.current
  | .rewind mark =>
    let index := b.marks.getD mark 0
    onBoth (Arena.moveTo index) (modify (·.seek index))
    return .nothing
  | .rewindTo token =>
    if let some slot := b.arena.slots[token]? then
      onBoth (Arena.rewindTo b.arena.serial slot.cell) (TokenStream.rewindTo stream.serial slot.cell)
    return .nothing
  | .rewindForeign =>
    match Arena.ofTokens (b.arena.serial + 1) b.arena.dialect b.engine.options.onDemand b.supply with
    | .ok other =>
      if let some slot := other.slots[other.current]? then
        onBoth (Arena.rewindTo other.serial slot.cell) (TokenStream.rewindTo other.serial slot.cell)
    | .error fault => throw fault
    return .nothing
  | .next token =>
    return .cell (← (← onBoth (Arena.nextIndex token) (TokenStream.next? token)).mapM cellAt)
  | .previous token => return .cell (← (← onBoth (Arena.previousIndex token) (pure ())).mapM cellAt)
  | .following token => return .cell (← onEngine (Engine.onStream (TokenStream.following? token)) fun _ => none)
  | .preceding token => return .cell (stream.preceding? token)
  | .insert after kind text =>
    let index ← onBoth (Arena.insertSynthetic after kind text) (TokenStream.insertAfter after kind text)
    return .linked (← onBoth (Arena.slot index) (pure ()))
  | .iterate => return .indices (← onBoth Arena.iterTokens TokenStream.finish)
  | .finish =>
    let path ← onBoth Arena.finish TokenStream.finish
    return .document (← path.mapM fun index => onBoth (Arena.slot index) (pure ()))
  | .record kind message token =>
    return .error (← onEngine (Engine.record kind message (token.bind stream.cell?)) fun _ => none)
  | .recover kind message closers =>
    return .outcome (← onEngine (Engine.recover kind message closers) (·.synthetic))
  | .truncate length =>
    onEngine (Engine.truncate (kept length b.engine.errors.size)) fun _ => none
    return .nothing
  | .errors => return .texts (b.engine.errors.toList.map (·.describe))
  | .firstError => return .text (b.engine.errors[0]?.map (·.describe))
  | .source => return .text (some b.source)

end StreamBench

end TolerantParser
