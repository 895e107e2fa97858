import TolerantParser.Workbench.Forest
import TolerantParser.Workbench.Productions

/-!
The parser worked by hand: one step at a time, with a stack of nodes under construction, numbered
nodes that have been made, and numbered checkpoints.
-/

namespace TolerantParser

/-- A step of the parser. Tokens, nodes and checkpoints are named by their numbers; a marker is the
one on top of the stack, which is then taken off, unless one is named. -/
inductive ParserStep where
  | start
  | complete (kind : NodeKind) (detail : Detail) (parts : List (Label × Option Nat))
      (marker : Option Nat)
  | merge (node : Nat) (marker : Option Nat)
  | abandon (marker : Option Nat)
  | bump
  | eat (kind : TokenKind)
  | eatInto (node : Nat) (kind : TokenKind)
  | attach (node token : Nat)
  | take (token : Nat)
  | at (kinds : List TokenKind)
  | nth (count : Nat)
  | recover (kind : ErrorKind) (message : Option String) (closers : List TokenKind)
  | expectCloser (kind : TokenKind) (message : Option String)
  | missingName (message : Option String)
  | skipLine
  | checkpoint
  | rewind (mark : Nat)
  | progress
  | finish
  | production (production : Production)
  | statementList (stop : List TokenKind)
  | parameters (stop : TokenKind) (hints : Bool)
  | node (node : Nat)
  deriving Repr

/-- What a step gives. -/
inductive ParserReply where
  | nothing
  | marker (depth : Nat) (anchor : Cell)
  | made (node : Node)
  | tree (node : Node)
  | cell (cell : Option Cell)
  | flags (flags : List Bool)
  | kind (kind : TokenKind)
  | outcome (outcome : Outcome)
  | checkpoint (checkpoint : Checkpoint)
  | flag (flag : Bool)
  | errors (errors : List String)
  | product (product : Product)
  | parameters (list : ParameterList)

/-- The parser at work. -/
structure ParserBench where
  parser : Parser
  markers : Array Marker
  forest : Forest
  checkpoints : Array Checkpoint
  progress : Option Nat

/-- Steps at the bench. A refused step keeps what was done before it was refused. -/
abbrev BenchM := EStateM Fault ParserBench

namespace ParserBench

def start (d : Dialect) (options : ParseOptions) (supply : List Token) : Except Fault ParserBench := do
  let stream ← TokenStream.ofTokens 0 d options.onDemand supply
  return { parser := .ofStream stream options, markers := #[], forest := #[], checkpoints := #[],
           progress := none }

/-- Takes steps of the parser. -/
def onParser {α : Type} (steps : ParseM α) : BenchM α := fun b =>
  match steps b.parser with
  | .ok value parser => .ok value { b with parser }
  | .error fault parser => .error fault { b with parser }

/-- The marker named, or the one on top of the stack, which is taken off. -/
def marker (named : Option Nat) : BenchM Marker := do
  let b ← get
  match named with
  | some number =>
    match b.markers[number]? with
    | some marker => return marker
    | none => throw .markersOutOfOrder
  | none =>
    match b.markers.back? with
    | some marker =>
      set { b with markers := b.markers.pop }
      return marker
    | none => throw .markersOutOfOrder

/-- Shows a node as it is now. -/
def showNode (number : Nat) : BenchM ParserReply := do
  match (← get).forest.get? number with
  | some node => return .tree node
  | none => return .nothing

/-- Keeps nodes that a production made. -/
def keep (nodes : List Node) : BenchM Unit :=
  modify fun b => { b with forest := b.forest ++ (nodes.map Plant.whole).toArray }

def addTokens (node : Nat) (cells : List Cell) : BenchM Unit :=
  modify fun b => { b with forest := b.forest.addTokens node cells }

/-- The token with a number, if it has been read. -/
def token? (number : Nat) : BenchM (Option Cell) := return (← get).parser.stream.cell? number

/-- Takes one step. -/
def run : ParserStep → BenchM ParserReply
  | .start => do
    let marker ← onParser Parser.start
    modify fun b => { b with markers := b.markers.push marker }
    return .marker marker.depth marker.anchor
  | .complete kind detail parts named => do
    let marker ← marker named
    let tokens ← onParser (Parser.close marker)
    modify fun b => { b with forest := b.forest.graft kind detail marker.anchor tokens parts }
    match (← get).forest.get? ((← get).forest.size - 1) with
    | some node => return .made node
    | none => return .nothing
  | .merge node named => do
    let marker ← marker named
    addTokens node (← onParser (Parser.close marker))
    showNode node
  | .abandon named => do
    let marker ← marker named
    onParser (Parser.abandon marker)
    return .nothing
  | .bump => return .cell (some (← onParser Parser.bump))
  | .eat kind => return .cell (← onParser (Parser.eat? kind))
  | .eatInto node kind => do
    unless ← onParser (Parser.at? kind) do return .cell none
    let cell ← onParser Parser.bump
    onParser (Parser.release cell)
    addTokens node [cell]
    return .cell (some cell)
  | .attach node token => do
    let some cell ← token? token | return .nothing
    onParser (Parser.release cell)
    addTokens node [cell]
    return .cell (some cell)
  | .take token => do
    let some cell ← token? token | return .nothing
    return .cell (some (← onParser (Parser.take cell)))
  | .at kinds => do
    let here ← onParser Parser.current
    return .flags (kinds.map (here == ·) ++ [kinds.contains here])
  | .nth count => return .kind (← onParser (Parser.nth count))
  | .recover kind message closers =>
    return .outcome (← onParser (Parser.recover kind message closers))
  | .expectCloser kind message => return .cell (← onParser (Parser.expectCloser kind message))
  | .missingName message => return .cell (some (← onParser (Parser.takeMissingName message)))
  | .skipLine => do
    onParser Parser.skipLine
    return .nothing
  | .checkpoint => do
    let checkpoint ← onParser Parser.checkpoint
    modify fun b => { b with checkpoints := b.checkpoints.push checkpoint }
    return .checkpoint checkpoint
  | .rewind mark => do
    let some checkpoint := (← get).checkpoints[mark]? | return .nothing
    onParser (Parser.rewind checkpoint)
    modify fun b => { b with markers := b.markers.take checkpoint.markers }
    return .nothing
  | .progress => do
    let progressed ← onParser (Parser.hasProgressed (← get).progress)
    modify fun b => { b with progress := some b.parser.position }
    return .flag progressed
  | .finish => return .errors ((← onParser Parser.finish).toList.map (·.describe))
  | .production production => do
    let product ← onParser (Parser.runProduction (Parser.full .usual) production)
    keep product.all
    return .product product
  | .statementList stop => do
    let nodes ← onParser (Parser.statementList (Parser.full .usual) stop.contains)
    keep nodes
    return .product (.nodes nodes)
  | .parameters stop hints =>
    return .parameters (← onParser (Parser.parameterList (Nested.full .usual) stop hints))
  | .node node => showNode node

end ParserBench

end TolerantParser
