import TolerantParser.Fault
import TolerantParser.Token.Cell

/-!
Token streams: the tokens of a document with a cursor among them, and the tokens not read yet. The
cursor rests on a token that is not a comment. Tokens are never taken out; repair puts new ones in.

The stream is kept as the tokens before the cursor, nearest first, the token at the cursor, and the
tokens behind it, so that `document` is the one view that moves leave alone. A move that needs a
token not read yet reads it; a token that the dialect does not define is dropped and is a fault.

Embeds what `TokenStream` does to its document and its cursor; the slots and links that it does it with are those of
the `Arena`.
-/

namespace TolerantParser

/-- A document with a cursor. `serial` tells streams over the same tokens apart, `size` is the
number of tokens read or put in so far and the number of the next one. -/
structure TokenStream where
  serial : Nat
  dialect : Dialect
  behind : List Cell
  current : Cell
  ahead : List Cell
  unread : List Token
  size : Nat
  deriving Repr

/-- Steps on a token stream. A refused step keeps the stream as far as it was read. -/
abbrev StreamM := EStateM Fault TokenStream

namespace TokenStream

/-- The tokens read so far and those put in, in document order. -/
def document (s : TokenStream) : List Cell := s.behind.reverse ++ s.current :: s.ahead

/-- A bound on the number of tokens that any walk over the stream can meet. -/
def total (s : TokenStream) : Nat := s.size + s.unread.length

/-! ### Moving -/

/-- Looks for a token among those before the cursor. -/
def seekBehind (index : Nat) (current : Cell) (ahead : List Cell) :
    List Cell → Option (List Cell × Cell × List Cell)
  | [] => none
  | cell :: behind =>
    if cell.index = index then some (behind, cell, current :: ahead)
    else seekBehind index cell (current :: ahead) behind

/-- Looks for a token among those behind the cursor. -/
def seekAhead (index : Nat) (behind : List Cell) (current : Cell) :
    List Cell → Option (List Cell × Cell × List Cell)
  | [] => none
  | cell :: ahead =>
    if cell.index = index then some (current :: behind, cell, ahead)
    else seekAhead index (current :: behind) cell ahead

/-- Puts the cursor on the token with a number, if there is one. -/
def seek (s : TokenStream) (index : Nat) : TokenStream :=
  if s.current.index = index then s
  else
    match (seekBehind index s.current s.ahead s.behind).or
        (seekAhead index s.behind s.current s.ahead) with
    | some (behind, current, ahead) => { s with behind, current, ahead }
    | none => s

/-- The token with a number. -/
def cell? (s : TokenStream) (index : Nat) : Option Cell :=
  s.document.find? (·.index == index)

/-- Puts the cursor on the first token of the document. -/
def rewindToFirst (s : TokenStream) : TokenStream :=
  match s.document with
  | [] => s
  | first :: rest => { s with behind := [], current := first, ahead := rest }

/-- Goes over one token, reading it if need be; `false` at the end of the document. -/
def forward : StreamM Bool := fun s =>
  match s.ahead with
  | cell :: ahead => .ok true { s with behind := s.current :: s.behind, current := cell, ahead }
  | [] =>
    match s.unread with
    | [] => .ok false s
    | token :: unread =>
      match s.dialect.require token.kind with
      | .error fault => .error fault { s with unread }
      | .ok _ =>
        .ok true { s with
          behind := s.current :: s.behind, current := ⟨token, s.size⟩, unread, size := s.size + 1 }

/-- Goes over the comments at the front of what was read. -/
def passComments (behind : List Cell) (current : Cell) :
    List Cell → List Cell × Cell × List Cell
  | [] => (behind, current, [])
  | next :: ahead =>
    if current.isComment then passComments (current :: behind) next ahead
    else (behind, current, next :: ahead)

/-- Reads on while the cursor, behind which nothing has been read, is on a comment. -/
def readPastComments (s : TokenStream) : List Token → EStateM.Result Fault TokenStream Unit
  | [] => .ok () { s with unread := [] }
  | token :: unread =>
    if s.current.isComment then
      match s.dialect.require token.kind with
      | .error fault => .error fault { s with unread }
      | .ok _ =>
        readPastComments { s with
          behind := s.current :: s.behind, current := ⟨token, s.size⟩, size := s.size + 1 } unread
    else .ok () { s with unread := token :: unread }

/-- Moves a cursor that is on a comment to the first token after it that is none. -/
def settle : StreamM Unit := fun s =>
  let (behind, current, ahead) := passComments s.behind s.current s.ahead
  let s := { s with behind, current, ahead }
  if ahead.isEmpty then s.readPastComments s.unread else .ok () s

/-- Takes steps and, should they be refused, puts the cursor back. -/
def orReturn {α : Type} (steps : StreamM α) : StreamM α := fun s =>
  match steps s with
  | .ok value s' => .ok value s'
  | .error fault s' => .error fault (s'.seek s.current.index)

/-- Takes steps to look around, and puts the cursor back. -/
def lookAround {α : Type} (steps : StreamM α) : StreamM α := fun s =>
  match steps s with
  | .ok value s' => .ok value (s'.seek s.current.index)
  | .error fault s' => .error fault (s'.seek s.current.index)

/-- Goes to the next token that is not a comment; `false` at the end of the document. -/
def forwardSignificant : StreamM Bool := do
  if ← forward then
    settle
    return true
  return false

/-- Consumes the token at the cursor. The end of the file is not consumed. -/
def advance : StreamM Cell := do
  let cell := (← get).current
  unless cell.kind == .endOfFile do
    discard <| orReturn forwardSignificant
  return cell

/-- The token so many steps on, comments not counted, but none past the end of the file. -/
def peek (count : Nat) : StreamM Cell := lookAround (walk count)
where
  walk : Nat → StreamM Cell
    | 0 => return (← get).current
    | count + 1 => do
      let cell := (← get).current
      if cell.kind == .endOfFile then return cell
      discard forwardSignificant
      walk count

/-- Puts the cursor on a token of the stream numbered `serial`, or behind the comments there. -/
def rewindTo (serial : Nat) (cell : Cell) : StreamM Unit := do
  let s ← get
  if serial != s.serial || s.size ≤ cell.index then throw (.foreignToken cell.toToken)
  orReturn do
    modify (·.seek cell.index)
    settle

/-! ### Neighbours -/

/-- The token directly after the one with a number. -/
def next? (index : Nat) : StreamM (Option Cell) := lookAround do
  modify (·.seek index)
  if ← forward then return some (← get).current
  return none

/-- The token directly before the one with a number. -/
def previous? (s : TokenStream) (index : Nat) : Option Cell := (s.seek index).behind.head?

/-- The first token after the one with a number that is not a comment. -/
def following? (index : Nat) : StreamM (Option Cell) := lookAround do
  modify (·.seek index)
  if ← forwardSignificant then return some (← get).current
  return none

/-- The last token before the one with a number that is not a comment. -/
def preceding? (s : TokenStream) (index : Nat) : Option Cell :=
  (s.seek index).behind.find? (!·.isComment)

/-! ### Putting tokens in -/

/-- An empty token to stand in front of `following`, whose lead it takes over. -/
def placeholder (following : Cell) (kind : TokenKind) (text : String) (index : Nat) : Cell :=
  { kind, text, lead := following.lead,
    range := ⟨following.range.start, following.range.start, by omega⟩,
    first := following.first, last := following.first, startsLine := following.startsLine,
    synthetic := true, index }

/-- Puts a token in at the cursor, in front of the token there. -/
def insertHere (kind : TokenKind) (text : String) : StreamM Cell := fun s =>
  match s.dialect.require kind with
  | .error fault => .error fault s
  | .ok _ =>
    let cell := placeholder s.current kind text s.size
    .ok cell { s with
      behind := cell :: s.behind, current := { s.current with lead := "" }, size := s.size + 1 }

/-- Puts a token in directly after the one with a number, or at the front. -/
def insertAfter (index? : Option Nat) (kind : TokenKind) (text : String) : StreamM Cell :=
  lookAround do
    match index? with
    | none => modify rewindToFirst
    | some index =>
      modify (·.seek index)
      unless ← forward do throw .pastEnd
    insertHere kind text

/-! ### Reading -/

/-- Reads all that has not been read. -/
def readAll : StreamM Unit := fun s =>
  let defined := s.unread.takeWhile fun token => s.dialect.defines token.kind
  let cells := (defined.zipIdx s.size).map fun (token, index) => (⟨token, index⟩ : Cell)
  let rest := s.unread.drop defined.length
  let s := { s with ahead := s.ahead ++ cells, size := s.size + cells.length, unread := rest.tail }
  match rest with
  | [] => .ok () s
  | token :: _ => .error (.undefinedKind token.kind s.dialect) s

/-- The whole document, all of it read. -/
def finish : StreamM (List Cell) := do
  readAll
  return (← get).document

/-- The tokens up to and with the first end of file. -/
def throughEnd : List Token → List Token
  | [] => []
  | token :: rest => if token.kind == .endOfFile then [token] else token :: throughEnd rest

/-- A stream over tokens, with the cursor on the first that is not a comment. Unless tokens are read
on demand, all are read at once. -/
def ofTokens (serial : Nat) (d : Dialect) (onDemand : Bool) (tokens : List Token) :
    Except Fault TokenStream :=
  match throughEnd tokens with
  | [] => .error .noTokens
  | token :: unread => do
    d.require token.kind
    let s : TokenStream :=
      { serial, dialect := d, behind := [], current := ⟨token, 0⟩, ahead := [], unread, size := 1 }
    match (do unless onDemand do readAll
              settle : StreamM Unit) s with
    | .ok _ s => .ok s
    | .error fault _ => .error fault

end TokenStream

end TolerantParser
