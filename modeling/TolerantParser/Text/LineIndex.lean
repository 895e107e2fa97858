/-!
Lines of a text. A line feed, a carriage return with the line feed after it, and a carriage return
alone each end a line; no other character does. Lines and columns count from one.

Embeds `LineIndex` with `line_col`.
-/

namespace TolerantParser

/-- A place in a text, by line and column. -/
structure Position where
  line : Nat
  column : Nat
  deriving DecidableEq, Repr, Inhabited

namespace Position

/-- Document order: by line, then by column. -/
protected def lt (p q : Position) : Bool :=
  p.line < q.line || (p.line == q.line && p.column < q.column)

protected def le (p q : Position) : Bool := !q.lt p

def min (p q : Position) : Position := if q.lt p then q else p

def max (p q : Position) : Position := if p.lt q then q else p

end Position

/-- The offsets at which lines start, after the first line, for a text read from `offset` on. -/
def lineStarts (offset : Nat) : List Char → List Nat
  | [] => []
  | '\r' :: '\n' :: rest => (offset + 2) :: lineStarts (offset + 2) rest
  | '\r' :: rest => (offset + 1) :: lineStarts (offset + 1) rest
  | '\n' :: rest => (offset + 1) :: lineStarts (offset + 1) rest
  | _ :: rest => lineStarts (offset + 1) rest

/-- The start of every line of a text of `length` characters. -/
structure LineIndex where
  starts : Array Nat
  length : Nat
  deriving Repr

/-- An offset outside of the text. -/
structure OffsetError where
  offset : Int
  length : Nat
  deriving DecidableEq, Repr

def OffsetError.message (e : OffsetError) : String :=
  s!"Offset {e.offset} outside of text (length {e.length})"

namespace LineIndex

def ofChars (text : List Char) : LineIndex :=
  ⟨(0 :: lineStarts 0 text).toArray, text.length⟩

/-- The number of lines between `low` and `high` that start at or before `offset`, found by
halving: lines below `low` start there, lines from `high` on start later. -/
def startedLines (starts : Array Nat) (offset low high : Nat) : Nat :=
  if low < high then
    let middle := (low + high) / 2
    if starts.getD middle 0 ≤ offset then startedLines starts offset (middle + 1) high
    else startedLines starts offset low middle
  else low
  termination_by high - low

/-- The place of an offset that lies in the text. -/
def position (index : LineIndex) (offset : Nat) : Position :=
  let line := startedLines index.starts offset 0 index.starts.size
  ⟨line, offset - index.starts.getD (line - 1) 0 + 1⟩

def position? (index : LineIndex) (offset : Int) : Except OffsetError Position :=
  if offset < 0 ∨ offset > index.length then .error ⟨offset, index.length⟩
  else .ok (index.position offset.toNat)

end LineIndex

end TolerantParser
