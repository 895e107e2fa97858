import TolerantParser.Stream.Basic

/-!
The store of a token stream: an arena of slots that is only ever added to, and links that join the slots into a
document. A token is known by its slot; going back is to set the cursor.

Embeds `TokenStream` and `LazyTokenStream` (`_prime`) with `_pull`, `_next_index`, `_skip_comments`, `advance`, `peek`,
`rewind`, `rewind_to`, `next_token`, `previous_token`, `insert_synthetic`, `_synthetic`, `_link_after`, `iter_tokens`
and `finish`. A link that leads nowhere is `none`, and `supply` are the tokens that the lexer has still to give.
-/

namespace TolerantParser

/-- A token in its slot, the slots of the tokens next to it, and its place once the document has been put in order. -/
structure Slot where
  cell : Cell
  prev : Option Nat := none
  next : Option Nat := none
  order : Option Nat := none
  deriving DecidableEq, Repr

/-- Slots and the links that join them. `last` is the slot behind which the next token of the supply is linked in, and
`exhausted` tells that the end of the file has been taken from the supply. -/
structure Arena where
  serial : Nat
  dialect : Dialect
  supply : List Token
  slots : Array Slot
  head : Option Nat
  last : Option Nat
  exhausted : Bool
  current : Nat
  deriving Repr

/-- Steps on an arena. A refused step keeps what was done before. -/
abbrev ArenaM := EStateM Fault Arena

/-- Changes a slot, if there is one to be changed. -/
def relink (slots : Array Slot) (index? : Option Nat) (change : Slot → Slot) : Array Slot :=
  match index? with
  | none => slots
  | some index => slots.modify index change

namespace Arena

/-- A bound on the number of tokens that any walk along the links can meet. -/
def bound (a : Arena) : Nat := a.slots.size + a.supply.length + 1

def slot (index : Nat) : ArenaM Slot := fun a =>
  match a.slots[index]? with
  | some slot => .ok slot a
  | none => .error (.noSlot index) a

/-! ### Reading -/

/-- Takes a token from the supply and links it in behind the last one; `false` if there is none to be had. A token that
the dialect does not define is dropped. -/
def pull : ArenaM Bool := fun a =>
  if a.exhausted then .ok false a
  else
    match a.supply with
    | [] => .ok false a
    | token :: supply =>
      match a.dialect.require token.kind with
      | .error fault => .error fault { a with supply }
      | .ok _ =>
        let index := a.slots.size
        let slots := relink a.slots a.last fun slot => { slot with next := some index }
        .ok true { a with
          supply, slots := slots.push { cell := ⟨token, index⟩, prev := a.last }
          head := if a.last.isNone then some index else a.head
          last := some index, exhausted := token.kind == .endOfFile }

/-- The slot that a slot is linked to. Behind the last one, a token is taken from the supply first. -/
def nextIndex (index : Nat) : ArenaM (Option Nat) := do
  let here ← slot index
  let a ← get
  if here.next.isNone && !a.exhausted && a.last == some index then discard pull
  return (← slot index).next

/-- The first slot from one on that holds no comment. -/
def skipComments (index : Nat) : ArenaM Nat := do
  walk (← get).bound index
where
  walk : Nat → Nat → ArenaM Nat
    | 0, _ => throw .boundExceeded
    | bound + 1, index => do
      unless (← slot index).cell.isComment do return index
      match ← nextIndex index with
      | some next => walk bound next
      | none => return index

/-- The first slot behind one that holds no comment, or the one itself if nothing stands behind it. -/
def nextSignificant (index : Nat) : ArenaM Nat := do
  match ← nextIndex index with
  | some next => skipComments next
  | none => return index

/-! ### The cursor -/

def moveTo (index : Nat) : ArenaM Unit := modify fun a => { a with current := index }

/-- Consumes the token at the cursor. The end of the file is not consumed. -/
def advance : ArenaM Nat := do
  let index := (← get).current
  unless (← slot index).cell.kind == .endOfFile do
    moveTo (← nextSignificant index)
  return index

/-- The slot so many steps on, comments not counted, but none past the end of the file. -/
def peek (count : Nat) : ArenaM Nat := do
  walk count (← get).current
where
  walk : Nat → Nat → ArenaM Nat
    | 0, index => return index
    | count + 1, index => do
      if (← slot index).cell.kind == .endOfFile then return index
      walk count (← nextSignificant index)

/-- Puts the cursor on a token of the arena numbered `serial`, or behind the comments there. -/
def rewindTo (serial : Nat) (cell : Cell) : ArenaM Unit := do
  let a ← get
  if serial != a.serial || a.slots.size ≤ cell.index then throw (.foreignToken cell.toToken)
  moveTo (← skipComments cell.index)

/-- The slot that a slot is linked back to. -/
def previousIndex (index : Nat) : ArenaM (Option Nat) := return (← slot index).prev

/-! ### Putting tokens in -/

/-- Gives an empty token a slot of its own. It is not linked yet. -/
def synthetic (kind : TokenKind) (text : String) (following : Cell) : ArenaM Nat := fun a =>
  match a.dialect.require kind with
  | .error fault => .error fault a
  | .ok _ =>
    let index := a.slots.size
    .ok index { a with slots := a.slots.push { cell := TokenStream.placeholder following kind text index } }

/-- Links a slot in directly after another one, or at the head. -/
def linkAfter (after : Option Nat) (index : Nat) (a : Arena) : Arena :=
  let next := match after with
    | none => a.head
    | some other => a.slots[other]?.bind Slot.next
  let slots := relink a.slots (some index) fun slot => { slot with prev := after, next }
  let slots := relink slots next fun slot => { slot with prev := some index }
  { a with
    slots := relink slots after fun slot => { slot with next := some index }
    head := if after.isNone then some index else a.head
    last := if next.isNone then some index else a.last }

/-- The slot in front of which a token is put in. -/
def followingIndex : Option Nat → ArenaM (Option Nat)
  | none => return (← get).head
  | some index => nextIndex index

/-- Takes its lead from a token. -/
def dropLead (index : Nat) (a : Arena) : Arena :=
  { a with slots := relink a.slots (some index) fun slot => { slot with cell := { slot.cell with lead := "" } } }

/-- Puts an empty token in directly after a slot, or at the head. It takes over the lead of the token it stands in
front of. -/
def insertSynthetic (after : Option Nat) (kind : TokenKind) (text : String) : ArenaM Nat := do
  match ← followingIndex after with
  | none => throw .pastEnd
  | some following =>
    let index ← synthetic kind text (← slot following).cell
    modify (dropLead following)
    modify (linkAfter after index)
    return index

/-! ### The whole document -/

/-- The slots in document order, all of the supply taken. -/
def iterTokens : ArenaM (List Nat) := do
  let a ← get
  walk a.bound a.head
where
  walk : Nat → Option Nat → ArenaM (List Nat)
    | _, none => return []
    | 0, some _ => throw .boundExceeded
    | bound + 1, some index => do
      let next ← nextIndex index
      return index :: (← walk bound next)

/-- Notes in each slot of a path its place on it. -/
def noteOrder (slots : Array Slot) (place : Nat) : List Nat → Array Slot
  | [] => slots
  | index :: path =>
    noteOrder (slots.modify index fun slot => { slot with order := some place }) (place + 1) path

/-- The slots in document order, each of which is told its place. -/
def finish : ArenaM (List Nat) := do
  let path ← iterTokens
  modify fun a => { a with slots := noteOrder a.slots 0 path }
  return path

/-! ### A fresh arena -/

/-- Takes the whole supply. -/
def pullAll : Nat → ArenaM Unit
  | 0 => throw .boundExceeded
  | bound + 1 => do
    if ← pull then pullAll bound

/-- No slots, and all tokens in the supply. -/
def empty (serial : Nat) (d : Dialect) (tokens : List Token) : Arena :=
  { serial, dialect := d, supply := tokens, slots := #[], head := none, last := none, exhausted := false, current := 0 }

/-- Takes the first token from the supply, and unless tokens are read on demand all others. -/
def prime (onDemand : Bool) : ArenaM Unit := do
  if onDemand then discard pull else pullAll (← get).bound

/-- An arena over tokens, with the cursor on the first that is not a comment. -/
def ofTokens (serial : Nat) (d : Dialect) (onDemand : Bool) (tokens : List Token) : Except Fault Arena :=
  match (do prime onDemand
            match (← get).head with
            | none => throw .noTokens
            | some head => moveTo (← skipComments head) : ArenaM Unit) (empty serial d tokens) with
  | .ok _ a => .ok a
  | .error fault _ => .error fault

end Arena

end TolerantParser
