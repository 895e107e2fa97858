import TolerantParser.Proofs.Stream.Splicing

/-!
The arena of a stream is a document in good order, whatever use has been made of it: each number is the slot of one
token, the links from the head on meet every slot once and end at the last token read, links back undo links on, what
was cut from the text stands in the order of the text, and nothing of the text is lost (`Arena.Orderly`). A token that
is put in is linked in directly behind the one that was named, and a refusal changes no token and no link
(`Arena.Receives`).

The arena is used as the stream is, and tells the same (`Represents`): whatever use is made of both, the links of the
arena stand for the document of the stream.
-/

namespace TolerantParser

/-! ### What the links say -/

/-- The numbers met on a way of links, at most so many. -/
def followLinks (link : Nat → Option Nat) : Nat → Option Nat → List Nat
  | _, none => []
  | 0, _ => []
  | bound + 1, some index => index :: followLinks link bound (link index)

namespace Arena

def next? (a : Arena) (index : Nat) : Option Nat := a.slots[index]?.bind Slot.next

def prev? (a : Arena) (index : Nat) : Option Nat := a.slots[index]?.bind Slot.prev

/-- The numbers met on the way on from the head. Unless links go round, the way ends before its bound. -/
def trail (a : Arena) : List Nat := followLinks a.next? (a.slots.size + 1) a.head

/-- The tokens met on the way on from the head. -/
def document (a : Arena) : List Cell := a.trail.filterMap fun index => a.slots[index]?.map Slot.cell

/-- The slots are a document over what was cut from the text: each number is the slot of one token, the links on from
the head meet every slot exactly once and end at the last token read, links back undo links on, the tokens cut from the
text are in its order, and with those put in left out no character is lost or written twice. The cursor is on a token
that is no comment. -/
structure Orderly (lexed : List Token) (a : Arena) : Prop where
  slots : ∀ (index : Nat) (slot : Slot), a.slots[index]? = some slot → slot.cell.index = index
  trail : a.trail.Perm (List.range a.slots.size)
  ends : a.trail.getLast? = a.last ∧ a.last.bind a.next? = none ∧ a.head.bind a.prev? = none
  opposite : ∀ index other, a.next? index = some other ↔ a.prev? other = some index
  cursor : a.current ∈ a.trail ∧ ∀ slot : Slot, a.slots[a.current]? = some slot → slot.cell.kind ≠ .comment
  read : ∃ read, lexed = read ++ a.supply ∧ ofText (a.document.map Cell.toToken) = ofText read ∧
    sourceOf (a.document.map Cell.toToken) = sourceOf read ∧
    a.document.getLast?.map (·.toToken.bare) = read.getLast?.map Token.bare
  ended : (∃ cell ∈ a.document, cell.kind = .endOfFile ∧ cell.synthetic = false) → a.supply = []

/-- A token of the kind and with the text is linked in directly behind the one that was named, or at the head, and
directly in front of the one that followed, whose lead it has taken over. That one may have had to be read. No other
token is changed, and the cursor is on the token it was on. -/
def Puts (a : Arena) (after : Option Nat) (kind : TokenKind) (text : String) (index : Nat) (b : Arena) : Prop :=
  a.dialect.defines kind ∧ ∃ cell before following rest, cell.index = index ∧
    a.document <+: before ++ following :: rest ∧
    a.document.map Cell.toToken ++ a.supply = (before ++ following :: rest).map Cell.toToken ++ b.supply ∧
    before.getLast?.map Cell.index = after ∧ cell = TokenStream.placeholder following kind text index ∧
    b.document = before ++ cell :: { following with lead := "" } :: rest ∧
    b.prev? index = after ∧ b.next? index = some following.index ∧ b.current = a.current

/-- A token is refused behind the last one, or if the dialect does not define its kind. More may have been read, behind
what was the last token; no token, no other link and not the cursor has changed. -/
def Refuses (a : Arena) (after : Option Nat) (kind : TokenKind) (fault : Fault) (b : Arena) : Prop :=
  (fault = .pastEnd ∧ after = a.last ∧ a.supply = [] ∨
    fault = .undefinedKind kind a.dialect ∧ ¬ a.dialect.defines kind) ∧
  (∀ (index : Nat) (slot : Slot), a.slots[index]? = some slot → ∃ next, b.slots[index]? = some { slot with next } ∧
    (next = slot.next ∨ a.last = some index)) ∧
  a.document <+: b.document ∧
  a.document.map Cell.toToken ++ a.supply = b.document.map Cell.toToken ++ b.supply ∧ b.current = a.current

/-- A token that is to be put in behind any slot, or at the head, is put in or refused. -/
def Receives (a : Arena) : Prop :=
  ∀ (after : Option Nat) (kind : TokenKind) (text : String), (∀ number ∈ after, number < a.slots.size) →
    (∃ index b, insertSynthetic after kind text a = .ok index b ∧ a.Puts after kind text index b) ∨
      ∃ fault b, insertSynthetic after kind text a = .error fault b ∧ a.Refuses after kind fault b

variable {ordered : List Nat} {a b : Arena} {s t : TokenStream}

/-! ### An arena that stores a stream -/

theorem followLinks_of_segment {slots : Array Slot} {prev : Option Nat} {cells : List Cell} {bound : Nat}
    (segment : Segment slots ordered prev cells none) (enough : cells.length < bound) :
    followLinks (slots[·]?.bind Slot.next) bound (cells.head?.map Cell.index) = cells.map Cell.index := by
  induction cells generalizing prev bound with
  | nil => cases bound <;> rfl
  | cons cell rest ih =>
    cases bound with
    | zero => omega
    | succ bound =>
      obtain ⟨here, later⟩ := segment
      rw [Option.or_none] at here
      rw [List.head?_cons, Option.map_some, followLinks, here, Option.bind_some,
        ih later (by simpa using enough), List.map_cons]

namespace Stores

theorem trail (stores : a.Stores ordered s) : a.trail = s.document.map Cell.index := by
  rw [Arena.trail, stores.head]
  exact followLinks_of_segment stores.segment (by rw [stores.full, stores.size]; exact Nat.lt_succ_self _)

theorem slot_of_parts (stores : a.Stores ordered s) {before after : List Cell} {cell : Cell}
    (parts : s.document = before ++ cell :: after) :
    a.slots[cell.index]? = some ⟨cell, before.getLast?.map Cell.index, after.head?.map Cell.index,
      ordered.idxOf? cell.index⟩ := by
  have here := (parts ▸ stores.segment).slot
  rwa [Option.or_none, Option.or_none] at here

/-- What is in the slot of a token. -/
theorem slot_of_mem (stores : a.Stores ordered s) {cell : Cell} (member : cell ∈ s.document) :
    ∃ slot, a.slots[cell.index]? = some slot ∧ slot.cell = cell ∧ slot.order = ordered.idxOf? cell.index := by
  obtain ⟨before, after, parts⟩ := List.append_of_mem member
  exact ⟨_, stores.slot_of_parts parts, rfl, rfl⟩

/-- As many numbers as tokens, all of them different and below the next one, are the slots. -/
theorem numbers (stores : a.Stores ordered s) : (s.document.map Cell.index).Perm (List.range s.size) := by
  refine (List.subperm_of_subset stores.numbered.nodup fun number listed => ?_).perm_of_length_le
    (by simp [stores.full])
  obtain ⟨cell, member, rfl⟩ := List.mem_map.1 listed
  exact List.mem_range.2 (stores.numbered.below cell member)

/-- Every slot is that of a token. -/
theorem parts_of_slot (stores : a.Stores ordered s) {index : Nat} {slot : Slot} (here : a.slots[index]? = some slot) :
    ∃ before cell after, s.document = before ++ cell :: after ∧ cell.index = index ∧
      slot = ⟨cell, before.getLast?.map Cell.index, after.head?.map Cell.index, ordered.idxOf? index⟩ := by
  have within : index < s.size := by
    rw [← stores.size]
    exact (Array.getElem?_eq_some_iff.1 here).1
  have listed := stores.numbers.mem_iff.2 (List.mem_range.2 within)
  obtain ⟨cell, member, rfl⟩ := List.mem_map.1 listed
  obtain ⟨before, after, parts⟩ := List.append_of_mem member
  exact ⟨before, cell, after, parts, rfl, Option.some.inj (here.symm.trans (stores.slot_of_parts parts))⟩

theorem document (stores : a.Stores ordered s) : a.document = s.document := by
  have found : ∀ cell ∈ s.document, a.slots[cell.index]?.map Slot.cell = some cell := fun cell member => by
    obtain ⟨slot, here, same, -⟩ := stores.slot_of_mem member
    rw [here, Option.map_some, same]
  rw [Arena.document, stores.trail, List.filterMap_map]
  exact (List.filterMap_congr found).trans List.filterMap_some

theorem next?_of_parts (stores : a.Stores ordered s) {before after : List Cell} {cell : Cell}
    (parts : s.document = before ++ cell :: after) : a.next? cell.index = after.head?.map Cell.index := by
  rw [Arena.next?, stores.slot_of_parts parts, Option.bind_some]

theorem prev?_of_parts (stores : a.Stores ordered s) {before after : List Cell} {cell : Cell}
    (parts : s.document = before ++ cell :: after) : a.prev? cell.index = before.getLast?.map Cell.index := by
  rw [Arena.prev?, stores.slot_of_parts parts, Option.bind_some]

/-- Links back undo links on. -/
theorem opposite (stores : a.Stores ordered s) (index other : Nat) :
    a.next? index = some other ↔ a.prev? other = some index := by
  constructor
  · intro goes
    obtain ⟨slot, here, -⟩ := Option.bind_eq_some_iff.1 goes
    obtain ⟨before, cell, after, parts, rfl, -⟩ := stores.parts_of_slot here
    rw [stores.next?_of_parts parts, Option.map_eq_some_iff] at goes
    obtain ⟨following, first, rfl⟩ := goes
    obtain ⟨rest, rfl⟩ := List.head?_eq_some_iff.1 first
    have later : s.document = (before ++ [cell]) ++ following :: rest := by
      rw [parts]
      simp
    rw [stores.prev?_of_parts later, List.getLast?_concat]
    rfl
  · intro goes
    obtain ⟨slot, here, -⟩ := Option.bind_eq_some_iff.1 goes
    obtain ⟨before, cell, after, parts, rfl, -⟩ := stores.parts_of_slot here
    rw [stores.prev?_of_parts parts, Option.map_eq_some_iff] at goes
    obtain ⟨previous, last, rfl⟩ := goes
    obtain ⟨front, rfl⟩ := List.getLast?_eq_some_iff.1 last
    have earlier : s.document = front ++ previous :: cell :: after := by
      rw [parts]
      simp
    rw [stores.next?_of_parts earlier]
    rfl

/-- The way on ends at the last slot, and the way back at the head. -/
theorem ends (stores : a.Stores ordered s) :
    a.trail.getLast? = a.last ∧ a.last.bind a.next? = none ∧ a.head.bind a.prev? = none := by
  refine ⟨by rw [stores.trail, stores.last, List.getLast?_map], ?_, ?_⟩
  · rw [stores.last]
    cases final : s.document.getLast? with
    | none => rfl
    | some cell =>
      obtain ⟨before, parts⟩ := List.getLast?_eq_some_iff.1 final
      exact stores.next?_of_parts parts
  · rw [stores.head]
    cases leads : s.document.head? with
    | none => rfl
    | some cell =>
      obtain ⟨rest, parts⟩ := List.head?_eq_some_iff.1 leads
      have leading : s.document = [] ++ cell :: rest := parts
      exact stores.prev?_of_parts leading

/-- Reading on changes the link of the last slot only. -/
theorem slots_of_gone (stores : a.Stores ordered s) (gone : Gone ordered a s b t) {index : Nat} {slot : Slot}
    (here : a.slots[index]? = some slot) :
    ∃ next, b.slots[index]? = some { slot with next } ∧ (next = slot.next ∨ a.last = some index) := by
  obtain ⟨before, cell, after, parts, rfl, rfl⟩ := stores.parts_of_slot here
  obtain ⟨more, grown⟩ := gone.revisits.document
  have later : t.document = before ++ cell :: (after ++ more) := by
    rw [← grown, parts]
    simp
  refine ⟨_, gone.stores.slot_of_parts later, ?_⟩
  cases after with
  | nil =>
    right
    rw [stores.last, parts, List.getLast?_concat]
    rfl
  | cons following rest => exact .inl rfl

theorem receives (stores : a.Stores ordered s) : a.Receives := by
  intro after kind text listed
  have known : ∀ number ∈ after, number ∈ s.document.map Cell.index := fun number named => by
    have below := listed number named
    rw [stores.size] at below
    exact stores.numbers.mem_iff.2 (List.mem_range.2 below)
  have taken := stores.numbered.receives after kind text known
  rcases stores.insert after (fun number named => List.mem_iff_getElem?.1 (known number named)) kind text with
    ⟨cell, t, b, inserts, links, stored, stays, -, -⟩ | ⟨fault, t, b, refuses, refuses', gone, -⟩
  · left
    rcases taken with ⟨cell', t', inserts', puts⟩ | ⟨fault, t', refuses, -⟩
    · obtain ⟨rfl, rfl⟩ := EStateM.Result.ok.inj (inserts.symm.trans inserts')
      obtain ⟨defined, before, following, rest, grown, whole, behind, shape, now, -⟩ := puts
      refine ⟨cell.index, b, links, stores.dialect ▸ defined, cell, before, following, rest, rfl, ?_, ?_, behind, shape,
        stored.document.trans now, (stored.prev?_of_parts now).trans behind, stored.next?_of_parts now, stays⟩
      · rwa [stores.document]
      · rw [stores.document, stores.supply, stored.supply]
        exact whole
    · cases inserts.symm.trans refuses
  · right
    rcases taken with ⟨cell', t', inserts, -⟩ | ⟨fault', t', refuses'', because, -⟩
    · cases refuses.symm.trans inserts
    · obtain ⟨rfl, rfl⟩ := EStateM.Result.error.inj (refuses.symm.trans refuses'')
      refine ⟨fault, b, refuses', ?_, fun index slot here => stores.slots_of_gone gone here, ?_, ?_, gone.stays⟩
      · rcases because with ⟨past, ⟨cell, last, same⟩, all⟩ | ⟨unknown, undefined⟩
        · refine .inl ⟨past, ?_, stores.supply.trans all⟩
          rw [stores.last, Option.mem_def.1 last, ← same]
          rfl
        · exact .inr ⟨stores.dialect ▸ unknown, stores.dialect ▸ undefined⟩
      · rw [stores.document, gone.stores.document]
        exact gone.revisits.document
      · rw [stores.document, gone.stores.document, stores.supply, gone.stores.supply]
        exact gone.revisits.tokens.symm

end Stores

end Arena

/-! ### An arena in use -/

/-- An arena with the numbers of the tokens handed out and of the tokens at checkpoints. -/
structure ArenaUser where
  arena : Arena
  held : List Nat
  checkpoints : List Nat

namespace ArenaUser

def start (arena : Arena) : ArenaUser := ⟨arena, [], []⟩

def see (user : ArenaUser) (index : Nat) : Option SeenToken :=
  user.arena.slots[index]?.map fun slot => ⟨slot.cell.toToken, slot.order⟩

/-- Hands out a token. -/
def give (user : ArenaUser) (index : Nat) : Answer × ArenaUser :=
  (.token (user.see index), { user with held := user.held ++ [index] })

def give? (user : ArenaUser) : Option Nat → Answer × ArenaUser
  | none => (.token none, user)
  | some index => user.give index

def giveAll (user : ArenaUser) (path : List Nat) : Answer × ArenaUser :=
  (.tokens (path.filterMap user.see), { user with held := user.held ++ path })

/-- Takes steps on the arena. -/
def take {α : Type} (user : ArenaUser) (steps : ArenaM α) (answer : ArenaUser → α → Answer × ArenaUser) :
    Answer × ArenaUser :=
  match steps user.arena with
  | .ok value arena => answer { user with arena } value
  | .error fault arena => (.refused fault, { user with arena })

/-- One use. Of a token or a checkpoint that is not in hand none can be made. -/
def use (user : ArenaUser) : StreamUse → Answer × ArenaUser
  | .current => user.give user.arena.current
  | .advance => user.take Arena.advance give
  | .peek count => user.take (Arena.peek count) give
  | .peekKind count =>
    user.take (Arena.peek count >>= Arena.slot) fun user slot => (.kind slot.cell.kind, user)
  | .checkpoint => (.nothing, { user with checkpoints := user.checkpoints ++ [user.arena.current] })
  | .rewind checkpoint =>
    match user.checkpoints[checkpoint]? with
    | none => (.nothing, user)
    | some index => user.take (Arena.moveTo index) fun user _ => (.nothing, user)
  | .rewindTo token =>
    match user.held[token]?.bind (user.arena.slots[·]?) with
    | none => (.nothing, user)
    | some slot => user.take (Arena.rewindTo user.arena.serial slot.cell) fun user _ => (.nothing, user)
  | .rewindToForeign token =>
    user.take (Arena.rewindTo (user.arena.serial + 1) token) fun user _ => (.nothing, user)
  | .next token =>
    match user.held[token]? with
    | none => (.nothing, user)
    | some index => user.take (Arena.nextIndex index) give?
  | .previous token =>
    match user.held[token]? with
    | none => (.nothing, user)
    | some index => user.take (Arena.previousIndex index) give?
  | .insert none kind text => user.take (Arena.insertSynthetic none kind text) give
  | .insert (some token) kind text =>
    match user.held[token]? with
    | none => (.nothing, user)
    | some index => user.take (Arena.insertSynthetic (some index) kind text) give
  | .look token =>
    match user.held[token]? with
    | none => (.nothing, user)
    | some index => (.token (user.see index), user)
  | .first => user.give? user.arena.head
  | .iterate => user.take Arena.iterTokens giveAll
  | .finish => user.take Arena.finish giveAll

/-- The user after a whole session. -/
def after (user : ArenaUser) : List StreamUse → ArenaUser
  | [] => user
  | use :: uses => (user.use use).2.after uses

/-- What a user is told over a whole session. -/
def answers (user : ArenaUser) : List StreamUse → List Answer
  | [] => []
  | use :: uses => (user.use use).1 :: (user.use use).2.answers uses

end ArenaUser

/-- The arena stores the stream, both cursors are on one token, and the same is in hand. -/
structure Represents (user : ArenaUser) (other : StreamUser) : Prop where
  stores : user.arena.Stores other.ordered other.stream
  current : user.arena.current = other.stream.current.index
  held : user.held = other.held
  checkpoints : user.checkpoints = other.checkpoints

/-- The same is told, and the arena represents the stream afterwards. -/
def TellsSame (told : Answer × ArenaUser) (expected : Answer × StreamUser) : Prop :=
  told.1 = expected.1 ∧ Represents told.2 expected.2

variable {user : ArenaUser} {other : StreamUser} {reader : ListReader} {b : Arena} {t : TokenStream}

theorem ArenaUser.take_ok {α : Type} {steps : ArenaM α} {value : α} (ok : steps user.arena = .ok value b)
    (answer : ArenaUser → α → Answer × ArenaUser) : user.take steps answer = answer { user with arena := b } value := by
  rw [take, ok]

theorem ArenaUser.take_error {α : Type} {steps : ArenaM α} {fault : Fault} (error : steps user.arena = .error fault b)
    (answer : ArenaUser → α → Answer × ArenaUser) :
    user.take steps answer = (.refused fault, { user with arena := b }) := by
  rw [take, error]

namespace Represents

/-- The arena and the stream have gone on. -/
theorem gone (represents : Represents user other) (gone : Arena.Gone other.ordered user.arena other.stream b t)
    (current : t.current = other.stream.current) : Represents { user with arena := b } { other with stream := t } :=
  ⟨gone.stores, by rw [gone.stays, represents.current, current], represents.held, represents.checkpoints⟩

theorem see (represents : Represents user other) {cell : Cell} (member : cell ∈ other.stream.document) :
    user.see cell.index = some (other.see cell) := by
  obtain ⟨slot, here, same, order⟩ := represents.stores.slot_of_mem member
  rw [ArenaUser.see, here, Option.map_some, same, order, StreamUser.see]

theorem give (represents : Represents user other) {cell : Cell} (member : cell ∈ other.stream.document) :
    TellsSame (user.give cell.index) (other.give cell) :=
  ⟨congrArg Answer.token (represents.see member),
    { represents with held := congrArg (· ++ [cell.index]) represents.held }⟩

theorem give? (represents : Represents user other) {cell? : Option Cell}
    (member : ∀ cell ∈ cell?, cell ∈ other.stream.document) :
    TellsSame (user.give? (cell?.map Cell.index)) (other.give? cell?) := by
  cases cell? with
  | none => exact ⟨rfl, represents⟩
  | some cell => exact represents.give (member cell rfl)

theorem giveAll (represents : Represents user other) :
    TellsSame (user.giveAll (other.stream.document.map Cell.index)) (other.giveAll other.stream.document) := by
  refine ⟨?_, { represents with held := congrArg (· ++ other.stream.document.map Cell.index) represents.held }⟩
  have seen : (other.stream.document.map Cell.index).filterMap user.see = other.stream.document.map other.see := by
    rw [List.filterMap_map]
    exact (List.filterMap_congr fun cell member => represents.see member).trans
      (congrFun List.filterMap_eq_map' _)
  exact congrArg Answer.tokens seen

theorem advanced (represents : Represents user other) : TellsSame (user.use .advance) (other.use .advance) := by
  obtain ⟨t, b, moves, moves', stores, current⟩ := represents.stores.advance represents.current
  obtain ⟨u, again, reads, -⟩ := represents.stores.numbered.advance
  obtain ⟨-, rfl⟩ := EStateM.Result.ok.inj (moves.symm.trans again)
  have member : other.stream.current ∈ t.document :=
    List.mem_of_getElem? (reads.document_getElem other.stream.document_at_place)
  have later : Represents { user with arena := b } { other with stream := t } :=
    ⟨stores, current, represents.held, represents.checkpoints⟩
  rw [ArenaUser.use, StreamUser.use, ArenaUser.take_ok moves', StreamUser.take_ok moves]
  exact later.give member

theorem peeked (represents : Represents user other) (count : Nat) :
    TellsSame (user.use (.peek count)) (other.use (.peek count)) := by
  obtain ⟨cell, t, b, looks, looks', gone, current, member⟩ := represents.stores.peek represents.current count
  rw [ArenaUser.use, StreamUser.use, ArenaUser.take_ok looks', StreamUser.take_ok looks]
  exact give (represents.gone gone current) member

theorem peekedKind (represents : Represents user other) (count : Nat) :
    TellsSame (user.use (.peekKind count)) (other.use (.peekKind count)) := by
  obtain ⟨cell, t, b, looks, looks', gone, current, member⟩ := represents.stores.peek represents.current count
  obtain ⟨slot, here, same, -⟩ := gone.stores.slot_of_mem member
  have reads : (Arena.peek count >>= Arena.slot) user.arena = .ok slot b := by
    rw [TokenStream.bind_ok looks', Arena.slot, here]
  rw [ArenaUser.use, StreamUser.use, ArenaUser.take_ok reads, StreamUser.take_ok looks, same]
  exact ⟨rfl, represents.gone gone current⟩

/-- A token in hand stands in the document. -/
theorem marks_of_held (shows : Shows other reader) (token : Nat) {number : Nat}
    (held : other.held[token]? = some number) : ∃ spot, other.stream.Marks number spot := by
  rcases forall₂_getElem? shows.held token with ⟨absent, -⟩ | ⟨same, spot, here, -, marks⟩
  · rw [absent] at held
    cases held
  · obtain rfl := Option.some.inj (held.symm.trans here)
    exact ⟨spot, marks⟩

theorem rewound (represents : Represents user other) (shows : Shows other reader) (checkpoint : Nat) :
    TellsSame (user.use (.rewind checkpoint)) (other.use (.rewind checkpoint)) := by
  rw [ArenaUser.use, StreamUser.use, represents.checkpoints]
  rcases forall₂_getElem? shows.checkpoints checkpoint with ⟨absent, -⟩ | ⟨number, spot, held, -, marks⟩
  · rw [absent]
    exact ⟨rfl, represents⟩
  · rw [held]
    have sought := (represents.stores.seek number).stores.moveTo number
    exact ⟨rfl, sought, (represents.stores.current_seek marks).symm, represents.held, represents.checkpoints⟩

theorem rewoundTo (represents : Represents user other) (shows : Shows other reader) (token : Nat) :
    TellsSame (user.use (.rewindTo token)) (other.use (.rewindTo token)) := by
  rw [ArenaUser.use, StreamUser.use, represents.held]
  cases held : other.held[token]? with
  | none => exact ⟨rfl, represents⟩
  | some number =>
    obtain ⟨spot, marks⟩ := marks_of_held shows token held
    obtain ⟨cell, found, here, number⟩ := shows.cell_of_marks marks
    obtain ⟨slot, standing, same, -⟩ := represents.stores.slot_of_mem (List.mem_of_getElem? here)
    rw [number] at standing
    obtain ⟨t, b, goes, goes', stores, current⟩ := represents.stores.rewindTo here
    rw [Option.bind_some, Option.bind_some, found, standing]
    dsimp only
    rw [same, ArenaUser.take_ok goes', StreamUser.take_ok goes]
    exact ⟨rfl, stores, current, represents.held, represents.checkpoints⟩

theorem next (represents : Represents user other) (shows : Shows other reader) (token : Nat) :
    TellsSame (user.use (.next token)) (other.use (.next token)) := by
  rw [ArenaUser.use, StreamUser.use, represents.held]
  cases held : other.held[token]? with
  | none => exact ⟨rfl, represents⟩
  | some number =>
    obtain ⟨spot, marks⟩ := marks_of_held shows token held
    obtain ⟨cell?, t, b, looks, looks', gone, current, member⟩ := represents.stores.next marks
    dsimp only
    rw [ArenaUser.take_ok looks', StreamUser.take_ok looks]
    exact give? (represents.gone gone current) member

theorem previous (represents : Represents user other) (shows : Shows other reader) (token : Nat) :
    TellsSame (user.use (.previous token)) (other.use (.previous token)) := by
  rw [ArenaUser.use, StreamUser.use, represents.held]
  cases held : other.held[token]? with
  | none => exact ⟨rfl, represents⟩
  | some number =>
    obtain ⟨spot, marks⟩ := marks_of_held shows token held
    dsimp only
    rw [ArenaUser.take_ok (represents.stores.previousIndex marks)]
    refine give? represents fun cell before => ?_
    rw [shows.numbered.previous? marks] at before
    exact List.mem_of_mem_take (List.mem_of_getLast? before)

/-- A token that is put in where the user said. -/
theorem put (represents : Represents user other) (after : Option Nat)
    (listed : ∀ number ∈ after, ∃ spot, other.stream.Marks number spot) (kind : TokenKind) (text : String) :
    TellsSame (user.take (Arena.insertSynthetic after kind text) ArenaUser.give)
      (other.take (TokenStream.insertAfter after kind text) StreamUser.give) := by
  rcases represents.stores.insert after listed kind text with
    ⟨cell, t, b, inserts, links, stores, stays, current, member⟩ | ⟨fault, t, b, refuses, refuses', gone, current⟩
  · have later : Represents { user with arena := b } { other with stream := t } :=
      ⟨stores, stays.trans (represents.current.trans current.symm), represents.held, represents.checkpoints⟩
    rw [ArenaUser.take_ok links, StreamUser.take_ok inserts]
    exact later.give member
  · rw [ArenaUser.take_error refuses', StreamUser.take_error refuses]
    exact ⟨rfl, represents.gone gone current⟩

theorem insertion (represents : Represents user other) (shows : Shows other reader) (after : Option Nat)
    (kind : TokenKind) (text : String) :
    TellsSame (user.use (.insert after kind text)) (other.use (.insert after kind text)) := by
  cases after with
  | none => exact represents.put none (by simp) kind text
  | some token =>
    rw [ArenaUser.use, StreamUser.use, represents.held]
    cases held : other.held[token]? with
    | none => exact ⟨rfl, represents⟩
    | some number => exact represents.put (some number) (by simpa using marks_of_held shows token held) kind text

theorem look (represents : Represents user other) (shows : Shows other reader) (token : Nat) :
    TellsSame (user.use (.look token)) (other.use (.look token)) := by
  rw [ArenaUser.use, StreamUser.use, represents.held]
  cases held : other.held[token]? with
  | none => exact ⟨rfl, represents⟩
  | some number =>
    obtain ⟨spot, marks⟩ := marks_of_held shows token held
    obtain ⟨cell, found, here, rfl⟩ := shows.cell_of_marks marks
    rw [Option.bind_some, found]
    exact ⟨congrArg Answer.token (represents.see (List.mem_of_getElem? here)), represents⟩

/-- Whatever use is made of an arena, it tells what the stream tells and goes on storing it. -/
theorem use (represents : Represents user other) (shows : Shows other reader) (use : StreamUse) :
    TellsSame (user.use use) (other.use use) := by
  have stores := represents.stores
  cases use with
  | current =>
    have member := List.mem_of_getElem? other.stream.document_at_place
    rw [ArenaUser.use, represents.current]
    exact represents.give member
  | advance => exact represents.advanced
  | peek count => exact represents.peeked count
  | peekKind count => exact represents.peekedKind count
  | checkpoint =>
    rw [ArenaUser.use, represents.current, represents.checkpoints]
    exact ⟨rfl, { represents with checkpoints := rfl }⟩
  | rewind checkpoint => exact represents.rewound shows checkpoint
  | rewindTo token => exact represents.rewoundTo shows token
  | rewindToForeign token =>
    have refuses : Arena.rewindTo (user.arena.serial + 1) token user.arena =
        .error (.foreignToken token.toToken) user.arena := by
      simp [Arena.rewindTo, bind, EStateM.bind, TokenStream.get_ok, TokenStream.throw_error]
    rw [ArenaUser.use, StreamUser.use, ArenaUser.take_error refuses,
      StreamUser.take_error (TokenStream.rewindTo_foreign (by omega) token)]
    exact ⟨rfl, represents⟩
  | next token => exact represents.next shows token
  | previous token => exact represents.previous shows token
  | insert after kind text => exact represents.insertion shows after kind text
  | look token => exact represents.look shows token
  | first =>
    rw [ArenaUser.use, stores.head]
    exact represents.give? fun cell leads => List.mem_of_head? leads
  | iterate =>
    obtain ⟨t, b, reads, meets, gone, current, -⟩ := stores.iterTokens
    rw [ArenaUser.use, StreamUser.use, ArenaUser.take_ok meets, StreamUser.take_ok reads]
    exact giveAll (represents.gone gone current)
  | finish =>
    obtain ⟨t, b, reads, settles, gone, current, -⟩ := stores.finish
    have later : Represents { user with arena := b }
        { other with stream := t, ordered := t.document.map Cell.index } :=
      ⟨gone.stores, gone.stays.trans (represents.current.trans (congrArg Cell.index current.symm)), represents.held,
        represents.checkpoints⟩
    rw [ArenaUser.use, StreamUser.use, ArenaUser.take_ok settles, StreamUser.take_ok reads]
    exact later.giveAll

/-- Over a whole session the same is told, and the arena stores the stream afterwards. -/
theorem session (represents : Represents user other) (shows : Shows other reader) (uses : List StreamUse) :
    user.answers uses = other.answers uses ∧ Represents (user.after uses) (other.after uses) := by
  induction uses generalizing user other reader with
  | nil => exact ⟨rfl, represents⟩
  | cons use uses ih =>
    obtain ⟨same, later⟩ := represents.use shows use
    obtain ⟨rest, final⟩ := ih later (shows.use use).2
    exact ⟨by rw [ArenaUser.answers, StreamUser.answers, same, rest], final⟩

end Represents

/-! ### A whole session -/

namespace Arena

variable {lexed : List Token}

/-- The slots of an arena whose stream shows the tokens of a text. -/
theorem orderly_of_represents (represents : Represents user other) (shows : Shows other reader)
    (kept : reader.Kept lexed) (ended : EndsOnce (lexed.map (·.kind))) : Orderly lexed user.arena := by
  have stores := represents.stores
  obtain ⟨read, parts, last⟩ := shows.frontier
  rw [kept.origin] at parts
  have text : ofText (other.stream.document.map Cell.toToken) = ofText read := by
    have whole := kept.text
    rw [← shows.tokens, TokenStream.tokens, parts, ofText_append, ofText_append] at whole
    exact List.append_cancel_right whole
  have source : sourceOf (other.stream.document.map Cell.toToken) = sourceOf read := by
    have whole := kept.source
    rw [← shows.tokens, TokenStream.tokens, parts, sourceOf_append, sourceOf_append] at whole
    exact List.append_cancel_right whole
  refine ⟨fun index slot here => ?_, ?_, stores.ends, stores.opposite, ?_, ⟨read, ?_, ?_, ?_, ?_⟩, ?_⟩
  · obtain ⟨before, cell, after, -, number, rfl⟩ := stores.parts_of_slot here
    exact number
  · rw [stores.trail, stores.size]
    exact stores.numbers
  · have member : other.stream.current ∈ other.stream.document := List.mem_of_getElem? other.stream.document_at_place
    rw [stores.trail, represents.current]
    refine ⟨List.mem_map_of_mem member, fun slot here => ?_⟩
    obtain ⟨same, standing, cell, -⟩ := stores.slot_of_mem member
    obtain rfl := Option.some.inj (here.symm.trans standing)
    rw [cell]
    exact TokenStream.current_of_stands shows.tokens (shows.place ▸ kept.place)
  · rw [stores.supply, parts]
  · rw [stores.document, text]
  · rw [stores.document, source]
  · rw [stores.document, last]
  · rw [stores.document, stores.supply]
    exact TokenStream.unread_of_ended ended parts text

/-- Whatever use is made of an arena over the tokens of a text, whether it takes them at once or on demand, it tells
what the stream over them tells. Its slots stay a document in good order, and a token is put in or refused as a whole;
once the end of the file has been read, the slots spell the text. -/
theorem orderly_after (serial : Nat) (d : Dialect) (onDemand : Bool) (text : String) :
    ∃ a s, ofTokens serial d onDemand (lex d text) = .ok a ∧
      TokenStream.ofTokens serial d onDemand (lex d text) = .ok s ∧
        ∀ uses, (ArenaUser.start a).answers uses = (StreamUser.start s).answers uses ∧
        ((ArenaUser.start a).after uses).arena.document = ((StreamUser.start s).after uses).stream.document ∧
        Orderly (lex d text) ((ArenaUser.start a).after uses).arena ∧
        ((ArenaUser.start a).after uses).arena.Receives ∧
        ((∃ cell ∈ ((ArenaUser.start a).after uses).arena.document, cell.kind = .endOfFile ∧ cell.synthetic = false) →
          sourceOf (((ArenaUser.start a).after uses).arena.document.map Cell.toToken) = text.toList) := by
  have genuine := genuine_lex d text
  have ended := endsOnce_lex d text
  have defined : ∀ token ∈ lex d text, d.defines token.kind := fun token member => (genuine token member).defined
  have whole : TokenStream.throughEnd (lex d text) = lex d text := TokenStream.throughEnd_eq ended
  have nonempty : TokenStream.throughEnd (lex d text) ≠ [] := by
    rw [whole]
    exact fun nothing => ended.ne_nil (by rw [nothing]; rfl)
  obtain ⟨s, opens, numbered, full, dialect, tokens, fresh⟩ :=
    TokenStream.ofTokens_numbered serial onDemand defined nonempty
  rw [whole] at tokens
  obtain ⟨a, same, makes, opens', stores, current⟩ := ofTokens_stores serial onDemand defined ended
  obtain rfl : s = same := Except.ok.inj (opens.symm.trans opens')
  have kept : (ListReader.start s.dialect s.tokens).Kept (lex d text) := by
    rw [tokens]
    exact ListReader.kept_start ended fun token member => (genuine token member).real
  have begun := shows_start numbered full fresh
  refine ⟨a, s, makes, opens, fun uses => ?_⟩
  have represents : Represents (.start a) (.start s) := ⟨stores, current, rfl, rfl⟩
  obtain ⟨answers, represents⟩ := represents.session begun uses
  have orderly := orderly_of_represents represents (begun.after uses) (kept.after uses) ended
  refine ⟨answers, represents.stores.document, orderly, represents.stores.receives, fun met => ?_⟩
  obtain ⟨read, parts, -, source, -⟩ := orderly.read
  rw [orderly.ended met, List.append_nil] at parts
  rw [source, ← parts, sourceOf_lex]

end Arena

end TolerantParser
