import Mathlib.Data.List.Forall2
import TolerantParser.Proofs.Stream.Places

/-!
Reading on demand makes no difference. A user of a stream (`StreamUser`) keeps the tokens that were handed out and
the checkpoints that were taken, and works the stream with them. What such a user is told is what a reader
of the plain list of tokens is told (`ListReader`), who knows nothing of numbers and reads nothing later; so two
streams over the same tokens give the same answers, whether they read at once or on demand.
-/

namespace TolerantParser

open TokenStream (Marks Numbered Reads Inserted)

/-- A use of a stream. Tokens are named by their place among those handed out so far and checkpoints by
their place among those taken so far. -/
inductive StreamUse where
  | current
  | advance
  | peek (count : Nat)
  | peekKind (count : Nat)
  | checkpoint
  | rewind (checkpoint : Nat)
  | rewindTo (token : Nat)
  /-- A token of another stream is to be gone to. -/
  | rewindToForeign (token : Cell)
  | next (token : Nat)
  | previous (token : Nat)
  | insert (after : Option Nat) (kind : TokenKind) (text : String)
  /-- A token in hand is looked at again. -/
  | look (token : Nat)
  /-- An iteration that is left after its first token. To go on with it is to ask for the next token. -/
  | first
  | iterate
  | finish
  deriving Repr

/-- A token as it is now, and its place in the document if that has been settled. -/
structure SeenToken where
  token : Token
  order : Option Nat
  deriving Repr

/-- What a user is told. -/
inductive Answer where
  | nothing
  | token (token : Option SeenToken)
  | kind (kind : TokenKind)
  | tokens (tokens : List SeenToken)
  | refused (fault : Fault)
  deriving Repr

/-! ### A stream in use -/

/-- A stream with the numbers of the tokens handed out, of the tokens at checkpoints, and of those that have
been put in order. -/
structure StreamUser where
  stream : TokenStream
  held : List Nat
  checkpoints : List Nat
  ordered : List Nat

namespace StreamUser

def start (stream : TokenStream) : StreamUser := ⟨stream, [], [], []⟩

def see (user : StreamUser) (cell : Cell) : SeenToken := ⟨cell.toToken, user.ordered.idxOf? cell.index⟩

/-- Hands out a token. -/
def give (user : StreamUser) (cell : Cell) : Answer × StreamUser :=
  (.token (some (user.see cell)), { user with held := user.held ++ [cell.index] })

def give? (user : StreamUser) : Option Cell → Answer × StreamUser
  | none => (.token none, user)
  | some cell => user.give cell

def giveAll (user : StreamUser) (cells : List Cell) : Answer × StreamUser :=
  (.tokens (cells.map user.see), { user with held := user.held ++ cells.map Cell.index })

/-- Takes steps on the stream. -/
def take {α : Type} (user : StreamUser) (steps : StreamM α) (answer : StreamUser → α → Answer × StreamUser) :
    Answer × StreamUser :=
  match steps user.stream with
  | .ok value stream => answer { user with stream } value
  | .error fault stream => (.refused fault, { user with stream })

/-- One use. Of a token or a checkpoint that is not in hand none can be made. -/
def use (user : StreamUser) : StreamUse → Answer × StreamUser
  | .current => user.give user.stream.current
  | .advance => user.take TokenStream.advance give
  | .peek count => user.take (TokenStream.peek count) give
  | .peekKind count => user.take (TokenStream.peek count) fun user cell => (.kind cell.kind, user)
  | .checkpoint =>
    (.nothing, { user with checkpoints := user.checkpoints ++ [user.stream.current.index] })
  | .rewind checkpoint =>
    match user.checkpoints[checkpoint]? with
    | none => (.nothing, user)
    | some number => user.take (modify (·.seek number)) fun user _ => (.nothing, user)
  | .rewindTo token =>
    match user.held[token]?.bind user.stream.cell? with
    | none => (.nothing, user)
    | some cell => user.take (TokenStream.rewindTo user.stream.serial cell) fun user _ => (.nothing, user)
  | .rewindToForeign token =>
    user.take (TokenStream.rewindTo (user.stream.serial + 1) token) fun user _ => (.nothing, user)
  | .next token =>
    match user.held[token]? with
    | none => (.nothing, user)
    | some number => user.take (TokenStream.next? number) give?
  | .previous token =>
    match user.held[token]? with
    | none => (.nothing, user)
    | some number => user.give? (user.stream.previous? number)
  | .insert none kind text => user.take (TokenStream.insertAfter none kind text) give
  | .insert (some token) kind text =>
    match user.held[token]? with
    | none => (.nothing, user)
    | some number => user.take (TokenStream.insertAfter (some number) kind text) give
  | .look token =>
    match user.held[token]?.bind user.stream.cell? with
    | none => (.nothing, user)
    | some cell => (.token (some (user.see cell)), user)
  | .first => user.give? user.stream.document.head?
  | .iterate => user.take TokenStream.finish giveAll
  | .finish =>
    user.take TokenStream.finish fun user cells => StreamUser.giveAll
      { user with ordered := cells.map Cell.index } cells

/-- What a user is told over a whole session. -/
def answers (user : StreamUser) : List StreamUse → List Answer
  | [] => []
  | use :: uses => (user.use use).1 :: (user.use use).2.answers uses

end StreamUser

/-! ### A list of tokens in use -/

/-- A token without what stands in front of it. When a token is put in, it takes over a lead, so a lead need
not stay with its token. -/
def Token.bare (token : Token) : Token := { token with lead := "" }

/-- The tokens of a document with a place in it, and the places of the tokens handed out, of those at
checkpoints and of those that have been put in order. `lexed` are the tokens that the document began as. -/
structure ListReader where
  dialect : Dialect
  lexed : List Token
  tokens : List Token
  place : Nat
  held : List Nat
  checkpoints : List Nat
  ordered : List Nat

namespace ListReader

def start (d : Dialect) (tokens : List Token) : ListReader := ⟨d, tokens, tokens, restingPlace tokens 0, [], [], []⟩

def see (reader : ListReader) (place : Nat) : Option SeenToken :=
  reader.tokens[place]?.map (⟨·, reader.ordered.idxOf? place⟩)

def give (reader : ListReader) (place : Nat) : Answer × ListReader :=
  (.token (reader.see place), { reader with held := reader.held ++ [place] })

def giveAll (reader : ListReader) : Answer × ListReader :=
  (.tokens ((List.range reader.tokens.length).filterMap reader.see),
    { reader with held := reader.held ++ List.range reader.tokens.length })

/-- Puts a token in. What stands behind moves on by one place. -/
def insert (reader : ListReader) (gap : Nat) (kind : TokenKind) (text : String) : Answer × ListReader :=
  match reader.dialect.require kind with
  | .error fault => (.refused fault, reader)
  | .ok _ =>
    { reader with
      tokens := insertAt reader.tokens gap kind text, place := shifted gap reader.place
      held := reader.held.map (shifted gap), checkpoints := reader.checkpoints.map (shifted gap)
      ordered := reader.ordered.map (shifted gap) }.give gap

def use (reader : ListReader) : StreamUse → Answer × ListReader
  | .current => reader.give reader.place
  | .advance => { reader with place := placeAhead reader.tokens 1 reader.place }.give reader.place
  | .peek count => reader.give (placeAhead reader.tokens count reader.place)
  | .peekKind count =>
    match reader.tokens[placeAhead reader.tokens count reader.place]? with
    | none => (.nothing, reader)
    | some token => (.kind token.kind, reader)
  | .checkpoint => (.nothing, { reader with checkpoints := reader.checkpoints ++ [reader.place] })
  | .rewind checkpoint =>
    match reader.checkpoints[checkpoint]? with
    | none => (.nothing, reader)
    | some place => (.nothing, { reader with place })
  | .rewindTo token =>
    match reader.held[token]? with
    | none => (.nothing, reader)
    | some place => (.nothing, { reader with place := restingPlace reader.tokens place })
  | .rewindToForeign token => (.refused (.foreignToken token.toToken), reader)
  | .next token =>
    match reader.held[token]? with
    | none => (.nothing, reader)
    | some place => if place + 1 < reader.tokens.length then reader.give (place + 1) else (.token none, reader)
  | .previous token =>
    match reader.held[token]? with
    | none => (.nothing, reader)
    | some 0 => (.token none, reader)
    | some (place + 1) => reader.give place
  | .insert none kind text => reader.insert 0 kind text
  | .insert (some token) kind text =>
    match reader.held[token]? with
    | none => (.nothing, reader)
    | some place =>
      if place + 1 < reader.tokens.length then reader.insert (place + 1) kind text else (.refused .pastEnd, reader)
  | .look token =>
    match reader.held[token]? with
    | none => (.nothing, reader)
    | some place => (.token (reader.see place), reader)
  | .first => reader.give 0
  | .iterate => reader.giveAll
  | .finish => { reader with ordered := List.range reader.tokens.length }.giveAll

def answers (reader : ListReader) : List StreamUse → List Answer
  | [] => []
  | use :: uses => (reader.use use).1 :: (reader.use use).2.answers uses

end ListReader

/-! ### A stream shows a list of tokens -/

/-- A stream in use shows the tokens, and its numbers are those of the tokens at the places. -/
structure Shows (user : StreamUser) (reader : ListReader) : Prop where
  numbered : user.stream.Numbered
  dialect : user.stream.dialect = reader.dialect
  tokens : user.stream.tokens = reader.tokens
  full : user.stream.total = reader.tokens.length
  frontier : ∃ read, reader.lexed = read ++ user.stream.unread ∧
    user.stream.document.getLast?.map (·.toToken.bare) = read.getLast?.map Token.bare
  place : user.stream.place = reader.place
  held : List.Forall₂ user.stream.Marks user.held reader.held
  checkpoints : List.Forall₂ user.stream.Marks user.checkpoints reader.checkpoints
  ordered : List.Forall₂ user.stream.Marks user.ordered reader.ordered

/-- The same is told and the stream shows the tokens afterwards. -/
def Agrees (told : Answer × StreamUser) (expected : Answer × ListReader) : Prop :=
  told.1 = expected.1 ∧ Shows told.2 expected.2

variable {user : StreamUser} {reader : ListReader} {t : TokenStream}

theorem StreamUser.take_ok {α : Type} {steps : StreamM α} {value : α} (ok : steps user.stream = .ok value t)
    (answer : StreamUser → α → Answer × StreamUser) :
      user.take steps answer = answer { user with stream := t } value := by
  rw [take, ok]

theorem StreamUser.take_error {α : Type} {steps : StreamM α} {fault : Fault}
    (error : steps user.stream = .error fault t) (answer : StreamUser → α → Answer × StreamUser) :
    user.take steps answer = (.refused fault, { user with stream := t }) := by
  rw [take, error]

theorem forall₂_getElem? {α β : Type} {R : α → β → Prop} {as : List α} {bs : List β}
    (all : List.Forall₂ R as bs) (k : Nat) :
    (as[k]? = none ∧ bs[k]? = none) ∨ ∃ a b, as[k]? = some a ∧ bs[k]? = some b ∧ R a b := by
  induction all generalizing k with
  | nil => exact .inl ⟨rfl, rfl⟩
  | cons related _ ih =>
    cases k with
    | zero => exact .inr ⟨_, _, rfl, rfl, related⟩
    | succ k => simpa using ih k

theorem idxOf?_eq {s : TokenStream} (numbered : s.Numbered) {numbers places : List Nat}
    (all : List.Forall₂ s.Marks numbers places) {number place : Nat} (marks : s.Marks number place) :
    numbers.idxOf? number = places.idxOf? place := by
  induction all with
  | nil => rfl
  | @cons other elsewhere _ _ here _ ih =>
    have same : (other == number) = (elsewhere == place) := by
      rw [Bool.eq_iff_iff, beq_iff_eq, beq_iff_eq, numbered.marks_inj here marks]
    rw [List.idxOf?_cons, List.idxOf?_cons, same, ih]

namespace Shows

/-- Reading and moving leave the tokens in hand where they are. -/
theorem reads (shows : Shows user reader) (reads : Reads user.stream t) {place : Nat} (gone : t.place = place) :
    Shows { user with stream := t } { reader with place } where
  numbered := reads.numbered
  dialect := reads.dialect.trans shows.dialect
  tokens := reads.tokens.trans shows.tokens
  full := reads.total.trans shows.full
  frontier := by
    obtain ⟨read, lexed, last⟩ := shows.frontier
    obtain ⟨more, grown, unread⟩ := reads.grown
    refine ⟨read ++ more.map Cell.toToken, by rw [lexed, unread, List.append_assoc], ?_⟩
    rw [grown, List.getLast?_append, List.getLast?_append, Option.map_or, Option.map_or, last, List.getLast?_map,
      Option.map_map]
    rfl
  place := gone
  held := shows.held.imp fun _ _ => reads.marks
  checkpoints := shows.checkpoints.imp fun _ _ => reads.marks
  ordered := shows.ordered.imp fun _ _ => reads.marks

/-- A look around. -/
theorem looked (shows : Shows user reader) (reads : Reads user.stream t) (stays : t.place = user.stream.place) :
    Shows { user with stream := t } reader :=
  shows.reads reads (stays.trans shows.place)

theorem see (shows : Shows user reader) {place : Nat} {cell : Cell}
    (here : user.stream.document[place]? = some cell) : reader.see place = some (user.see cell) := by
  have order := idxOf?_eq shows.numbered shows.ordered (TokenStream.marks_of_document here)
  rw [ListReader.see, ← shows.tokens, TokenStream.tokens_of_document here, StreamUser.see, order]
  rfl

theorem give (shows : Shows user reader) {place : Nat} {cell : Cell}
    (here : user.stream.document[place]? = some cell) : Agrees (user.give cell) (reader.give place) := by
  refine ⟨by rw [StreamUser.give, ListReader.give, shows.see here], { shows with held := ?_ }⟩
  exact List.rel_append shows.held (.cons (TokenStream.marks_of_document here) .nil)

/-- A stream that has been read to its end. -/
theorem marks_all (shows : Shows user reader)
    (all : user.stream.document.map Cell.toToken = user.stream.tokens) :
    List.Forall₂ user.stream.Marks (user.stream.document.map Cell.index) (List.range reader.tokens.length) := by
  have length : reader.tokens.length = user.stream.document.length := by
    rw [← shows.tokens, ← all, List.length_map]
  rw [length, List.forall₂_iff_get]
  refine ⟨by simp, fun place within _ => ?_⟩
  rw [List.length_map] at within
  simp [Marks, within]

theorem giveAll (shows : Shows user reader)
    (all : user.stream.document.map Cell.toToken = user.stream.tokens) :
    Agrees (user.giveAll user.stream.document) reader.giveAll := by
  refine ⟨?_, { shows with held := List.rel_append shows.held (shows.marks_all all) }⟩
  have length : reader.tokens.length = user.stream.document.length := by
    rw [← shows.tokens, ← all, List.length_map]
  have seen : (List.range reader.tokens.length).map reader.see = user.stream.document.map (some <| user.see ·) := by
    refine List.ext_getElem (by simp [length]) fun place _ within => ?_
    rw [List.length_map] at within
    rw [List.getElem_map, List.getElem_map, List.getElem_range]
    exact shows.see (List.getElem?_eq_getElem within)
  have given : (List.range reader.tokens.length).filterMap reader.see = user.stream.document.map user.see := by
    have split := List.filterMap_map (f := reader.see) (g := id) (l := List.range reader.tokens.length)
    rw [Function.id_comp] at split
    rw [← split, seen]
    simp [List.filterMap_map]
  rw [StreamUser.giveAll, ListReader.giveAll, given]

/-- A token has been put in. -/
theorem inserted (shows : Shows user reader) {gap : Nat} {cell : Cell} (inserted : Inserted user.stream gap cell t)
    (within : gap < user.stream.tokens.length)
    (gone : t.place = shifted gap user.stream.place) :
    Shows { user with stream := t }
      { reader with
        tokens := insertAt reader.tokens gap cell.kind cell.text, place := shifted gap reader.place
        held := reader.held.map (shifted gap), checkpoints := reader.checkpoints.map (shifted gap)
        ordered := reader.ordered.map (shifted gap) } where
  numbered := inserted.numbered
  dialect := inserted.dialect.trans shows.dialect
  tokens := by rw [inserted.tokens, shows.tokens]
  full := by rw [inserted.total, shows.full, ← shows.tokens, length_insertAt within]
  frontier := by
    obtain ⟨read, lexed, last⟩ := shows.frontier
    obtain ⟨before, following, after, ⟨more, grown⟩, whole, -, -, now⟩ := inserted.splices
    have unread : user.stream.unread = more.map Cell.toToken ++ t.unread := by
      rw [← grown, List.map_append, List.append_assoc] at whole
      exact List.append_cancel_left whole
    refine ⟨read ++ more.map Cell.toToken, by rw [lexed, unread, List.append_assoc], ?_⟩
    have behind : t.document.getLast?.map (·.toToken.bare) =
        (user.stream.document ++ more).getLast?.map (·.toToken.bare) := by
      rw [now, grown]
      cases after.eq_nil_or_concat with
      | inl none => simp [none, Token.bare]
      | inr some =>
        obtain ⟨rest, cell, rfl⟩ := some
        simp [List.getLast?_cons, List.getLast?_append]
    rw [behind, List.getLast?_append, List.getLast?_append, Option.map_or, Option.map_or, last, List.getLast?_map,
      Option.map_map]
    rfl
  place := by rw [gone, shows.place]
  held := List.forall₂_map_right_iff.2 (shows.held.imp fun _ _ => inserted.marks)
  checkpoints := List.forall₂_map_right_iff.2 (shows.checkpoints.imp fun _ _ => inserted.marks)
  ordered := List.forall₂_map_right_iff.2 (shows.ordered.imp fun _ _ => inserted.marks)

theorem insert (shows : Shows user reader) {index? : Option Nat} (reads : Reads user.stream t)
    (goes : TokenStream.goAfter index? user.stream = .ok () t) (kind : TokenKind) (text : String) :
    Agrees (user.take (TokenStream.insertAfter index? kind text) StreamUser.give)
      (reader.insert t.place kind text) := by
  rw [TokenStream.insertAfter_eq, ListReader.insert, ← shows.dialect]
  by_cases defined : user.stream.dialect.defines kind
  · obtain ⟨cell, u, inserts, inserted, gone, rfl, rfl⟩ := reads.insert goes defined text
    have accepted : user.stream.dialect.require cell.kind = .ok () := by simp [Dialect.require, defined]
    have within : t.place < user.stream.tokens.length := by
      rw [← reads.tokens, t.tokens_length]
      omega
    rw [StreamUser.take_ok inserts, accepted]
    exact shows.dialect ▸ (shows.inserted inserted within gone).give inserted.here
  · have refused : user.stream.dialect.require kind = .error (.undefinedKind kind user.stream.dialect) := by
      simp [Dialect.require, defined]
    obtain ⟨u, refuses, reads, stays⟩ := reads.insert_undefined goes refused text
    rw [StreamUser.take_error refuses, refused]
    exact ⟨rfl, shows.looked reads stays⟩

/-- A token in hand stands at its place in the document. -/
theorem cell_of_marks (shows : Shows user reader) {number place : Nat} (marks : user.stream.Marks number place) :
    ∃ cell, user.stream.cell? number = some cell ∧ user.stream.document[place]? = some cell ∧ cell.index = number := by
  rw [Marks, List.getElem?_map, Option.map_eq_some_iff] at marks
  obtain ⟨cell, here, rfl⟩ := marks
  exact ⟨cell, shows.numbered.cell? here, here, rfl⟩

/-- Going on to the next token that counts. -/
theorem advanced (shows : Shows user reader) : Agrees (user.use .advance) (reader.use .advance) := by
  obtain ⟨t, moves, reads, gone⟩ := shows.numbered.advance
  rw [shows.tokens, shows.place] at gone
  have here := reads.document_getElem (shows.place ▸ user.stream.document_at_place)
  rw [StreamUser.use, StreamUser.take_ok moves]
  exact (shows.reads reads gone).give here

theorem peekedKind (shows : Shows user reader) (count : Nat) :
    Agrees (user.use (.peekKind count)) (reader.use (.peekKind count)) := by
  obtain ⟨cell, t, looks, reads, stays, here⟩ := shows.numbered.peek count
  have token := TokenStream.tokens_of_document here
  rw [reads.tokens, shows.tokens, shows.place] at token
  rw [StreamUser.use, StreamUser.take_ok looks, ListReader.use, token]
  exact ⟨rfl, shows.looked reads stays⟩

theorem rewound (shows : Shows user reader) (checkpoint : Nat) :
    Agrees (user.use (.rewind checkpoint)) (reader.use (.rewind checkpoint)) := by
  rw [StreamUser.use, ListReader.use]
  rcases forall₂_getElem? shows.checkpoints checkpoint with ⟨absent, absent'⟩ | ⟨number, place, held, held', marks⟩
  · rw [absent, absent']
    exact ⟨rfl, shows⟩
  · obtain ⟨reads, gone⟩ := shows.numbered.seek marks
    rw [held, held']
    exact ⟨rfl, shows.reads reads gone⟩

theorem rewoundTo (shows : Shows user reader) (token : Nat) :
    Agrees (user.use (.rewindTo token)) (reader.use (.rewindTo token)) := by
  rw [StreamUser.use, ListReader.use]
  rcases forall₂_getElem? shows.held token with ⟨absent, absent'⟩ | ⟨number, place, held, held', marks⟩
  · rw [absent, absent']
    exact ⟨rfl, shows⟩
  · obtain ⟨cell, found, here, -⟩ := shows.cell_of_marks marks
    obtain ⟨t, goes, reads, gone⟩ := shows.numbered.rewindTo here
    rw [held, held', Option.bind_some, found]
    rw [shows.tokens] at gone
    dsimp only
    rw [StreamUser.take_ok goes]
    exact ⟨rfl, shows.reads reads gone⟩

theorem next (shows : Shows user reader) (token : Nat) :
    Agrees (user.use (.next token)) (reader.use (.next token)) := by
  rw [StreamUser.use, ListReader.use]
  rcases forall₂_getElem? shows.held token with ⟨absent, absent'⟩ | ⟨number, place, held, held', marks⟩
  · rw [absent, absent']
    exact ⟨rfl, shows⟩
  · obtain ⟨t, looks, reads, stays, same⟩ := shows.numbered.next? marks
    rw [held, held']
    dsimp only
    rw [StreamUser.take_ok looks]
    have later := shows.looked reads stays
    split
    next more =>
      rw [← shows.tokens] at more
      cases here : t.document[place + 1]? with
      | none => simp [here, more] at same
      | some cell => exact later.give here
    next last =>
      rw [← shows.tokens] at last
      rw [List.getElem?_eq_none (Nat.not_lt.1 last), Option.map_eq_none_iff] at same
      rw [same]
      exact ⟨rfl, later⟩

theorem previous (shows : Shows user reader) (token : Nat) :
    Agrees (user.use (.previous token)) (reader.use (.previous token)) := by
  rw [StreamUser.use, ListReader.use]
  rcases forall₂_getElem? shows.held token with ⟨absent, absent'⟩ | ⟨number, place, held, held', marks⟩
  · rw [absent, absent']
    exact ⟨rfl, shows⟩
  · rw [held, held']
    dsimp only
    rw [shows.numbered.previous? marks]
    cases place with
    | zero => exact ⟨rfl, shows⟩
    | succ place =>
      have within : place + 1 < user.stream.document.length := by
        simpa using (List.getElem?_eq_some_iff.1 marks).1
      have here : user.stream.document[place]? = some user.stream.document[place] :=
        List.getElem?_eq_getElem (Nat.lt_of_succ_lt within)
      rw [List.getLast?_take, if_neg (by omega), Nat.add_sub_cancel, here]
      exact shows.give here

theorem insertion (shows : Shows user reader) (after : Option Nat) (kind : TokenKind) (text : String) :
    Agrees (user.use (.insert after kind text)) (reader.use (.insert after kind text)) := by
  cases after with
  | none =>
    obtain ⟨t, goes, reads, place⟩ := shows.numbered.goAfter_none
    have agrees := shows.insert reads goes kind text
    rwa [place] at agrees
  | some token =>
    rw [StreamUser.use, ListReader.use]
    rcases forall₂_getElem? shows.held token with ⟨absent, absent'⟩ | ⟨number, place, held, held', marks⟩
    · rw [absent, absent']
      exact ⟨rfl, shows⟩
    · rw [held, held']
      dsimp only
      rw [← shows.tokens]
      split
      next more =>
        obtain ⟨t, goes, reads, gone⟩ := shows.numbered.goAfter_some marks more
        exact gone ▸ shows.insert reads goes kind text
      next last =>
        obtain ⟨t, refuses, reads, stays⟩ := shows.numbered.insertAfter_last marks last kind text
        rw [StreamUser.take_error refuses]
        exact ⟨rfl, shows.looked reads stays⟩

theorem look (shows : Shows user reader) (token : Nat) :
    Agrees (user.use (.look token)) (reader.use (.look token)) := by
  rw [StreamUser.use, ListReader.use]
  rcases forall₂_getElem? shows.held token with ⟨absent, absent'⟩ | ⟨number, place, held, held', marks⟩
  · rw [absent, absent']
    exact ⟨rfl, shows⟩
  · obtain ⟨cell, found, here, -⟩ := shows.cell_of_marks marks
    rw [held, held', Option.bind_some, found]
    exact ⟨congrArg Answer.token (shows.see here).symm, shows⟩

/-- Whatever use is made of a stream, a reader of the tokens is told the same. -/
theorem use (shows : Shows user reader) (use : StreamUse) : Agrees (user.use use) (reader.use use) := by
  have numbered := shows.numbered
  cases use with
  | current => exact shows.give (shows.place ▸ user.stream.document_at_place)
  | advance => exact shows.advanced
  | peek count =>
    obtain ⟨cell, t, looks, reads, stays, here⟩ := numbered.peek count
    rw [shows.tokens, shows.place] at here
    rw [StreamUser.use, StreamUser.take_ok looks]
    exact (shows.looked reads stays).give here
  | peekKind count => exact shows.peekedKind count
  | checkpoint =>
    refine ⟨rfl, { shows with checkpoints := ?_ }⟩
    exact List.rel_append shows.checkpoints (.cons (shows.place ▸ user.stream.marks_current) .nil)
  | rewind checkpoint => exact shows.rewound checkpoint
  | rewindTo token => exact shows.rewoundTo token
  | rewindToForeign token =>
    rw [StreamUser.use, StreamUser.take_error (TokenStream.rewindTo_foreign (by omega) token)]
    exact ⟨rfl, shows⟩
  | next token => exact shows.next token
  | previous token => exact shows.previous token
  | insert after kind text => exact shows.insertion after kind text
  | look token => exact shows.look token
  | first =>
    have nonempty : 0 < user.stream.document.length := by
      rw [TokenStream.document, List.length_append, List.length_cons]
      omega
    have here := List.getElem?_eq_getElem nonempty
    rw [StreamUser.use, List.head?_eq_getElem?, here]
    exact shows.give here
  | iterate =>
    obtain ⟨t, reads, later, stays, all⟩ := numbered.finish
    rw [StreamUser.use, StreamUser.take_ok reads]
    exact (shows.looked later stays).giveAll (all.trans later.tokens.symm)
  | finish =>
    obtain ⟨t, finishes, reads, stays, all⟩ := numbered.finish
    rw [StreamUser.use, StreamUser.take_ok finishes]
    have later := shows.looked reads stays
    have ordered := later.marks_all (all.trans reads.tokens.symm)
    exact Shows.giveAll { later with ordered } (all.trans reads.tokens.symm)

theorem answers (shows : Shows user reader) (uses : List StreamUse) : user.answers uses = reader.answers uses := by
  induction uses generalizing user reader with
  | nil => rfl
  | cons use uses ih =>
    obtain ⟨same, later⟩ := shows.use use
    rw [StreamUser.answers, ListReader.answers, same, ih later]

end Shows

theorem shows_start {s : TokenStream} (numbered : s.Numbered) (full : s.total = s.tokens.length)
    (fresh : s.place = restingPlace s.tokens 0) : Shows (.start s) (.start s.dialect s.tokens) :=
  ⟨numbered, rfl, rfl, full, ⟨s.document.map Cell.toToken, rfl, by simp [StreamUser.start, Function.comp_def]⟩, fresh,
    .nil, .nil, .nil⟩

/-- Over tokens of the dialect that end in an end of file, a stream that reads on demand and one that has read
everything give the same answers, whatever use is made of them. -/
theorem TokenStream.answers_onDemand (serial other : Nat) {d : Dialect} {tokens : List Token}
    (defined : ∀ token ∈ tokens, d.defines token.kind)
    (ended : tokens.getLast?.map (·.kind) = some .endOfFile) (uses : List StreamUse) :
    ∃ atOnce onDemand, ofTokens serial d false tokens = .ok atOnce ∧ ofTokens other d true tokens = .ok onDemand ∧
      (StreamUser.start onDemand).answers uses = (StreamUser.start atOnce).answers uses := by
  have nonempty : throughEnd tokens ≠ [] := by
    cases tokens with
    | nil => cases ended
    | cons token rest =>
      rw [throughEnd]
      split <;> exact List.cons_ne_nil _ _
  obtain ⟨atOnce, opens, numbered, full, dialect, whole, fresh⟩ := ofTokens_numbered serial false defined nonempty
  obtain ⟨onDemand, opens', numbered', full', dialect', whole', fresh'⟩ :=
    ofTokens_numbered other true defined nonempty
  refine ⟨atOnce, onDemand, opens, opens', ?_⟩
  rw [(shows_start numbered full fresh).answers, (shows_start numbered' full' fresh').answers, dialect, dialect', whole,
    whole']

/-- A comment in a file of its own, into which a name is put. -/
theorem TokenStream.answers_onDemand_comment :
    ∃ tokens : List Token, (∀ token ∈ tokens, Dialect.v26.defines token.kind) ∧
      tokens.getLast?.map (·.kind) = some .endOfFile ∧
      ∃ atOnce onDemand, ofTokens 0 .v26 false tokens = .ok atOnce ∧ ofTokens 1 .v26 true tokens = .ok onDemand ∧
        (StreamUser.start onDemand).answers [.current, .insert none .name "x", .previous 0, .finish] =
          (StreamUser.start atOnce).answers [.current, .insert none .name "x", .previous 0, .finish] :=
  ⟨[⟨.comment, "# x", "", ⟨0, 3, by decide⟩, ⟨1, 1⟩, ⟨1, 4⟩, true, false⟩,
      ⟨.endOfFile, "", "", ⟨3, 3, by decide⟩, ⟨1, 4⟩, ⟨1, 4⟩, false, false⟩],
    by decide, rfl, answers_onDemand 0 1 (by decide) rfl _⟩

end TolerantParser
