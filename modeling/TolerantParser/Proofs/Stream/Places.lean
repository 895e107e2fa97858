import Mathlib.Data.List.Nodup
import Mathlib.Data.List.TakeWhile
import TolerantParser.Proofs.Stream.Moving

/-!
A stream as the list of its tokens with a place in it. Every step on a stream is a step on that list,
whether or not it has to read: where the cursor goes depends on the tokens and on places alone, and the
number of a token only says at which place it stands (`Marks`). Nothing is asked of the kinds of the tokens,
so this holds as well after tokens of any kind have been put in by hand.
-/

namespace TolerantParser

/-! ### Places in a list of tokens -/

/-- How many comments a cursor on the first token goes over. It stays on the last token in any case. -/
def commentsInFront : List Token → Nat
  | token :: next :: rest => if token.kind == .comment then commentsInFront (next :: rest) + 1 else 0
  | _ => 0

/-- Where a cursor that is put on a place comes to rest. -/
def restingPlace (tokens : List Token) (place : Nat) : Nat := place + commentsInFront (tokens.drop place)

/-- The place of the next token that is not a comment. -/
def placeBehind (tokens : List Token) (place : Nat) : Nat :=
  if place + 1 < tokens.length then restingPlace tokens (place + 1) else place

/-- The place so many tokens on, comments not counted, but none past an end of file. -/
def placeAhead (tokens : List Token) : Nat → Nat → Nat
  | 0, place => place
  | count + 1, place =>
    if tokens[place]?.any (·.kind == .endOfFile) then place
    else placeAhead tokens count (placeBehind tokens place)

/-- The tokens with an empty one put in, in front of the token at a place, whose lead it takes over. -/
def insertAt (tokens : List Token) (place : Nat) (kind : TokenKind) (text : String) : List Token :=
  match tokens.drop place with
  | [] => tokens
  | following :: rest =>
    tokens.take place ++
      (TokenStream.placeholder ⟨following, 0⟩ kind text 0).toToken :: { following with lead := "" } :: rest

/-- Where what stood at `place` stands after a token was put in at `gap`. -/
def shifted (gap place : Nat) : Nat := if place < gap then place else place + 1

theorem insertAt_append (before : List Token) (following : Token) (rest : List Token) (kind : TokenKind)
    (text : String) : insertAt (before ++ following :: rest) before.length kind text =
      before ++ (TokenStream.placeholder ⟨following, 0⟩ kind text 0).toToken ::
        { following with lead := "" } :: rest := by
  simp [insertAt]

theorem length_insertAt {tokens : List Token} {place : Nat} (within : place < tokens.length) (kind : TokenKind)
    (text : String) : (insertAt tokens place kind text).length = tokens.length + 1 := by
  obtain ⟨before, following, rest, rfl, rfl⟩ : ∃ before following rest,
      tokens = before ++ following :: rest ∧ before.length = place :=
    ⟨tokens.take place, tokens[place], tokens.drop (place + 1), by simp, by simp; omega⟩
  rw [insertAt_append]
  simp
  omega

namespace TokenStream

variable {s t u : TokenStream} {number spot : Nat}

/-- The place of the cursor. -/
def place (s : TokenStream) : Nat := s.behind.length

/-- The tokens of a stream are told apart by their numbers, and the dialect defines what is still to be
read. -/
structure Numbered (s : TokenStream) : Prop where
  nodup : (s.document.map Cell.index).Nodup
  below : ∀ cell ∈ s.document, cell.index < s.size
  defined : ∀ token ∈ s.unread, s.dialect.defines token.kind

/-- Tokens may have been read and the cursor may have moved. -/
structure Reads (s t : TokenStream) : Prop where
  dialect : t.dialect = s.dialect
  tokens : t.tokens = s.tokens
  document : s.document <+: t.document
  total : t.total = s.total
  numbered : t.Numbered

/-- The token that stands at a spot has the number. -/
def Marks (s : TokenStream) (number spot : Nat) : Prop :=
  (s.document.map Cell.index)[spot]? = some number

theorem Numbered.reads (numbered : s.Numbered) : Reads s s :=
  ⟨rfl, rfl, List.prefix_refl _, rfl, numbered⟩

theorem Reads.trans (first : Reads s t) (second : Reads t u) : Reads s u :=
  ⟨second.dialect.trans first.dialect, second.tokens.trans first.tokens,
    first.document.trans second.document, second.total.trans first.total, second.numbered⟩

/-- What is read stands at the end of the document. -/
theorem Reads.grown (reads : Reads s t) :
    ∃ more, t.document = s.document ++ more ∧ s.unread = more.map Cell.toToken ++ t.unread := by
  obtain ⟨more, grown⟩ := reads.document
  refine ⟨more, grown.symm, ?_⟩
  have same : t.document.map Cell.toToken ++ t.unread = s.document.map Cell.toToken ++ s.unread := reads.tokens
  rw [← grown, List.map_append, List.append_assoc] at same
  exact (List.append_cancel_left same).symm

theorem Reads.marks (reads : Reads s t) (marks : s.Marks number spot) : t.Marks number spot := by
  obtain ⟨rest, grown⟩ := reads.document
  have within := (List.getElem?_eq_some_iff.1 marks).1
  rw [Marks, ← grown, List.map_append, List.getElem?_append_left within]
  exact marks

/-! ### The cursor and the tokens -/

theorem document_at_place (s : TokenStream) : s.document[s.place]? = some s.current := by
  simp [document, place]

theorem marks_of_document {cell : Cell} (here : s.document[spot]? = some cell) : s.Marks cell.index spot := by
  simp [Marks, here]

theorem marks_current (s : TokenStream) : s.Marks s.current.index s.place :=
  marks_of_document s.document_at_place

theorem tokens_of_document {cell : Cell} (here : s.document[spot]? = some cell) :
    s.tokens[spot]? = some cell.toToken := by
  have within := (List.getElem?_eq_some_iff.1 here).1
  rw [tokens, List.getElem?_append_left (by simpa using within), List.getElem?_map, here]
  rfl

theorem tokens_at_place (s : TokenStream) : s.tokens[s.place]? = some s.current.toToken :=
  tokens_of_document s.document_at_place

theorem upcoming_eq_drop (s : TokenStream) : s.upcoming = s.tokens.drop s.place := by
  have length : s.place = (s.behind.reverse.map Cell.toToken).length := by simp [place]
  rw [tokens_eq, length, List.drop_left]

theorem tokens_length (s : TokenStream) :
    s.tokens.length = s.place + 1 + s.ahead.length + s.unread.length := by
  simp [tokens, document, place]
  omega

/-- No two places have one number. -/
theorem Numbered.marks_inj (numbered : s.Numbered) {other elsewhere : Nat} (here : s.Marks number spot)
    (there : s.Marks other elsewhere) : number = other ↔ spot = elsewhere := by
  obtain ⟨within, rfl⟩ := List.getElem?_eq_some_iff.1 here
  obtain ⟨inside, rfl⟩ := List.getElem?_eq_some_iff.1 there
  exact numbered.nodup.getElem_inj_iff

theorem Numbered.document_length_le (numbered : s.Numbered) : s.document.length ≤ s.size := by
  have inside : s.document.map Cell.index ⊆ List.range s.size := by
    intro index member
    obtain ⟨cell, listed, rfl⟩ := List.mem_map.1 member
    exact List.mem_range.2 (numbered.below cell listed)
  simpa using numbered.nodup.length_le_of_subset inside

/-! ### Going to a token -/

theorem Numbered.seek_reads (numbered : s.Numbered) (number : Nat) : Reads s (s.seek number) := by
  have document := s.document_seek number
  obtain ⟨dialect, unread, size⟩ := s.seek_frame number
  refine ⟨dialect, by simp [TokenStream.tokens, document, unread], ⟨[], by simp [document]⟩,
    by rw [TokenStream.total, TokenStream.total, unread, size], by rw [document]; exact numbered.nodup, ?_, ?_⟩
  · rw [document, size]
    exact numbered.below
  · rw [dialect, unread]
    exact numbered.defined

/-- Going to a token puts the cursor on its place. -/
theorem Numbered.seek (numbered : s.Numbered) (marks : s.Marks number spot) :
    Reads s (s.seek number) ∧ (s.seek number).place = spot := by
  refine ⟨numbered.seek_reads number, ?_⟩
  obtain ⟨within, same⟩ := List.getElem?_eq_some_iff.1 marks
  rw [List.length_map] at within
  rw [List.getElem_map] at same
  have parts : s.document = s.document.take spot ++ s.document[spot] :: s.document.drop (spot + 1) := by
    rw [List.getElem_cons_drop, List.take_append_drop]
  have gone := seek_eq numbered.nodup parts
  rw [← same, gone, TokenStream.place, List.length_reverse, List.length_take]
  omega

/-- Going back to where the cursor was. -/
theorem Reads.seek_back (reads : Reads s t) :
    Reads s (t.seek s.current.index) ∧ (t.seek s.current.index).place = s.place := by
  obtain ⟨back, place⟩ := reads.numbered.seek (reads.marks s.marks_current)
  exact ⟨reads.trans back, place⟩

theorem Reads.look {α : Type} {look : StreamM α} {value : α} (looks : look s = .ok value t)
    (reads : Reads s t) :
    ∃ u, lookAround look s = .ok value u ∧ Reads t u ∧ Reads s u ∧ u.place = s.place := by
  obtain ⟨back, -⟩ := reads.numbered.seek (reads.marks s.marks_current)
  exact ⟨_, by simp [TokenStream.lookAround, looks], back, reads.seek_back⟩

/-! ### Moving on -/

theorem Numbered.pass (numbered : s.Numbered) {cell : Cell} {ahead : List Cell} (next : s.ahead = cell :: ahead) :
    Reads s { s with behind := s.current :: s.behind, current := cell, ahead } := by
  have same : TokenStream.document { s with behind := s.current :: s.behind, current := cell, ahead } =
      s.document := by simp [document, next]
  exact ⟨rfl, by simp [tokens, same], ⟨[], by simp [same]⟩, rfl,
    by rw [same]; exact numbered.nodup, by rw [same]; exact numbered.below, numbered.defined⟩

theorem Numbered.read (numbered : s.Numbered) {token : Token} {unread : List Token}
    (waiting : s.unread = token :: unread) (atEnd : s.ahead = []) :
    Reads s { s with
      behind := s.current :: s.behind, current := ⟨token, s.size⟩, unread, size := s.size + 1 } := by
  have grown : TokenStream.document { s with
      behind := s.current :: s.behind, current := ⟨token, s.size⟩, unread, size := s.size + 1 } =
        s.document ++ [⟨token, s.size⟩] := by simp [document, atEnd]
  have total : s.size + 1 + unread.length = s.total := by
    rw [TokenStream.total, waiting, List.length_cons]
    omega
  refine ⟨rfl, by simp [tokens, grown, waiting], by simp [grown], total, ?_, ?_, ?_⟩
  · rw [grown, List.map_append, List.nodup_append]
    refine ⟨numbered.nodup, by simp, ?_⟩
    intro index member other last same
    obtain ⟨cell, listed, rfl⟩ := List.mem_map.1 member
    have := numbered.below cell listed
    simp only [List.map_cons, List.map_nil, List.mem_singleton] at last
    omega
  · rw [grown]
    exact List.forall_mem_append.2 ⟨fun cell old => Nat.lt_succ_of_lt (numbered.below cell old), by simp⟩
  · exact fun other member => numbered.defined other (by simp [waiting, member])

theorem Reads.document_getElem (reads : Reads s t) {cell : Cell} (here : s.document[spot]? = some cell) :
    t.document[spot]? = some cell := by
  obtain ⟨rest, grown⟩ := reads.document
  rw [← grown, List.getElem?_append_left (List.getElem?_eq_some_iff.1 here).1]
  exact here

theorem Numbered.accepts (numbered : s.Numbered) {token : Token} {unread : List Token}
    (waiting : s.unread = token :: unread) : s.dialect.require token.kind = .ok () := by
  simp [Dialect.require, numbered.defined token (by simp [waiting])]

/-- A step goes one place on, unless the cursor is on the last token. -/
theorem Numbered.forward (numbered : s.Numbered) :
    ∃ t, forward s = .ok (s.place + 1 < s.tokens.length) t ∧ Reads s t ∧
      t.place = if s.place + 1 < s.tokens.length then s.place + 1 else s.place := by
  have length := s.tokens_length
  unfold TokenStream.forward
  split
  next cell ahead next =>
    have more : s.place + 1 < s.tokens.length := by
      rw [length, next, List.length_cons]
      omega
    exact ⟨_, by simp [more], numbered.pass next, (if_pos more).symm⟩
  next atEnd =>
    split
    next nothing =>
      have last : ¬ s.place + 1 < s.tokens.length := by simp [length, atEnd, nothing]
      exact ⟨s, by simp [last], numbered.reads, by simp [last]⟩
    next token unread waiting =>
      have more : s.place + 1 < s.tokens.length := by
        rw [length, waiting, List.length_cons]
        omega
      rw [numbered.accepts waiting]
      exact ⟨_, by simp [more], numbered.read waiting atEnd, (if_pos more).symm⟩

/-! ### Comments -/

/-- Where the cursor comes to rest. -/
def rest (s : TokenStream) : Nat := s.place + commentsInFront s.upcoming

theorem rest_eq (s : TokenStream) : s.rest = restingPlace s.tokens s.place := by
  rw [rest, restingPlace, upcoming_eq_drop]

/-- A comment that is not the last token is passed. -/
theorem rest_of_comment {next : Token} {tokens : List Token} (comment : s.current.isComment)
    (upcoming : s.upcoming = s.current.toToken :: next :: tokens) :
    s.rest = s.place + 1 + commentsInFront (next :: tokens) := by
  rw [Cell.isComment] at comment
  rw [rest, upcoming, commentsInFront, if_pos comment]
  omega

theorem rest_of_other (other : s.current.isComment = false) : s.rest = s.place := by
  rw [Cell.isComment] at other
  rw [rest, upcoming]
  cases s.ahead.map Cell.toToken ++ s.unread <;> simp [commentsInFront, other]

theorem Numbered.passComments (numbered : s.Numbered) {ahead : List Cell} (listed : s.ahead = ahead) :
    ∃ t, passComments s.behind s.current ahead = (t.behind, t.current, t.ahead) ∧
      t = { s with behind := t.behind, current := t.current, ahead := t.ahead } ∧
      Reads s t ∧ t.rest = s.rest ∧ (t.ahead = [] ∨ t.place = t.rest) := by
  induction ahead generalizing s with
  | nil => exact ⟨s, by simp [TokenStream.passComments, listed], rfl, numbered.reads, rfl, .inl listed⟩
  | cons next ahead ih =>
    rw [TokenStream.passComments]
    split
    next comment =>
      obtain ⟨t, passes, shape, reads, rests, stops⟩ := ih (numbered.pass listed).numbered rfl
      refine ⟨t, passes, shape, (numbered.pass listed).trans reads, ?_, stops⟩
      have upcoming : s.upcoming = s.current.toToken :: next.toToken :: (ahead.map Cell.toToken ++ s.unread) := by
        simp [TokenStream.upcoming, listed]
      rw [rests, rest_of_comment comment upcoming]
      rfl
    next other =>
      exact ⟨s, by rw [listed], rfl, numbered.reads, rfl, .inr (rest_of_other (by simpa using other)).symm⟩

theorem Numbered.readPastComments (numbered : s.Numbered) {unread : List Token} (waiting : s.unread = unread)
    (atEnd : s.ahead = []) (any : TokenStream) (same : s = { any with unread }) :
    ∃ t, any.readPastComments unread = .ok () t ∧ Reads s t ∧ t.place = s.rest := by
  induction unread generalizing s any with
  | nil =>
    refine ⟨s, by rw [TokenStream.readPastComments, same], numbered.reads, ?_⟩
    simp [rest, upcoming, waiting, atEnd, commentsInFront]
  | cons token unread ih =>
    have current : any.current = s.current := by rw [same]
    have defined : any.dialect.require token.kind = .ok () := by
      have := numbered.accepts waiting
      rwa [same] at this
    rw [TokenStream.readPastComments, current]
    split
    next comment =>
      rw [defined]
      have read := numbered.read waiting atEnd
      obtain ⟨t, reads, later, stops⟩ := ih read.numbered rfl atEnd
        { any with
          behind := s.current :: any.behind, current := ⟨token, any.size⟩, size := any.size + 1 }
        (by rw [same])
      refine ⟨t, reads, read.trans later, ?_⟩
      have upcoming : s.upcoming = s.current.toToken :: token :: unread := by
        simp [TokenStream.upcoming, atEnd, waiting]
      rw [stops, rest_of_comment comment upcoming]
      simp [rest, TokenStream.upcoming, atEnd, place]
    next other =>
      exact ⟨s, by rw [same], numbered.reads, (rest_of_other (by simpa using other)).symm⟩

/-- A cursor on a comment goes to the first token behind it that is none. -/
theorem Numbered.settle (numbered : s.Numbered) :
    ∃ t, settle s = .ok () t ∧ Reads s t ∧ t.place = restingPlace s.tokens s.place := by
  obtain ⟨t, passes, shape, reads, rests, stops⟩ := numbered.passComments rfl
  rw [← rest_eq, ← rests]
  unfold TokenStream.settle
  rw [passes]
  dsimp only
  rw [← shape]
  split
  next ahead =>
    have unread : t.unread = s.unread := by rw [shape]
    obtain ⟨u, readsOn, later, place⟩ :=
      reads.numbered.readPastComments unread (by simpa using ahead) t (by rw [← unread])
    exact ⟨u, readsOn, reads.trans later, place⟩
  next ahead =>
    refine ⟨t, rfl, reads, stops.resolve_left fun atEnd => ?_⟩
    simp [atEnd] at ahead

theorem Numbered.forwardSignificant (numbered : s.Numbered) :
    ∃ t, forwardSignificant s = .ok (s.place + 1 < s.tokens.length) t ∧ Reads s t ∧
      t.place = placeBehind s.tokens s.place := by
  obtain ⟨t, moves, reads, place⟩ := numbered.forward
  by_cases more : s.place + 1 < s.tokens.length
  · obtain ⟨u, settles, later, stops⟩ := reads.numbered.settle
    refine ⟨u, ?_, reads.trans later, ?_⟩
    · simp [TokenStream.forwardSignificant, bind, EStateM.bind, moves, more, settles, pure, EStateM.pure]
    · rw [stops, place, reads.tokens, placeBehind, if_pos more, if_pos more]
  · refine ⟨t, ?_, reads, ?_⟩
    · simp [TokenStream.forwardSignificant, bind, EStateM.bind, moves, more, pure, EStateM.pure]
    · rw [place, placeBehind, if_neg more, if_neg more]

/-! ### Steps by hand -/

theorem Numbered.advance (numbered : s.Numbered) :
    ∃ t, advance s = .ok s.current t ∧ Reads s t ∧ t.place = placeAhead s.tokens 1 s.place := by
  by_cases ends : s.current.kind = .endOfFile
  · refine ⟨s, ?_, numbered.reads, by simp [placeAhead, tokens_at_place, ends]⟩
    simp [TokenStream.advance, bind, EStateM.bind, get_ok, ends, pure, EStateM.pure]
  · obtain ⟨t, moves, reads, place⟩ := numbered.forwardSignificant
    refine ⟨t, ?_, reads, by simp [placeAhead, tokens_at_place, ends, place]⟩
    simp [TokenStream.advance, bind, EStateM.bind, get_ok, ends, orReturn, moves, discard, Functor.discard,
      Functor.mapConst, EStateM.map, pure, EStateM.pure]

theorem Numbered.walk (count : Nat) (numbered : s.Numbered) :
    ∃ t, peek.walk count s = .ok t.current t ∧ Reads s t ∧ t.place = placeAhead s.tokens count s.place := by
  induction count generalizing s with
  | zero => exact ⟨s, rfl, numbered.reads, rfl⟩
  | succ count ih =>
    rw [placeAhead, tokens_at_place, Option.any_some]
    by_cases ends : s.current.kind = .endOfFile
    · refine ⟨s, ?_, numbered.reads, by simp [ends]⟩
      simp [peek.walk, bind, EStateM.bind, get_ok, ends, pure, EStateM.pure]
    · obtain ⟨t, moves, reads, place⟩ := numbered.forwardSignificant
      obtain ⟨u, walks, later, stops⟩ := ih reads.numbered
      refine ⟨u, ?_, reads.trans later, by simp [stops, reads.tokens, place, ends]⟩
      simp [peek.walk, bind, EStateM.bind, get_ok, ends, discard, Functor.discard, Functor.mapConst, EStateM.map,
        moves, walks]

theorem Numbered.peek (count : Nat) (numbered : s.Numbered) :
    ∃ cell t, peek count s = .ok cell t ∧ Reads s t ∧ t.place = s.place ∧
      t.document[placeAhead s.tokens count s.place]? = some cell := by
  obtain ⟨t, walks, reads, place⟩ := numbered.walk count
  obtain ⟨u, looks, same, back, stays⟩ := reads.look walks
  exact ⟨t.current, u, looks, back, stays, same.document_getElem (place ▸ t.document_at_place)⟩

/-! ### Going to a token of the document -/

theorem Numbered.rewindTo (numbered : s.Numbered) {cell : Cell} (here : s.document[spot]? = some cell) :
    ∃ t, rewindTo s.serial cell s = .ok () t ∧ Reads s t ∧ t.place = restingPlace s.tokens spot := by
  obtain ⟨reads, place⟩ := numbered.seek (marks_of_document here)
  obtain ⟨t, settles, later, rests⟩ := reads.numbered.settle
  refine ⟨t, ?_, reads.trans later, by rw [rests, reads.tokens, place]⟩
  have own := numbered.below cell (List.mem_of_getElem? here)
  simp [TokenStream.rewindTo, bind, EStateM.bind, get_ok, Nat.not_le.2 own, orReturn, modify_ok, settles]

theorem rewindTo_foreign {serial : Nat} (foreign : serial ≠ s.serial) (cell : Cell) :
    rewindTo serial cell s = .error (.foreignToken cell.toToken) s := by
  simp [TokenStream.rewindTo, bind, EStateM.bind, get_ok, foreign, throw_error]

theorem Numbered.cell? (numbered : s.Numbered) {cell : Cell} (here : s.document[spot]? = some cell) :
    s.cell? cell.index = some cell := by
  have member := List.mem_of_getElem? here
  obtain ⟨found, search⟩ : ∃ found, s.cell? cell.index = some found :=
    Option.isSome_iff_exists.1 (List.find?_isSome.2 ⟨cell, member, by simp⟩)
  have same : found.index = cell.index := by simpa using List.find?_some search
  rw [search, List.inj_on_of_nodup_map numbered.nodup (List.mem_of_find?_eq_some search) member same]

/-! ### Neighbours -/

theorem Numbered.next? (numbered : s.Numbered) (marks : s.Marks number spot) :
    ∃ t, next? number s = .ok t.document[spot + 1]? t ∧ Reads s t ∧ t.place = s.place ∧
      t.document[spot + 1]?.map Cell.toToken = s.tokens[spot + 1]? := by
  obtain ⟨reads, place⟩ := numbered.seek marks
  obtain ⟨t, moves, later, place'⟩ := reads.numbered.forward
  rw [reads.tokens, place] at moves place'
  by_cases more : spot + 1 < s.tokens.length
  · rw [if_pos more] at place'
    have looked : (do
        modify (·.seek number)
        if ← TokenStream.forward then return some (← get).current
        return none : StreamM (Option Cell)) s = .ok (some t.current) t := by
      simp [bind, EStateM.bind, modify_ok, moves, more, get_ok, pure, EStateM.pure]
    obtain ⟨u, looks, same, back, stays⟩ := (reads.trans later).look looked
    have here := same.document_getElem (place' ▸ t.document_at_place)
    refine ⟨u, looks.trans (by rw [here]), back, stays, ?_⟩
    rw [here, ← back.tokens, tokens_of_document here]
    rfl
  · have looked : (do
        modify (·.seek number)
        if ← TokenStream.forward then return some (← get).current
        return none : StreamM (Option Cell)) s = .ok none t := by
      simp [bind, EStateM.bind, modify_ok, moves, more, pure, EStateM.pure]
    obtain ⟨u, looks, -, back, stays⟩ := (reads.trans later).look looked
    have none : s.tokens[spot + 1]? = none := List.getElem?_eq_none (Nat.not_lt.1 more)
    have beyond : u.document[spot + 1]? = Option.none := by
      rw [List.getElem?_eq_none_iff, ← List.length_map Cell.toToken]
      rw [← back.tokens, tokens] at more
      simp only [List.length_append] at more
      omega
    exact ⟨u, looks.trans (by rw [beyond]), back, stays, by rw [beyond, none]; rfl⟩

theorem behind_reverse (s : TokenStream) : s.behind.reverse = s.document.take s.place := by
  rw [document, place, ← List.length_reverse, List.take_left]

theorem Numbered.previous? (numbered : s.Numbered) (marks : s.Marks number spot) :
    s.previous? number = (s.document.take spot).getLast? := by
  obtain ⟨-, place⟩ := numbered.seek marks
  rw [TokenStream.previous?, ← List.getLast?_reverse, behind_reverse, document_seek, place]

/-! ### Reading all -/

theorem Numbered.readAll (numbered : s.Numbered) :
    ∃ t, readAll s = .ok () t ∧ Reads s t ∧ t.place = s.place ∧ t.unread = [] := by
  have all : s.unread.takeWhile (fun token => s.dialect.defines token.kind) = s.unread :=
    List.takeWhile_eq_self_iff.2 numbered.defined
  obtain ⟨cells, listed⟩ : ∃ cells, cells =
      (s.unread.zipIdx s.size).map fun pair => (⟨pair.1, pair.2⟩ : Cell) := ⟨_, rfl⟩
  have read : cells.map Cell.toToken = s.unread := by
    simp [listed, Function.comp_def, ← List.unzip_fst]
  have numbers : cells.map Cell.index = List.range' s.size cells.length := by
    simp [listed, Function.comp_def, ← List.unzip_snd]
  let t : TokenStream :=
    { s with ahead := s.ahead ++ cells, unread := [], size := s.size + cells.length }
  have reads : TokenStream.readAll s = .ok () t := by
    simp only [TokenStream.readAll, all, List.drop_length, List.tail_nil, t, listed]
  have grown : t.document = s.document ++ cells := by simp [t, document]
  have total : t.total = s.total := by
    have length := congrArg List.length read
    rw [List.length_map] at length
    simp only [TokenStream.total, t, length, List.length_nil, Nat.add_zero]
  refine ⟨t, reads, ⟨rfl, ?_, by simp [grown], total, ?_, ?_, by simp [t]⟩, rfl, rfl⟩
  · simp [tokens, grown, read, t]
  · rw [grown, List.map_append, numbers, List.nodup_append]
    refine ⟨numbered.nodup, List.nodup_range', ?_⟩
    intro index old other fresh same
    obtain ⟨cell, listed, rfl⟩ := List.mem_map.1 old
    have := numbered.below cell listed
    have := List.mem_range'_1.1 fresh
    omega
  · intro cell member
    rw [grown, List.mem_append] at member
    show cell.index < s.size + cells.length
    rcases member with old | fresh
    · have := numbered.below cell old
      omega
    · have listed := List.mem_map_of_mem (f := Cell.index) fresh
      rw [numbers, List.mem_range'_1] at listed
      omega

theorem Numbered.finish (numbered : s.Numbered) :
    ∃ t, finish s = .ok t.document t ∧ Reads s t ∧ t.place = s.place ∧
      t.document.map Cell.toToken = s.tokens := by
  obtain ⟨t, reads, later, place, unread⟩ := numbered.readAll
  refine ⟨t, bind_ok reads _, later, place, ?_⟩
  rw [← later.tokens, tokens, unread, List.append_nil]

/-! ### Putting a token in -/

/-- In a document that may have grown, the token stands in front of the one that was at the place and whose
lead it has taken over. -/
def Splices (s : TokenStream) (gap : Nat) (cell : Cell) (t : TokenStream) : Prop :=
  ∃ before following after, s.document <+: before ++ following :: after ∧
    s.tokens = (before ++ following :: after).map Cell.toToken ++ t.unread ∧ before.length = gap ∧
    cell = placeholder following cell.kind cell.text cell.index ∧
    t.document = before ++ cell :: { following with lead := "" } :: after

/-- A token has been put in at a place; more may have been read. -/
structure Inserted (s : TokenStream) (gap : Nat) (cell : Cell) (t : TokenStream) : Prop where
  dialect : t.dialect = s.dialect
  tokens : t.tokens = insertAt s.tokens gap cell.kind cell.text
  splices : Splices s gap cell t
  total : t.total = s.total + 1
  marks : ∀ {number spot : Nat}, s.Marks number spot → t.Marks number (shifted gap spot)
  here : t.document[gap]? = some cell
  numbered : t.Numbered

theorem Numbered.insertHere (numbered : s.Numbered) {kind : TokenKind} (defined : s.dialect.defines kind)
    (text : String) : ∃ cell t, insertHere kind text s = .ok cell t ∧ Inserted s s.place cell t ∧
      cell.kind = kind ∧ cell.text = text := by
  have accepted : s.dialect.require kind = .ok () := by simp [Dialect.require, defined]
  obtain ⟨cell, shape⟩ : ∃ cell, cell = placeholder s.current kind text s.size := ⟨_, rfl⟩
  let t : TokenStream := { s with
    behind := cell :: s.behind, current := { s.current with lead := "" }, size := s.size + 1 }
  have inserts : TokenStream.insertHere kind text s = .ok cell t := by
    simp only [TokenStream.insertHere, accepted, shape, t]
  have number : cell.index = s.size := by rw [shape]; rfl
  have indices : t.document.map Cell.index =
      s.behind.reverse.map Cell.index ++ s.size :: (s.current :: s.ahead).map Cell.index := by
    simp [t, document, number]
  have before : s.document.map Cell.index =
      s.behind.reverse.map Cell.index ++ (s.current :: s.ahead).map Cell.index := by
    simp [document]
  have length : (s.behind.reverse.map Cell.index).length = s.place := by simp [place]
  have splices : Splices s s.place cell t :=
    ⟨s.behind.reverse, s.current, s.ahead, List.prefix_refl _, rfl, by simp [place], by rw [shape]; rfl,
      by simp [t, document]⟩
  have total : t.total = s.total + 1 := Nat.add_right_comm ..
  refine ⟨cell, t, inserts, ⟨rfl, ?_, splices, total, ?_, by simp [t, document, place], ?_, ?_, numbered.defined⟩,
    by rw [shape]; rfl, by rw [shape]; rfl⟩
  · have parts : s.place = (s.behind.reverse.map Cell.toToken).length := by simp [place]
    rw [tokens_eq, tokens_eq s, parts, upcoming, upcoming, insertAt_append]
    simp [t, shape, placeholder]
  · intro number spot marks
    rw [Marks, before] at marks
    rw [Marks, indices, shifted]
    by_cases early : spot < s.place
    · rw [if_pos early]
      rw [List.getElem?_append_left (by omega)] at marks ⊢
      exact marks
    · rw [if_neg early]
      rw [List.getElem?_append_right (by omega)] at marks ⊢
      rw [length] at marks ⊢
      rw [show spot + 1 - s.place = spot - s.place + 1 by omega, List.getElem?_cons_succ]
      exact marks
  · have fresh : s.size ∉ s.document.map Cell.index := by
      intro member
      obtain ⟨cell, listed, same⟩ := List.mem_map.1 member
      exact absurd (numbered.below cell listed) (by omega)
    rw [indices, List.perm_middle.nodup_iff, ← before]
    exact List.nodup_cons.2 ⟨fresh, numbered.nodup⟩
  · intro other member
    have listed := List.mem_map_of_mem (f := Cell.index) member
    rw [indices, List.perm_middle.mem_iff, ← before, List.mem_cons] at listed
    show other.index < s.size + 1
    rcases listed with same | old
    · omega
    · obtain ⟨cell, present, same⟩ := List.mem_map.1 old
      have := numbered.below cell present
      omega

theorem insertHere_undefined {kind : TokenKind} {fault : Fault} (refused : s.dialect.require kind = .error fault)
    (text : String) : insertHere kind text s = .error fault s := by
  rw [insertHere, refused]

theorem Reads.inserted {gap : Nat} {cell : Cell} (reads : Reads s t) (inserted : Inserted t gap cell u) :
    Inserted s gap cell u where
  dialect := inserted.dialect.trans reads.dialect
  tokens := by rw [inserted.tokens, reads.tokens]
  splices := by
    obtain ⟨before, following, after, grown, whole, parts⟩ := inserted.splices
    exact ⟨before, following, after, reads.document.trans grown, reads.tokens ▸ whole, parts⟩
  total := by rw [inserted.total, reads.total]
  marks := fun marks => inserted.marks (reads.marks marks)
  here := inserted.here
  numbered := inserted.numbered

theorem Inserted.reads {gap : Nat} {cell : Cell} (inserted : Inserted s gap cell t) (reads : Reads t u) :
    Inserted s gap cell u where
  dialect := reads.dialect.trans inserted.dialect
  tokens := by rw [reads.tokens, inserted.tokens]
  splices := by
    obtain ⟨before, following, after, grown, whole, length, shape, now⟩ := inserted.splices
    obtain ⟨more, later, unread⟩ := reads.grown
    refine ⟨before, following, after ++ more, grown.trans ⟨more, by simp⟩, ?_, length, shape, by rw [later, now]; simp⟩
    rw [whole, unread]
    simp
  total := by rw [reads.total, inserted.total]
  marks := fun marks => reads.marks (inserted.marks marks)
  here := reads.document_getElem inserted.here
  numbered := reads.numbered

/-- A token put in where some steps have gone; the cursor is then back at the token where it was. -/
theorem Reads.insert {go : StreamM Unit} (reads : Reads s t) (goes : go s = .ok () t) {kind : TokenKind}
    (defined : s.dialect.defines kind) (text : String) :
    ∃ cell u, lookAround (do go; insertHere kind text) s = .ok cell u ∧ Inserted s t.place cell u ∧
      u.place = shifted t.place s.place ∧ cell.kind = kind ∧ cell.text = text := by
  obtain ⟨cell, u, inserts, inserted, same⟩ := reads.numbered.insertHere (by rwa [reads.dialect]) text
  have all := reads.inserted inserted
  obtain ⟨back, place⟩ := all.numbered.seek (all.marks s.marks_current)
  refine ⟨cell, u.seek s.current.index, ?_, all.reads back, place, same⟩
  simp [TokenStream.lookAround, bind, EStateM.bind, goes, inserts]

theorem Reads.insert_undefined {go : StreamM Unit} (reads : Reads s t) (goes : go s = .ok () t)
    {kind : TokenKind} {fault : Fault} (refused : s.dialect.require kind = .error fault) (text : String) :
    ∃ u, lookAround (do go; insertHere kind text) s = .error fault u ∧ Reads s u ∧ u.place = s.place := by
  obtain ⟨back, place⟩ := reads.seek_back
  refine ⟨_, ?_, back, place⟩
  have refused := insertHere_undefined (s := t) (reads.dialect ▸ refused) text
  simp [TokenStream.lookAround, bind, EStateM.bind, goes, refused]

/-- Where `insertAfter` puts a token in. -/
def goAfter (index? : Option Nat) : StreamM Unit :=
  match index? with
  | none => modify rewindToFirst
  | some index => do
    modify (·.seek index)
    unless ← forward do throw .pastEnd

theorem insertAfter_eq (index? : Option Nat) (kind : TokenKind) (text : String) :
    insertAfter index? kind text = lookAround (do goAfter index?; insertHere kind text) := by
  cases index? with
  | none => rfl
  | some index =>
    refine congrArg lookAround (funext fun s => ?_)
    simp only [goAfter, bind, EStateM.bind, modify_ok]
    cases forward (s.seek index) with
    | ok more t => cases more <;> rfl
    | error fault t => rfl

theorem Numbered.goAfter_none (numbered : s.Numbered) :
    ∃ t, goAfter none s = .ok () t ∧ Reads s t ∧ t.place = 0 := by
  refine ⟨s.rewindToFirst, rfl, ?_⟩
  unfold rewindToFirst
  split
  next nothing => simp [document] at nothing
  next first rest parts =>
    have same : TokenStream.document { s with behind := [], current := first, ahead := rest } = s.document := by
      simp [document, ← parts]
    refine ⟨⟨rfl, by simp [tokens, same], ⟨[], by simp [same]⟩, rfl, ?_⟩, rfl⟩
    exact ⟨by rw [same]; exact numbered.nodup, by rw [same]; exact numbered.below, numbered.defined⟩

theorem Numbered.goAfter_some (numbered : s.Numbered) (marks : s.Marks number spot)
    (more : spot + 1 < s.tokens.length) :
    ∃ t, goAfter (some number) s = .ok () t ∧ Reads s t ∧ t.place = spot + 1 := by
  obtain ⟨reads, place⟩ := numbered.seek marks
  obtain ⟨t, moves, later, place'⟩ := reads.numbered.forward
  rw [reads.tokens, place] at moves place'
  refine ⟨t, ?_, reads.trans later, by rw [place', if_pos more]⟩
  simp [goAfter, bind, EStateM.bind, modify_ok, moves, more, pure, EStateM.pure]

/-- Nothing is put in behind the last token. -/
theorem Numbered.insertAfter_last (numbered : s.Numbered) (marks : s.Marks number spot)
    (last : ¬ spot + 1 < s.tokens.length) (kind : TokenKind) (text : String) :
    ∃ t, insertAfter (some number) kind text s = .error .pastEnd t ∧ Reads s t ∧ t.place = s.place := by
  obtain ⟨reads, place⟩ := numbered.seek marks
  obtain ⟨t, moves, later, -⟩ := reads.numbered.forward
  rw [reads.tokens, place] at moves
  obtain ⟨back, stays⟩ := (reads.trans later).seek_back
  refine ⟨_, ?_, back, stays⟩
  simp [insertAfter_eq, goAfter, TokenStream.lookAround, bind, EStateM.bind, modify_ok, moves, last, throw_error]

/-! ### A fresh stream -/

theorem mem_of_mem_throughEnd {token : Token} {tokens : List Token} (member : token ∈ throughEnd tokens) :
    token ∈ tokens := by
  induction tokens with
  | nil => cases member
  | cons first rest ih =>
    rw [throughEnd] at member
    split at member
    · rw [List.mem_singleton.1 member]
      exact List.mem_cons_self ..
    · rcases List.mem_cons.1 member with rfl | later
      · exact List.mem_cons_self ..
      · exact List.mem_cons_of_mem _ (ih later)

/-- Once the first token is accepted and its reading goes well, the stream is made. -/
theorem ofTokens_ok {serial : Nat} {d : Dialect} {onDemand : Bool} {tokens unread : List Token} {token : Token}
    (whole : throughEnd tokens = token :: unread) (accepted : d.defines token.kind)
    (reads : (do unless onDemand do TokenStream.readAll
                 TokenStream.settle : StreamM Unit)
      { serial, dialect := d, behind := [], current := ⟨token, 0⟩, ahead := [], unread, size := 1 } = .ok () s) :
    ofTokens serial d onDemand tokens = .ok s := by
  have required : d.require token.kind = .ok () := by simp [Dialect.require, accepted]
  dsimp only at reads
  simp only [ofTokens, whole, required]
  rw [reads]
  rfl

/-- A fresh stream has its cursor on the first token that is not a comment. -/
theorem ofTokens_numbered (serial : Nat) {d : Dialect} (onDemand : Bool) {tokens : List Token}
    (defined : ∀ token ∈ tokens, d.defines token.kind) (nonempty : throughEnd tokens ≠ []) :
    ∃ s, ofTokens serial d onDemand tokens = .ok s ∧ s.Numbered ∧ s.total = s.tokens.length ∧ s.dialect = d ∧
      s.tokens = throughEnd tokens ∧ s.place = restingPlace s.tokens 0 := by
  obtain ⟨token, unread, whole⟩ := List.exists_cons_of_ne_nil nonempty
  have all : ∀ token ∈ throughEnd tokens, d.defines token.kind :=
    fun token member => defined token (mem_of_mem_throughEnd member)
  let first : TokenStream :=
    { serial, dialect := d, behind := [], current := ⟨token, 0⟩, ahead := [], unread, size := 1 }
  have numbered : first.Numbered := by
    refine ⟨by simp [first, document], by simp [first, document], ?_⟩
    exact fun other member => all other (by simp [whole, show other ∈ unread from member])
  have reads : ∃ s, (do unless onDemand do TokenStream.readAll
                        TokenStream.settle : StreamM Unit) first = .ok () s ∧ Reads first s ∧
      s.place = restingPlace first.tokens 0 := by
    cases onDemand with
    | true => exact numbered.settle
    | false =>
      obtain ⟨s, reads, later, place, -⟩ := numbered.readAll
      obtain ⟨t, settles, more, rests⟩ := later.numbered.settle
      exact ⟨t, (bind_ok reads _).trans settles, later.trans more, by rw [rests, later.tokens, place]; rfl⟩
  obtain ⟨s, reads, later, rests⟩ := reads
  have begun : first.tokens = token :: unread := by simp [first, TokenStream.tokens, document]
  have full : s.total = s.tokens.length := by
    rw [later.total, later.tokens, begun, List.length_cons]
    exact Nat.add_comm ..
  refine ⟨s, ofTokens_ok whole (all token (by simp [whole])) reads, later.numbered, full, later.dialect, ?_,
    by rw [rests, later.tokens]⟩
  rw [later.tokens, whole, begun]

end TokenStream

end TolerantParser
