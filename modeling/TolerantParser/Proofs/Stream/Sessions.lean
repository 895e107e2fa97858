import Mathlib.Data.List.Perm.Subperm
import TolerantParser.Proofs.Lexer.Cuts
import TolerantParser.Proofs.Lexer.Layout
import TolerantParser.Proofs.Stream.OnDemand
import TolerantParser.Proofs.Stream.Reading

/-!
What use leaves of a stream. What it shows is a list of tokens with places in it (`ListReader`), so the law of a whole
session is one about lists: whatever is put in, what was cut from the text stays in its order, nothing of it is lost,
and the places are on tokens (`ListReader.Kept`).

A token that is to be put in stands behind the one that was named afterwards, or is refused and changes nothing
(`TokenStream.Receives`).
-/

namespace TolerantParser

open TokenStream (Marks Numbered Reads)

/-! ### What is left of a text -/

/-- The tokens that were cut from a text, without their leads. -/
def ofText (tokens : List Token) : List Token := (tokens.filter (!·.synthetic)).map Token.bare

@[simp] theorem ofText_append (tokens more : List Token) : ofText (tokens ++ more) = ofText tokens ++ ofText more := by
  simp [ofText]

/-- The tokens with a token put in, if there is a place for it. -/
theorem insertAt_cases (tokens : List Token) (gap : Nat) (kind : TokenKind) (text : String) :
    insertAt tokens gap kind text = tokens ∨
      ∃ before following rest, tokens = before ++ following :: rest ∧ before.length = gap ∧
        insertAt tokens gap kind text =
          before ++ (TokenStream.placeholder ⟨following, 0⟩ kind text 0).toToken ::
            { following with lead := "" } :: rest := by
  by_cases within : gap < tokens.length
  · have parts : tokens = tokens.take gap ++ tokens[gap] :: tokens.drop (gap + 1) := by simp
    have length : (tokens.take gap).length = gap := by
      rw [List.length_take]
      omega
    refine .inr ⟨_, _, _, parts, length, ?_⟩
    have put := insertAt_append (tokens.take gap) tokens[gap] (tokens.drop (gap + 1)) kind text
    rwa [← parts, length] at put
  · left
    rw [insertAt, List.drop_eq_nil_of_le (by omega)]

theorem ofText_insertAt (tokens : List Token) (gap : Nat) (kind : TokenKind) (text : String) :
    ofText (insertAt tokens gap kind text) = ofText tokens := by
  rcases insertAt_cases tokens gap kind text with same | ⟨before, following, rest, rfl, -, now⟩
  · rw [same]
  · rw [now]
    cases real : following.synthetic <;> simp [ofText, TokenStream.placeholder, real, Token.bare]

theorem sourceOf_insertAt (tokens : List Token) (gap : Nat) (kind : TokenKind) (text : String) :
    sourceOf (insertAt tokens gap kind text) = sourceOf tokens := by
  rcases insertAt_cases tokens gap kind text with same | ⟨before, following, rest, rfl, -, now⟩
  · rw [same]
  · rw [now]
    simp [sourceOf, TokenStream.placeholder]

/-! ### Places that are not on comments -/

/-- At the place stands a token that is not a comment. -/
def Stands (tokens : List Token) (place : Nat) : Prop := tokens[place]?.any (·.kind != .comment)

/-- The last token ends the file. -/
def EndsFile (tokens : List Token) : Prop :=
  ∃ token ∈ tokens.getLast?, token.kind = .endOfFile

/-- The last token was cut from the text and ends the file. -/
def EndsReal (tokens : List Token) : Prop :=
  ∃ token ∈ tokens.getLast?, token.kind = .endOfFile ∧ token.synthetic = false

theorem Stands.lt {tokens : List Token} {place : Nat} (stands : Stands tokens place) : place < tokens.length := by
  rw [Stands, Option.any_eq_true] at stands
  obtain ⟨token, here, -⟩ := stands
  exact (List.getElem?_eq_some_iff.1 here).1

theorem EndsReal.endsFile {tokens : List Token} (ended : EndsReal tokens) : EndsFile tokens := by
  obtain ⟨last, listed, ends, -⟩ := ended
  exact ⟨last, listed, ends⟩

theorem stands_commentsInFront {tokens : List Token} (ended : EndsFile tokens) :
    Stands tokens (commentsInFront tokens) := by
  induction tokens with
  | nil => simp [EndsFile] at ended
  | cons token rest ih =>
    cases rest with
    | nil =>
      obtain ⟨last, listed, ends⟩ := ended
      obtain rfl : token = last := by simpa using listed
      simp [commentsInFront, Stands, ends]
    | cons next rest =>
      rw [commentsInFront]
      split
      · have later : EndsFile (next :: rest) := by simpa [EndsFile] using ended
        simpa [Stands] using ih later
      next other => simpa [Stands] using other

/-- A cursor comes to rest on a token that is not a comment. -/
theorem stands_restingPlace {tokens : List Token} (ended : EndsFile tokens) {place : Nat}
    (within : place < tokens.length) : Stands tokens (restingPlace tokens place) := by
  have later : EndsFile (tokens.drop place) := by
    obtain ⟨last, listed, ends⟩ := ended
    exact ⟨last, by rwa [List.getLast?_drop, if_neg (by omega)], ends⟩
  have stands := stands_commentsInFront later
  rwa [Stands, List.getElem?_drop] at stands

theorem stands_placeBehind {tokens : List Token} (ended : EndsFile tokens) {place : Nat}
    (stands : Stands tokens place) : Stands tokens (placeBehind tokens place) := by
  unfold placeBehind
  split
  next more => exact stands_restingPlace ended more
  next last => exact stands

theorem stands_placeAhead {tokens : List Token} (ended : EndsFile tokens) (count : Nat) {place : Nat}
    (stands : Stands tokens place) : Stands tokens (placeAhead tokens count place) := by
  induction count generalizing place with
  | zero => exact stands
  | succ count ih =>
    unfold placeAhead
    split
    next => exact stands
    next => exact ih (stands_placeBehind ended stands)

/-- What stood at a place still stands there, or one place on, with another lead at most. -/
theorem kind_insertAt_shifted (tokens : List Token) (gap place : Nat) (kind : TokenKind) (text : String)
    (within : gap < tokens.length) :
    (insertAt tokens gap kind text)[shifted gap place]?.map (·.kind) = tokens[place]?.map (·.kind) := by
  rcases insertAt_cases tokens gap kind text with same | ⟨before, following, rest, rfl, rfl, now⟩
  · have grown := length_insertAt within kind text
    rw [same] at grown
    omega
  · rw [now, shifted]
    by_cases early : place < before.length
    · rw [if_pos early, List.getElem?_append_left early, List.getElem?_append_left early]
    · rw [if_neg early, List.getElem?_append_right (by omega), List.getElem?_append_right (by omega),
        show place + 1 - before.length = place - before.length + 1 by omega, List.getElem?_cons_succ]
      cases place - before.length <;> rfl

theorem Stands.insertAt {tokens : List Token} {gap place : Nat} (stands : Stands tokens place)
    (within : gap < tokens.length) (kind : TokenKind) (text : String) :
    Stands (insertAt tokens gap kind text) (shifted gap place) := by
  have same := kind_insertAt_shifted tokens gap place kind text within
  have by_kind : ∀ token? : Option Token, token?.any (·.kind != .comment) = (token?.map (·.kind)).any (· != .comment) :=
    fun token? => by cases token? <;> rfl
  rwa [Stands, by_kind, same, ← by_kind]

theorem EndsReal.insertAt {tokens : List Token} (ended : EndsReal tokens) (gap : Nat) (kind : TokenKind)
    (text : String) : EndsReal (insertAt tokens gap kind text) := by
  rcases insertAt_cases tokens gap kind text with same | ⟨before, following, rest, rfl, -, now⟩
  · rwa [same]
  · obtain ⟨last, listed, ends⟩ := ended
    rw [now]
    cases rest.eq_nil_or_concat with
    | inl none =>
      subst none
      obtain rfl : following = last := by simpa using listed
      exact ⟨{ following with lead := "" }, by simp, ends⟩
    | inr some =>
      obtain ⟨rest, token, rfl⟩ := some
      exact ⟨last, by simpa [List.getLast?_cons, List.getLast?_append] using listed, ends⟩

/-! ### A list of tokens in use -/

/-- The text of the reader is still the one it was made from, and the places are on tokens. -/
structure ListReader.Kept (lexed : List Token) (reader : ListReader) : Prop where
  origin : reader.lexed = lexed
  text : ofText reader.tokens = ofText lexed
  source : sourceOf reader.tokens = sourceOf lexed
  ended : EndsReal reader.tokens
  place : Stands reader.tokens reader.place
  checkpoints : ∀ place ∈ reader.checkpoints, Stands reader.tokens place
  held : ∀ place ∈ reader.held, place < reader.tokens.length

namespace ListReader

variable {lexed : List Token} {reader : ListReader}

/-- The reader after a whole session. -/
def after (reader : ListReader) : List StreamUse → ListReader
  | [] => reader
  | use :: uses => (reader.use use).2.after uses

namespace Kept

theorem give (kept : reader.Kept lexed) {place : Nat} (within : place < reader.tokens.length) :
    (reader.give place).2.Kept lexed :=
  { kept with held := List.forall_mem_append.2 ⟨kept.held, List.forall_mem_singleton.2 within⟩ }

theorem giveAll (kept : reader.Kept lexed) : reader.giveAll.2.Kept lexed :=
  { kept with held := List.forall_mem_append.2 ⟨kept.held, fun _ => List.mem_range.1⟩ }

theorem move (kept : reader.Kept lexed) {place : Nat} (stands : Stands reader.tokens place) :
    { reader with place }.Kept lexed :=
  { kept with place := stands }

theorem insert (kept : reader.Kept lexed) {gap : Nat} (within : gap < reader.tokens.length) (kind : TokenKind)
    (text : String) : (reader.insert gap kind text).2.Kept lexed := by
  unfold ListReader.insert
  split
  next => exact kept
  next =>
    have length := length_insertAt within kind text
    refine give ?_ (by rw [length]; omega)
    refine ⟨kept.origin, (ofText_insertAt ..).trans kept.text, (sourceOf_insertAt ..).trans kept.source,
      kept.ended.insertAt .., kept.place.insertAt within .., ?_, ?_⟩
    · exact List.forall_mem_map.2 fun place listed => (kept.checkpoints place listed).insertAt within ..
    · refine List.forall_mem_map.2 fun place listed => ?_
      have := kept.held place listed
      rw [length, shifted]
      split <;> omega

/-- Whatever use is made of a reader, its text stays. -/
theorem use (kept : reader.Kept lexed) (use : StreamUse) : (reader.use use).2.Kept lexed := by
  have held {token place : Nat} (has : reader.held[token]? = some place) : place < reader.tokens.length :=
    kept.held place (List.mem_of_getElem? has)
  have nonempty : 0 < reader.tokens.length := Nat.zero_lt_of_lt kept.place.lt
  cases use with
  | current => exact kept.give kept.place.lt
  | advance =>
    refine give (kept.move ?_) kept.place.lt
    exact stands_placeAhead kept.ended.endsFile 1 kept.place
  | peek count => exact kept.give (stands_placeAhead kept.ended.endsFile count kept.place).lt
  | peekKind count =>
    rw [ListReader.use]
    split <;> exact kept
  | checkpoint =>
    exact { kept with
      checkpoints := List.forall_mem_append.2 ⟨kept.checkpoints, List.forall_mem_singleton.2 kept.place⟩ }
  | rewind checkpoint =>
    rw [ListReader.use]
    split
    next => exact kept
    next place has => exact kept.move (kept.checkpoints place (List.mem_of_getElem? has))
  | rewindTo token =>
    rw [ListReader.use]
    split
    next => exact kept
    next place has => exact kept.move (stands_restingPlace kept.ended.endsFile (held has))
  | rewindToForeign token => exact kept
  | next token =>
    rw [ListReader.use]
    split
    next => exact kept
    next place has =>
      split
      next more => exact kept.give more
      next => exact kept
  | previous token =>
    rw [ListReader.use]
    split
    next => exact kept
    next => exact kept
    next place has => exact kept.give (Nat.lt_of_succ_lt (held has))
  | insert after kind text =>
    cases after with
    | none => exact kept.insert nonempty kind text
    | some token =>
      rw [ListReader.use]
      split
      next => exact kept
      next place has =>
        split
        next more => exact kept.insert more kind text
        next => exact kept
  | look token =>
    rw [ListReader.use]
    split <;> exact kept
  | first => exact kept.give nonempty
  | iterate => exact kept.giveAll
  | finish => exact giveAll { kept with }

theorem after (kept : reader.Kept lexed) (uses : List StreamUse) : (reader.after uses).Kept lexed := by
  induction uses generalizing reader with
  | nil => exact kept
  | cons use uses ih => exact ih (kept.use use)

end Kept

/-- A reader over tokens that end with the file, none of them put in. -/
theorem kept_start {d : Dialect} (ended : EndsOnce (lexed.map (·.kind)))
    (real : ∀ token ∈ lexed, token.synthetic = false) : (start d lexed).Kept lexed := by
  have ends : EndsReal lexed := by
    obtain ⟨before, kinds, -⟩ := ended
    have last := congrArg List.getLast? kinds
    rw [List.getLast?_map, List.getLast?_concat, Option.map_eq_some_iff] at last
    obtain ⟨token, listed, kind⟩ := last
    exact ⟨token, listed, kind, real token (List.mem_of_getLast? listed)⟩
  have within : 0 < lexed.length := by
    obtain ⟨token, listed, -⟩ := ends
    exact List.length_pos_of_mem (List.mem_of_getLast? listed)
  exact ⟨rfl, rfl, rfl, ends, stands_restingPlace ends.endsFile within, by simp [start], by simp [start]⟩

end ListReader

/-- The user after a whole session. -/
def StreamUser.after (user : StreamUser) : List StreamUse → StreamUser
  | [] => user
  | use :: uses => (user.use use).2.after uses

theorem Shows.after {user : StreamUser} {reader : ListReader} (shows : Shows user reader) (uses : List StreamUse) :
    Shows (user.after uses) (reader.after uses) := by
  induction uses generalizing user reader with
  | nil => exact shows
  | cons use uses ih => exact ih (shows.use use).2

/-! ### The document of a stream -/

namespace TokenStream

variable {lexed : List Token} {s t : TokenStream}

/-- A token of the kind and with the text stands behind the one that was named, or at the front, and in front of
the one that stood there and whose lead it has taken over. More may have been read, and the cursor is on the
token it was on. -/
def Puts (s : TokenStream) (after : Option Nat) (kind : TokenKind) (text : String) (cell : Cell) (t : TokenStream) :
    Prop :=
  s.dialect.defines kind ∧ ∃ before following rest, s.document <+: before ++ following :: rest ∧
    s.tokens = (before ++ following :: rest).map Cell.toToken ++ t.unread ∧
    before.getLast?.map Cell.index = after ∧ cell = placeholder following kind text cell.index ∧
    t.document = before ++ cell :: { following with lead := "" } :: rest ∧ t.current.index = s.current.index

/-- A token is refused behind the last one, or if the dialect does not define its kind. More may have been read,
and nothing else has changed. -/
def Refuses (s : TokenStream) (after : Option Nat) (kind : TokenKind) (fault : Fault) (t : TokenStream) : Prop :=
  (fault = .pastEnd ∧ (∃ cell ∈ s.document.getLast?, some cell.index = after) ∧ s.unread = [] ∨
    fault = .undefinedKind kind s.dialect ∧ ¬ s.dialect.defines kind) ∧
  s.document <+: t.document ∧ t.tokens = s.tokens ∧ t.current = s.current

/-- A token that is to be put in behind any token of the document, or at the front, is put in or refused. -/
def Receives (s : TokenStream) : Prop :=
  ∀ (after : Option Nat) (kind : TokenKind) (text : String), (∀ number ∈ after, number ∈ s.document.map Cell.index) →
    (∃ cell t, insertAfter after kind text s = .ok cell t ∧ s.Puts after kind text cell t) ∨
      ∃ fault t, insertAfter after kind text s = .error fault t ∧ s.Refuses after kind fault t

/-! ### A session -/

/-- The token at the cursor is not a comment. -/
theorem current_of_stands {tokens : List Token} (shown : s.tokens = tokens) (stands : Stands tokens s.place) :
    s.current.kind ≠ .comment := by
  rw [Stands, ← shown, tokens_at_place] at stands
  simpa using stands

/-- Once the end of the file has been read, nothing is left unread. -/
theorem unread_of_ended {read : List Token} (ended : EndsOnce (lexed.map (·.kind)))
    (parts : lexed = read ++ s.unread) (kept : ofText (s.document.map Cell.toToken) = ofText read)
    (met : ∃ cell ∈ s.document, cell.kind = .endOfFile ∧ cell.synthetic = false) : s.unread = [] := by
  by_contra more
  obtain ⟨cell, member, ends, real⟩ := met
  have listed : cell.toToken.bare ∈ ofText read := by
    rw [← kept]
    exact List.mem_map_of_mem (List.mem_filter.2 ⟨List.mem_map_of_mem member, by simp [real]⟩)
  obtain ⟨token, present, same⟩ := List.mem_map.1 listed
  have kind : token.kind = .endOfFile := by rw [← ends, ← show token.bare.kind = cell.kind by rw [same]; rfl]; rfl
  rw [parts, List.map_append, endsOnce_append (by simpa using more)] at ended
  exact ended.1 (kind ▸ List.mem_map_of_mem (List.mem_filter.1 present).1)

/-! ### Putting a token in -/

/-- A cursor that has not moved is on the token it was on. -/
theorem Reads.current_eq (reads : Reads s t) (stays : t.place = s.place) : t.current = s.current := by
  have here := reads.document_getElem s.document_at_place
  rw [← stays, document_at_place] at here
  exact Option.some.inj here

/-- The token in front of a gap is the one behind which a token is put in. -/
theorem getLast?_of_marks {number spot : Nat} (marks : s.Marks number spot) {before rest : List Cell}
    (grown : s.document <+: before ++ rest) (length : before.length = spot + 1) :
    before.getLast?.map Cell.index = some number := by
  obtain ⟨more, grown⟩ := grown
  have within : spot < s.document.length := by simpa using (List.getElem?_eq_some_iff.1 marks).1
  have same : s.document[spot]? = before[spot]? := by
    rw [← List.getElem?_append_left within, grown, List.getElem?_append_left (by omega)]
  rw [Marks, List.getElem?_map, same] at marks
  rwa [List.getLast?_eq_getElem?, length]

/-- What `insertAfter` does once the stream has gone to a gap. -/
theorem Reads.receives {after : Option Nat} (reads : Reads s t) (goes : goAfter after s = .ok () t)
    (behind : ∀ before rest, s.document <+: before ++ rest → before.length = t.place →
      before.getLast?.map Cell.index = after) (kind : TokenKind) (text : String) :
    (∃ cell u, insertAfter after kind text s = .ok cell u ∧ s.Puts after kind text cell u) ∨
      ∃ fault u, insertAfter after kind text s = .error fault u ∧ s.Refuses after kind fault u := by
  rw [insertAfter_eq]
  by_cases defined : s.dialect.defines kind
  · left
    obtain ⟨cell, u, inserts, inserted, place, rfl, rfl⟩ := reads.insert goes defined text
    obtain ⟨before, following, rest, grown, whole, length, shape, now⟩ := inserted.splices
    have cursor : u.current.index = s.current.index := by
      have here := inserted.marks s.marks_current
      rw [← place, Marks, List.getElem?_map, document_at_place] at here
      exact Option.some.inj here
    exact ⟨cell, u, inserts, defined, before, following, rest, grown, whole, behind _ _ grown length,
      shape, now, cursor⟩
  · right
    have refused : s.dialect.require kind = .error (.undefinedKind kind s.dialect) := by
      simp [Dialect.require, defined]
    obtain ⟨u, refuses, reads, stays⟩ := reads.insert_undefined goes refused text
    exact ⟨_, u, refuses, .inr ⟨rfl, defined⟩, reads.document, reads.tokens, reads.current_eq stays⟩

theorem Numbered.receives (numbered : s.Numbered) : s.Receives := by
  intro after kind text listed
  cases after with
  | none =>
    obtain ⟨t, goes, reads, place⟩ := numbered.goAfter_none
    refine reads.receives goes (fun before rest grown length => ?_) kind text
    rw [place] at length
    rw [List.length_eq_zero_iff.1 length]
    rfl
  | some number =>
    obtain ⟨spot, marks⟩ : ∃ spot, s.Marks number spot := List.mem_iff_getElem?.1 (listed number rfl)
    by_cases more : spot + 1 < s.tokens.length
    · obtain ⟨t, goes, reads, place⟩ := numbered.goAfter_some marks more
      refine reads.receives goes (fun before rest grown length => ?_) kind text
      exact getLast?_of_marks marks grown (length.trans place)
    · right
      obtain ⟨t, refuses, reads, stays⟩ := numbered.insertAfter_last marks more kind text
      have within : spot < s.document.length := by simpa using (List.getElem?_eq_some_iff.1 marks).1
      have length : s.document.length + s.unread.length = s.tokens.length := by simp [TokenStream.tokens]
      have last : s.document.length = spot + 1 := by omega
      have ends := getLast?_of_marks marks (List.prefix_append s.document []) last
      obtain ⟨cell, final, rfl⟩ := Option.map_eq_some_iff.1 ends
      refine ⟨_, t, refuses, .inl ⟨rfl, ⟨cell, final, rfl⟩, List.length_eq_zero_iff.1 (by omega)⟩, reads.document,
        reads.tokens, reads.current_eq stays⟩

end TokenStream

end TolerantParser
