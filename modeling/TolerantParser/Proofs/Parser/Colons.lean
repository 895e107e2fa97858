import TolerantParser.Parser.Statement.Suite
import TolerantParser.Proofs.Parser.Resuming

/-!
Going on to the colon behind a header. Where it is not at the cursor, the header is looked through for one
(`headerAhead`), by one look further ahead after another, none of which leaves a mark on the parse (`ReadAhead`). The
first colon is the one gone on to, brackets or no brackets in front of it: it is the colon of the header only if none
of those is open there (`ClosesAt`).
-/

namespace TolerantParser

open TokenStream (ClosesAt Revisits Usable depthBehind)

namespace TokenStream

variable {s : TokenStream}

/-- Where no colon is looked for any further. -/
def endsHeader (kind : TokenKind) : Bool := kind.isLineEnd || kind == .indent

/-- The tokens to come in which the colon behind a header may be: what is left of the logical line. -/
def headerAhead (s : TokenStream) : List Cell := s.coming.takeWhile fun cell => !endsHeader cell.kind

/-- One of the tokens is a colon. -/
def ColonAt (cells : List Cell) (i : Nat) : Prop := ∃ cell ∈ cells[i]?, cell.kind = .colon

theorem ColonAt.lt {cells : List Cell} {i : Nat} (colon : ColonAt cells i) : i < cells.length := by
  obtain ⟨cell, here, -⟩ := colon
  exact (List.getElem?_eq_some_iff.1 here).1

theorem closesAt_colon {cells : List Cell} {i : Nat} :
    ClosesAt [.colon] 0 cells i ↔ ColonAt cells i ∧ depthBehind 0 (cells.take i) = 0 := by
  simp [ClosesAt, ColonAt, ← and_assoc]

/-- The first colon is that of the header if and only if no bracket in front of it is open there. -/
theorem isLeast_closesAt_colon {cells : List Cell} {i : Nat} (first : IsLeast {i | ColonAt cells i} i) :
    IsLeast {i | ClosesAt [.colon] 0 cells i} i ↔ depthBehind 0 (cells.take i) = 0 := by
  refine ⟨fun own => (closesAt_colon.1 own.1).2, fun closed => ⟨closesAt_colon.2 ⟨first.1, closed⟩, fun j closes => ?_⟩⟩
  exact first.2 (closesAt_colon.1 closes).1

theorem headerAhead_coming (s : TokenStream) : s.headerAhead <+: s.coming := List.takeWhile_prefix _

theorem headerAhead_fileAhead (s : TokenStream) : s.headerAhead <+: s.fileAhead := by
  refine List.prefix_of_prefix_length_le s.headerAhead_coming s.fileAhead_coming ?_
  rw [headerAhead, fileAhead]
  generalize s.coming = cells
  induction cells with
  | nil => exact le_refl _
  | cons cell rest ih =>
    by_cases ends : endsHeader cell.kind
    · rw [List.takeWhile_cons_of_neg (by simpa using ends)]
      exact Nat.zero_le _
    · have inside : cell.kind ≠ .endOfFile := by
        intro last
        rw [last] at ends
        exact ends rfl
      rw [List.takeWhile_cons_of_pos (by simpa using ends), List.takeWhile_cons_of_pos (by simpa using inside)]
      exact Nat.succ_le_succ ih

/-- Behind the header comes what ends it. -/
theorem endsHeader_behind {cell : Cell} (here : s.coming[s.headerAhead.length]? = some cell) :
    endsHeader cell.kind := by
  have behind : s.coming.drop s.headerAhead.length = s.coming.dropWhile fun cell => !endsHeader cell.kind := by
    rw [headerAhead]
    generalize s.coming = cells
    nth_rewrite 2 [← List.takeWhile_append_dropWhile (p := fun cell : Cell => !endsHeader cell.kind) (l := cells)]
    rw [List.drop_left]
  rw [← List.head?_drop, behind] at here
  have stops := List.head?_dropWhile_not (fun cell : Cell => !endsHeader cell.kind) s.coming
  rw [here] at stops
  simpa using stops

theorem headerAhead_getElem {cell : Cell} {i : Nat} (within : i < s.headerAhead.length)
    (here : s.coming[i]? = some cell) : s.headerAhead[i]? = some cell ∧ endsHeader cell.kind = false := by
  obtain ⟨rest, whole⟩ := s.headerAhead_coming
  rw [← whole, List.getElem?_append_left within] at here
  exact ⟨here, by simpa using List.mem_takeWhile_imp (List.mem_of_getElem? here)⟩

/-- Up to the end of the header, a token is in it if it does not end it. -/
theorem lt_headerAhead_iff {cell : Cell} {i : Nat} (within : i ≤ s.headerAhead.length)
    (here : s.coming[i]? = some cell) :
    i < s.headerAhead.length ↔ endsHeader cell.kind = false := by
  refine ⟨fun inside => (headerAhead_getElem inside here).2, fun plain => Nat.lt_of_le_of_ne within fun last => ?_⟩
  rw [endsHeader_behind (last ▸ here)] at plain
  cases plain

end TokenStream

namespace Parser

open TokenStream (ColonAt endsHeader isLeast_closesAt_colon)

variable {p q r : Parser}

/-! ### Looking for the colon -/

/-- More may have been read; nothing else tells the two apart. -/
structure ReadAhead (p q : Parser) : Prop where
  shape : q = { p with engine := { p.engine with stream := q.stream } }
  revisits : Revisits p.stream q.stream
  usable : q.stream.Usable
  drained : q.stream.drained = p.stream.drained

namespace ReadAhead

theorem trans (first : ReadAhead p q) (second : ReadAhead q r) : ReadAhead p r := by
  refine ⟨?_, first.revisits.trans second.revisits, second.usable, second.drained.trans first.drained⟩
  have shape := second.shape
  rw [first.shape] at shape
  exact shape

theorem coming (readAhead : ReadAhead p q) : q.stream.coming = p.stream.coming := by
  rw [TokenStream.coming, readAhead.drained, TokenStream.coming]

theorem headerAhead (readAhead : ReadAhead p q) : q.stream.headerAhead = p.stream.headerAhead := by
  rw [TokenStream.headerAhead, readAhead.coming, TokenStream.headerAhead]

theorem fileAhead (readAhead : ReadAhead p q) : q.stream.fileAhead = p.stream.fileAhead := by
  rw [TokenStream.fileAhead, readAhead.coming, TokenStream.fileAhead]

end ReadAhead

theorem nth_readAhead {count : Nat} (usable : p.stream.Usable) (within : count ≤ p.stream.headerAhead.length) :
    ∃ cell q, nth count p = .ok cell.kind q ∧ ReadAhead p q ∧ p.stream.coming[count]? = some cell := by
  obtain ⟨cell, t, looks, revisits, rested, drained, here⟩ :=
    usable.peek (within.trans p.stream.headerAhead_fileAhead.length_le)
  refine ⟨cell, { p with engine := { p.engine with stream := t } }, ?_, ⟨rfl, revisits, rested, drained⟩, here⟩
  rw [nth, TokenStream.bind_ok (onStream_ok looks)]
  rfl

/-- The step that the search for the colon repeats. -/
def colonStep (place : Bool × Nat) : ParseM (ForInStep (Bool × Nat)) := do
  let kind ← nth place.2
  if kind == .colon then return .done (true, place.2)
  if kind.isLineEnd || kind == .indent then return .done (false, place.2)
  return .yield (false, place.2 + 1)

/-- The search ends at the first colon of the header, or behind the header. None of the tokens gone by is a colon. -/
theorem iterate_colonStep (bound : Nat) (place : Bool × Nat) (usable : p.stream.Usable)
    (within : place.2 ≤ p.stream.headerAhead.length) (room : p.stream.headerAhead.length < place.2 + bound)
    (none : ∀ i < place.2, ¬ ColonAt p.stream.headerAhead i) :
    ∃ found distance q, iterate colonStep bound place p = .ok (found, distance) q ∧ ReadAhead p q ∧
      (found → IsLeast {i | ColonAt p.stream.headerAhead i} distance) ∧
      (found = false → ∀ i, ¬ ColonAt p.stream.headerAhead i) := by
  induction bound generalizing p place with
  | zero => exact absurd room (Nat.not_lt.2 within)
  | succ bound ih =>
    obtain ⟨cell, q, looks, readAhead, here⟩ := nth_readAhead usable within
    have step : colonStep place p = .ok (if cell.kind == .colon then .done (true, place.2)
        else if endsHeader cell.kind then .done (false, place.2) else .yield (false, place.2 + 1)) q := by
      rw [colonStep, TokenStream.bind_ok looks, endsHeader]
      split
      · rfl
      · split <;> rfl
    by_cases colon : cell.kind = .colon
    · have inside : place.2 < p.stream.headerAhead.length :=
        (TokenStream.lt_headerAhead_iff within here).2 (by rw [colon]; rfl)
      have first : IsLeast {i | ColonAt p.stream.headerAhead i} place.2 :=
        ⟨⟨cell, (TokenStream.headerAhead_getElem inside here).1, colon⟩,
          fun i reached => Nat.le_of_not_lt fun before => none i before reached⟩
      refine ⟨true, place.2, q, ?_, readAhead, fun _ => first, fun other => by cases other⟩
      rw [if_pos (beq_iff_eq.2 colon)] at step
      exact TokenStream.bind_ok step _
    · rw [if_neg (by simpa using colon)] at step
      by_cases ends : endsHeader cell.kind
      · have last : place.2 = p.stream.headerAhead.length := by
          refine Nat.le_antisymm within (Nat.le_of_not_lt fun inside => ?_)
          rw [(TokenStream.lt_headerAhead_iff within here).1 inside] at ends
          cases ends
        refine ⟨false, place.2, q, ?_, readAhead, fun found => absurd found Bool.false_ne_true,
          fun _ i reached => none i (last ▸ reached.lt) reached⟩
        rw [if_pos ends] at step
        exact TokenStream.bind_ok step _
      · have inside : place.2 < p.stream.headerAhead.length :=
          (TokenStream.lt_headerAhead_iff within here).2 (by simpa using ends)
        have onward : ∀ i < place.2 + 1, ¬ ColonAt q.stream.headerAhead i := by
          intro i before reached
          rw [readAhead.headerAhead] at reached
          rcases Nat.lt_succ_iff_lt_or_eq.1 before with earlier | rfl
          · exact none i earlier reached
          · obtain ⟨met, listed, kind⟩ := reached
            rw [(TokenStream.headerAhead_getElem inside here).1] at listed
            exact colon (Option.some.inj listed ▸ kind)
        obtain ⟨found, distance, r, searches, further, arrived, missed⟩ :=
          ih (false, place.2 + 1) readAhead.usable (readAhead.headerAhead ▸ inside)
            (by rw [readAhead.headerAhead]; omega) onward
        rw [readAhead.headerAhead] at arrived missed
        refine ⟨found, distance, r, ?_, readAhead.trans further, arrived, missed⟩
        rw [if_neg ends] at step
        exact (TokenStream.bind_ok step _).trans searches

/-- Looking for the colon gives the distance of the first one in the header, if there is one. -/
theorem colonDistance_readAhead (usable : p.stream.Usable) :
    ∃ distance? q, colonDistance p = .ok distance? q ∧ ReadAhead p q ∧
      (∀ i, IsLeast {i | ColonAt p.stream.headerAhead i} i → distance? = some i) ∧
      ((∀ i, ¬ ColonAt p.stream.headerAhead i) → distance? = none) := by
  have room : p.stream.headerAhead.length < 0 + 2 * (p.stream.total + 1) := by
    have longer := p.stream.headerAhead_coming.length_le.trans usable.coming_length_le
    omega
  obtain ⟨found, distance, q, searches, readAhead, arrived, missed⟩ :=
    iterate_colonStep _ (false, 0) usable (Nat.zero_le _) room fun i before => absurd before (Nat.not_lt_zero i)
  have start : (get : ParseM Parser) p = .ok p p := rfl
  have loops : loop (false, 0) colonStep p = .ok (found, distance) q := by
    rw [loop, TokenStream.bind_ok start]
    exact searches
  refine ⟨if found then some distance else none, q, (TokenStream.bind_ok loops _).trans ?_, readAhead, ?_⟩
  · cases found <;> rfl
  · cases found with
    | true => exact ⟨fun i first => congrArg some ((arrived rfl).unique first),
        fun never => absurd (arrived rfl).1 (never _)⟩
    | false => exact ⟨fun i first => absurd first.1 (missed rfl i), fun _ => rfl⟩

/-! ### Going on to it -/

/-- The parse where so many of the tokens to come have been consumed and the innermost node has them. -/
def furtherBy (p : Parser) (count : Nat) (stream : TokenStream) : Parser where
  engine := { p.engine with stream }
  collectors := grow (p.stream.coming.take count) p.collectors
  position := p.position + count

/-- So many of the tokens to come have been consumed. -/
structure Consumed (p : Parser) (count : Nat) (q : Parser) : Prop where
  shape : q = p.furtherBy count q.stream
  revisits : Revisits p.stream q.stream
  coming : q.stream.coming = p.stream.coming.drop count

theorem bumpMany_consumed (count : Nat) (usable : p.stream.Usable) (within : count ≤ p.stream.fileAhead.length) :
    ∃ q, bumpMany count p = .ok () q ∧ Consumed p count q := by
  induction count generalizing p with
  | zero => exact ⟨p, rfl, by rw [furtherBy, List.take_zero, grow_nil]; rfl, .refl _, rfl⟩
  | succ count ih =>
    have inside : p.cell.kind ≠ .endOfFile := by
      intro ends
      rw [usable.fileAhead_nil ends] at within
      exact Nat.not_succ_le_zero count within
    obtain ⟨t, bumps, revisits, rested, coming⟩ := bump_coming usable inside
    rw [TokenStream.fileAhead_cons coming inside, List.length_cons, Nat.add_le_add_iff_right] at within
    obtain ⟨q, consumes, consumed⟩ := ih (p := p.bumped t) rested within
    refine ⟨q, (TokenStream.bind_ok (TokenStream.discard_ok bumps) _).trans consumes, ?_,
      revisits.trans consumed.revisits, by rw [consumed.coming, coming, List.drop_succ_cons]; rfl⟩
    rw [consumed.shape, furtherBy, furtherBy, coming, List.take_succ_cons]
    simp only [bumped, grow_grow, List.singleton_append, Nat.add_assoc, Nat.add_comm 1 count]
    rfl

/-- The colon has been consumed, and it belongs to the innermost node with all that was in front of it. One error has
been recorded, at the token that was current. -/
structure ColonAfter (p : Parser) (message : String) (i : Nat) (q : Parser) : Prop where
  collectors : q.collectors = grow (p.stream.headerAhead.take (i + 1)) p.collectors
  position : q.position = p.position + (i + 1)
  revisits : Revisits p.stream q.stream
  coming : q.stream.coming = p.stream.coming.drop (i + 1)
  errors : q.errors = p.errors.push (p.errorHere .compoundMalformed (some message))

/-- That the colon is missing is recorded, and nothing is repaired yet. -/
theorem complain_records (usable : p.stream.Usable) (message : String) :
    ∃ q, complain .compoundMalformed message p = .ok () q ∧ OnlyRecords p .compoundMalformed (some message) q ∧
      q.stream.Usable := by
  have repairs : Engine.repair (p.errorHere .compoundMalformed (some message)) []
      (p.blame .compoundMalformed (some message)) =
        .ok (.recorded (p.errorHere .compoundMalformed (some message))) (p.blame .compoundMalformed (some message)) :=
          rfl
  obtain ⟨e, recovers, traces⟩ := Engine.recover_traces repairs usable
  have recovered := recover_skipped recovers
  rw [show (Outcome.recorded (p.errorHere .compoundMalformed (some message))).skipped = [] from rfl,
    grow_nil] at recovered
  refine ⟨_, TokenStream.discard_ok recovered, ⟨?_, traces.revisits, traces.drained, traces.silent⟩, traces.usable⟩
  exact congrArg (fun engine => { p with engine }) traces.shape

theorem OnlyRecords.readAhead {kind : ErrorKind} {message : Option String} (records : OnlyRecords p kind message q)
    (readAhead : ReadAhead q r) : OnlyRecords p kind message r where
  shape := by
    have shape := readAhead.shape
    rw [records.shape] at shape
    rw [shape]
    rfl
  revisits := records.revisits.trans readAhead.revisits
  drained := readAhead.drained.trans records.drained
  silent := fun silent => by
    rw [show r.engine.log = q.engine.log by rw [readAhead.shape]]
    exact records.silent silent

/-- A colon missing behind a header is looked for in what is left of the line. The first one there is gone on to,
whatever brackets are open in front of it: with all that was in front of it, it is handed to the innermost node. It is
the colon of the header, the first one that is not inside of brackets opened from the cursor on, just if no bracket is
open there, and the colon of the header is never in front of it. Where the line has no colon, the error is all that is
new. Any stream over the tokens of a text will do, whatever use has been made of it (`TokenStream.usable_after`) and
however far a parse has come in it (`TokenStream.Sound.usable`). -/
theorem colon_found_first (usable : p.stream.Usable) (missing : p.cell.kind ≠ .colon) (construct : String) :
    (∀ i, IsLeast {i | ColonAt p.stream.headerAhead i} i →
      (∃ q, expectColon construct p = .ok () q ∧ ColonAfter p s!"Expected ':' after {construct}" i q) ∧
      (IsLeast {i | ClosesAt [.colon] 0 p.stream.headerAhead i} i ↔
        depthBehind 0 (p.stream.headerAhead.take i) = 0) ∧
      ∀ own, IsLeast {i | ClosesAt [.colon] 0 p.stream.headerAhead i} own → i ≤ own) ∧
    ((∀ i, ¬ ColonAt p.stream.headerAhead i) →
      ∃ q, expectColon construct p = .ok () q ∧
        OnlyRecords p .compoundMalformed (some s!"Expected ':' after {construct}") q) := by
  obtain ⟨q, complains, records, rested⟩ := complain_records usable s!"Expected ':' after {construct}"
  obtain ⟨distance?, r, searches, readAhead, found, missed⟩ := colonDistance_readAhead rested
  have same : q.stream.coming = p.stream.coming := by
    rw [TokenStream.coming, records.drained, TokenStream.coming]
  have header : q.stream.headerAhead = p.stream.headerAhead := by
    rw [TokenStream.headerAhead, same, TokenStream.headerAhead]
  rw [header] at found missed
  have asks : eat .colon p = .ok false p := by
    have met : at? .colon p = .ok false p := congrArg (EStateM.Result.ok · p) (beq_false_of_ne missing)
    have none : eat? .colon p = .ok none p := by
      rw [eat?, TokenStream.bind_ok met]
      rfl
    rw [eat, TokenStream.bind_ok none]
    rfl
  have begins : expectColon construct p =
      distance?.elim (pure ()) (fun distance => bumpMany (distance + 1)) r := by
    rw [expectColon, TokenStream.bind_ok asks, if_neg Bool.false_ne_true, TokenStream.bind_ok complains,
      TokenStream.bind_ok searches]
    cases distance? <;> rfl
  refine ⟨fun i first => ⟨?_, isLeast_closesAt_colon first, fun own closes => ?_⟩, fun never => ?_⟩
  · obtain rfl := found i first
    have within : i + 1 ≤ p.stream.headerAhead.length := first.1.lt
    have recorded := records.readAhead readAhead
    have there : r.stream.coming = p.stream.coming := readAhead.coming.trans same
    have far : i + 1 ≤ r.stream.fileAhead.length := by
      rw [readAhead.fileAhead, TokenStream.fileAhead, same]
      exact within.trans p.stream.headerAhead_fileAhead.length_le
    obtain ⟨o, consumes, consumed⟩ := bumpMany_consumed (i + 1) readAhead.usable far
    have taken : r.stream.coming.take (i + 1) = p.stream.headerAhead.take (i + 1) := by
      obtain ⟨rest, whole⟩ := p.stream.headerAhead_coming
      rw [there, ← whole, List.take_append_of_le_length within]
    refine ⟨o, begins.trans consumes, ?_, ?_, recorded.revisits.trans consumed.revisits, there ▸ consumed.coming, ?_⟩
    · rw [consumed.shape, furtherBy, taken, recorded.shape]
    · rw [consumed.shape, furtherBy, recorded.shape]
    · rw [consumed.shape, show (r.furtherBy (i + 1) o.stream).errors = r.errors from rfl, recorded.shape]
      rfl
  · exact first.2 (TokenStream.closesAt_colon.1 closes.1).1
  · obtain rfl := missed never
    exact ⟨r, begins, records.readAhead readAhead⟩

/-- Behind a header come a name with a slice and the colon of the header. It is the colon of the slice that is taken. -/
theorem colon_found_first_in_slice :
    let x : Token := ⟨.name, "x", "", ⟨0, 1, by decide⟩, ⟨1, 1⟩, ⟨1, 2⟩, true, false⟩
    let opens : Token := ⟨.leftBracket, "[", "", ⟨1, 2, by decide⟩, ⟨1, 2⟩, ⟨1, 3⟩, false, false⟩
    let inner : Token := ⟨.colon, ":", "", ⟨2, 3, by decide⟩, ⟨1, 3⟩, ⟨1, 4⟩, false, false⟩
    let closes : Token := ⟨.rightBracket, "]", "", ⟨3, 4, by decide⟩, ⟨1, 4⟩, ⟨1, 5⟩, false, false⟩
    let own : Token := ⟨.colon, ":", "", ⟨4, 5, by decide⟩, ⟨1, 5⟩, ⟨1, 6⟩, false, false⟩
    let last : Token := ⟨.endOfFile, "", "", ⟨5, 5, by decide⟩, ⟨1, 6⟩, ⟨1, 6⟩, false, false⟩
    ∃ stream, TokenStream.ofTokens 0 .v26 true [x, opens, inner, closes, own, last] = .ok stream ∧
      let p := after (CoreStep.start.run (.ofStream stream ⟨false, true, 1, by decide⟩))
      ∃ q, expectColon "'if' condition" p = .ok () q ∧ q.position = 3 ∧
        q.collectors = [#[⟨x, 0⟩, ⟨opens, 1⟩, ⟨inner, 2⟩]] ∧ q.errors.size = 1 ∧
        ClosesAt [.colon] 0 p.stream.headerAhead 4 ∧
        ¬ IsLeast {i | ClosesAt [.colon] 0 p.stream.headerAhead i} 2 := by
  intro x opens inner closes own last
  let stream : TokenStream := ⟨0, .v26, [], ⟨x, 0⟩, [], [opens, inner, closes, own, last], 1⟩
  let options : ParseOptions := ⟨false, true, 1, by decide⟩
  have made : TokenStream.ofTokens 0 .v26 options.onDemand [x, opens, inner, closes, own, last] = .ok stream := rfl
  have defined : ∀ token ∈ [x, opens, inner, closes, own, last], Dialect.v26.defines token.kind := by decide
  have fresh : Reached [] (.ofStream stream options) :=
    .fresh defined ⟨[.name, .leftBracket, .colon, .rightBracket, .colon], rfl, by decide⟩ made
  obtain ⟨sound, rests, -⟩ := (Reached.step .start fresh).sound
  refine ⟨stream, made, ?_⟩
  intro p
  have line : p.stream.headerAhead = [⟨x, 0⟩, ⟨opens, 1⟩, ⟨inner, 2⟩, ⟨closes, 3⟩, ⟨own, 4⟩] := rfl
  have first : IsLeast {i | ColonAt p.stream.headerAhead i} 2 := by
    rw [line]
    refine ⟨⟨_, rfl, rfl⟩, fun i colon => Nat.le_of_not_lt fun before => ?_⟩
    obtain ⟨cell, here, kind⟩ := colon
    obtain rfl | rfl : i = 0 ∨ i = 1 := by omega
    · cases here
      cases kind
    · cases here
      cases kind
  obtain ⟨⟨q, expects, behind⟩, isOwn, -⟩ :=
    (colon_found_first (sound.usable rests) (by decide) "'if' condition").1 2 first
  refine ⟨q, expects, behind.position, ?_, ?_, ?_, ?_⟩
  · rw [behind.collectors, line]
    rfl
  · rw [behind.errors]
    rfl
  · rw [line]
    exact ⟨_, rfl, List.mem_singleton_self _, rfl⟩
  · rw [isOwn, line]
    decide

end Parser

end TolerantParser
