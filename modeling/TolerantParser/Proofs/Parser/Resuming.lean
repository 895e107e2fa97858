import TolerantParser.Proofs.Parser.CoreSteps
import TolerantParser.Proofs.Parser.Repair
import TolerantParser.Proofs.Stream.Finding

/-!
Repairs that go on somewhere else. The errors about closing brackets and about the ends of blocks are repaired by a
search, and the outcome says what it found: the parse resumes at the first token that the search is for, and the tokens
in front of it are skipped, or nothing is skipped and the stream is as it was (`Searched`). One error is recorded in any
case, at the token that was current.
-/

namespace TolerantParser

open TokenStream (ClosesAt EndsBlockAt Revisits Sought Usable)

namespace Engine

/-- More may have been read, and a line may have been written to the trace. -/
structure Traces (e e' : Engine) : Prop where
  revisits : Revisits e.stream e'.stream
  usable : e'.stream.Usable
  drained : e'.stream.drained = e.stream.drained
  shape : e' = { e with stream := e'.stream, log := e'.log }
  silent : e.options.trace = false → e'.log = e.log

theorem recover_traces {kind : ErrorKind} {message : Option String} {closers : List TokenKind} {e e' : Engine}
    {outcome : Outcome}
    (repairs : repair (.ofMessage kind e.stream.current message) closers
      { e with errors := e.errors.push (.ofMessage kind e.stream.current message) } = .ok outcome e')
    (usable : e'.stream.Usable) : ∃ e'', recover kind message closers e = .ok outcome e'' ∧ Traces e' e'' := by
  by_cases traced : e'.options.trace
  · obtain ⟨after, stream, looks, revisits, later, same⟩ := usable.following? outcome.error.cell.index
    refine ⟨_, recover_traced repairs (by rw [if_pos traced]; exact trace_ok looks), revisits, later, same, rfl, ?_⟩
    intro silent
    rw [traced] at silent
    cases silent
  · exact ⟨e', recover_traced repairs (by rw [if_neg traced]), .refl _, usable, rfl, rfl, fun _ => rfl⟩

end Engine

namespace Parser

variable {p : Parser} {goal : Nat → Prop} {found : Option (List Cell)} {e : Engine}

/-! ### Searches as repairs -/

/-- An error was recorded at the cursor, and a search for the first of the tokens to come that is a goal has been made.
-/
structure Searched (p : Parser) (kind : ErrorKind) (message : Option String) (goal : Nat → Prop)
    (found : Option (List Cell)) (e : Engine) : Prop where
  sought : Sought goal [] p.stream found e.stream
  revisits : Revisits p.stream e.stream
  usable : e.stream.Usable
  missed : found = none → e.stream.drained = p.stream.drained
  shape : e = { p.engine with
    stream := e.stream, errors := p.errors.push (p.errorHere kind message), log := e.log }
  silent : p.engine.options.trace = false → e.log = p.engine.log

theorem recover_sought {kind : ErrorKind} {message : Option String} {closers : List TokenKind} {escalate : Bool}
    {steps : StreamM (Option (List Cell))} {t : TokenStream} (usable : p.stream.Usable)
    (searches : steps p.stream = .ok found t) (revisits : Revisits p.stream t) (rested : t.Usable)
    (sought : Sought goal [] p.stream found t)
    (repairs : ∀ stream, TokenStream.search steps p.stream = .ok found stream →
      Engine.repair (p.errorHere kind message) closers (p.blame kind message) =
        .ok (p.searchedOutcome kind message escalate found) { p.blame kind message with stream }) :
    ∃ e, Engine.recover kind message closers p.engine = .ok (p.searchedOutcome kind message escalate found) e ∧
      Searched p kind message goal found e := by
  obtain ⟨u, stays, further, rested, sought, missed⟩ := usable.search searches revisits rested sought
  obtain ⟨e, recovers, traces⟩ := Engine.recover_traces (repairs u stays) rested
  refine ⟨e, recovers, sought.drained traces.drained, further.trans traces.revisits, traces.usable,
    fun none => traces.drained.trans (missed none), traces.shape, traces.silent⟩

theorem recover_closer_sought (usable : p.stream.Usable) (message : Option String) {wanted : List TokenKind}
    (some : wanted ≠ []) :
    ∃ found e, Engine.recover .unmatchedBracket message wanted p.engine =
        .ok (p.searchedOutcome .unmatchedBracket message false found) e ∧
      Searched p .unmatchedBracket message (ClosesAt wanted 0 p.stream.lineAhead) found e := by
  have room : p.stream.coming.length ≤ p.stream.total + 1 := Nat.le_succ_of_le usable.coming_length_le
  obtain ⟨found, t, searches, revisits, rested, sought⟩ := usable.searchCloser wanted _ 0 [] room
  have asked : wantedClosers wanted = wanted := by
    rw [wantedClosers, if_neg (by simpa using some)]
  rw [← asked] at searches
  exact ⟨found, recover_sought usable searches revisits rested sought fun stream => repair_closer message wanted⟩

theorem recover_dedent_sought (usable : p.stream.Usable) (message : Option String) (closers : List TokenKind) :
    ∃ found e, Engine.recover .dedentExpected message closers p.engine =
        .ok (p.searchedOutcome .dedentExpected message true found) e ∧
      Searched p .dedentExpected message
        (fun i => i < p.engine.options.dedentBudget ∧ EndsBlockAt 0 p.stream.fileAhead i) found e := by
  obtain ⟨found, t, searches, revisits, rested, sought⟩ :=
    usable.searchDedent p.engine.options.dedentBudget 0 []
  exact ⟨found, recover_sought usable searches revisits rested sought fun stream => repair_dedent message closers⟩

/-! ### Closing brackets -/

/-- Consuming the token at the cursor takes the first of the tokens to come away. -/
theorem bump_coming (usable : p.stream.Usable) (inside : p.cell.kind ≠ .endOfFile) :
    ∃ t, bump p = .ok p.cell (p.bumped t) ∧ Revisits p.stream t ∧ t.Usable ∧ p.stream.coming = p.cell :: t.coming := by
  obtain ⟨t, advances, revisits, rested, coming⟩ := usable.advance inside
  exact ⟨t, bump_advance inside advances, revisits, rested, coming⟩

/-- The closing bracket has been consumed, and it belongs to the innermost node with all that was in front of it. -/
structure ClosedAt (p : Parser) (message : Option String) (i : Nat) (cell? : Option Cell) (q : Parser) : Prop where
  cell : cell? = p.stream.lineAhead[i]?
  collectors : q.collectors = grow (p.stream.lineAhead.take (i + 1)) p.collectors
  position : q.position = p.position + (i + 1)
  revisits : Revisits p.stream q.stream
  coming : q.stream.coming = p.stream.coming.drop (i + 1)
  errors : q.errors = if i = 0 then p.errors else p.errors.push (p.errorHere .unmatchedBracket message)

/-- Nothing but one more error tells the parse from what it was, and perhaps a line in the trace. -/
structure OnlyRecords (p : Parser) (kind : ErrorKind) (message : Option String) (q : Parser) : Prop where
  shape : q = { p with engine := { p.engine with
    stream := q.stream, errors := p.errors.push (p.errorHere kind message), log := q.engine.log } }
  revisits : Revisits p.stream q.stream
  drained : q.stream.drained = p.stream.drained
  silent : p.engine.options.trace = false → q.engine.log = p.engine.log

theorem closesAt_here {kind : TokenKind} (usable : p.stream.Usable) (here : p.cell.kind = kind)
    (inLine : ¬ (kind = .newline ∨ kind = .endOfFile)) : ClosesAt [kind] 0 p.stream.lineAhead 0 := by
  obtain ⟨rest, line⟩ := usable.lineAhead_head (by exact here ▸ inLine)
  rw [line]
  exact TokenStream.closesAt_zero.2 ⟨List.mem_singleton.2 here, rfl⟩

/-- The bracket is at the cursor. -/
theorem expectCloser_here {kind : TokenKind} (usable : p.stream.Usable) (message : Option String)
    (here : p.cell.kind = kind) (inLine : ¬ (kind = .newline ∨ kind = .endOfFile)) :
    ∃ cell? q, expectCloser kind message p = .ok cell? q ∧ ClosedAt p message 0 cell? q := by
  subst here
  obtain ⟨t, bumps, revisits, -, coming⟩ := bump_coming usable fun ends => inLine (.inr ends)
  obtain ⟨rest, line⟩ := usable.lineAhead_head inLine
  have met : at? p.cell.kind p = .ok true p := congrArg (EStateM.Result.ok · p) (beq_self_eq_true _)
  refine ⟨some p.cell, p.bumped t, ?_, by rw [line]; rfl, by rw [line]; rfl, rfl, revisits, by rw [coming]; rfl, rfl⟩
  rw [expectCloser, TokenStream.bind_ok met, if_pos rfl]
  exact TokenStream.bind_ok bumps _

/-- The parse where it resumes once the search has gone so far in the line. -/
def resumedAt (p : Parser) (e : Engine) (i : Nat) : Parser where
  engine := e
  collectors := grow (p.stream.lineAhead.take i) p.collectors
  position := p.position + i

theorem recover_resumedAt {wanted : List TokenKind} (usable : p.stream.Usable) (message : Option String)
    (some : wanted ≠ []) {i : Nat} (first : IsLeast {i | ClosesAt wanted 0 p.stream.lineAhead i} i) :
    ∃ outcome e, recover .unmatchedBracket message wanted p = .ok outcome (p.resumedAt e i) ∧ outcome.resumed ∧
      p.stream.lineAhead[i]? = .some e.stream.current ∧ e.stream.coming = p.stream.coming.drop i ∧
      Revisits p.stream e.stream ∧ e.stream.Usable ∧
        e.errors = p.errors.push (p.errorHere .unmatchedBracket message) := by
  obtain ⟨found, e, recovers, searched⟩ := recover_closer_sought usable message some
  obtain ⟨rfl, arrived, coming⟩ := searched.sought.resumes searched.usable p.stream.lineAhead_coming first first.1.lt
  have length : (p.stream.lineAhead.take i).length = i := by
    rw [List.length_take]
    exact Nat.min_eq_left first.1.lt.le
  have recovered := recover_skipped recovers
  rw [skipped_searchedOutcome, Option.getD_some, length] at recovered
  exact ⟨_, e, recovered, rfl, arrived, coming, searched.revisits, searched.usable, by rw [searched.shape]⟩

/-- The bracket is further on in the line. -/
theorem expectCloser_further {kind : TokenKind} (usable : p.stream.Usable) (message : Option String)
    (elsewhere : p.cell.kind ≠ kind) {i : Nat} (first : IsLeast {i | ClosesAt [kind] 0 p.stream.lineAhead i} i) :
    ∃ cell? q, expectCloser kind message p = .ok cell? q ∧ ClosedAt p message i cell? q := by
  obtain ⟨outcome, e, recovers, resumed, arrived, coming, revisits, later, errors⟩ :=
    recover_resumedAt usable message (List.cons_ne_nil kind []) first
  obtain ⟨cell, listed, wanted, -⟩ := first.1
  obtain rfl : e.stream.current = cell := Option.some.inj (arrived.symm.trans listed)
  have inLine : e.stream.current.kind ≠ .newline ∧ e.stream.current.kind ≠ .endOfFile := by
    simpa using List.mem_takeWhile_imp (List.mem_of_getElem? listed)
  obtain ⟨t, bumps, further, -, onward⟩ := bump_coming (p := p.resumedAt e i) later inLine.2
  have beyond : i ≠ 0 := by
    rintro rfl
    rw [List.drop_zero, usable.coming_cons, later.coming_cons] at coming
    have here : e.stream.current = p.cell := (List.cons.inj coming).1
    exact elsewhere (here ▸ List.mem_singleton.1 wanted)
  have asks : at? kind p = .ok false p := congrArg (EStateM.Result.ok · p) (beq_false_of_ne elsewhere)
  refine ⟨some e.stream.current, (p.resumedAt e i).bumped t, ?_, arrived.symm, ?_, rfl, revisits.trans further, ?_, ?_⟩
  · rw [expectCloser, TokenStream.bind_ok asks, if_neg Bool.false_ne_true, TokenStream.bind_ok recovers, if_pos resumed]
    exact TokenStream.bind_ok bumps _
  · rw [List.take_add_one, arrived, Option.toList_some, ← grow_grow]
    rfl
  · rw [← List.drop_drop, ← coming]
    exact (congrArg (List.drop 1) onward).symm
  · rw [if_neg beyond, ← errors]
    rfl

/-- There is no such bracket in the line. -/
theorem expectCloser_missing {kind : TokenKind} (usable : p.stream.Usable) (message : Option String)
    (inLine : ¬ (kind = .newline ∨ kind = .endOfFile)) (never : ∀ i, ¬ ClosesAt [kind] 0 p.stream.lineAhead i) :
    ∃ q, expectCloser kind message p = .ok none q ∧ OnlyRecords p .unmatchedBracket message q := by
  obtain ⟨found, e, recovers, searched⟩ := recover_closer_sought usable message (List.cons_ne_nil kind [])
  obtain rfl := searched.sought.eq_none never
  have elsewhere : p.cell.kind ≠ kind := fun here => never 0 (closesAt_here usable here inLine)
  have asks : at? kind p = .ok false p := congrArg (EStateM.Result.ok · p) (beq_false_of_ne elsewhere)
  have recovered := recover_skipped recovers
  rw [skipped_searchedOutcome, Option.getD_none, grow_nil] at recovered
  refine ⟨{ p with engine := e }, ?_, ?_, searched.revisits, searched.missed rfl, searched.silent⟩
  · rw [expectCloser, TokenStream.bind_ok asks, if_neg Bool.false_ne_true, TokenStream.bind_ok recovered]
    rfl
  · exact congrArg (fun engine => { p with engine }) searched.shape

/-- The search for closing brackets goes on to the first one that is wanted and not inside of others that were opened
from the cursor on, and not beyond the line. What is in front of it is skipped, and to expect a single one is to hand
all of that and the bracket itself to the innermost node. Where there is none, the error is all that is new. Any stream
over the tokens of a text will do, whatever use has been made of it (`TokenStream.usable_after`) and however far a
parse has come in it (`TokenStream.Sound.usable`). -/
theorem closer_found_first (usable : p.stream.Usable) (message : Option String) :
    (∀ wanted, wanted ≠ [] →
      ∃ outcome e, Engine.recover .unmatchedBracket message wanted p.engine = .ok outcome e ∧
        e.errors = p.errors.push (p.errorHere .unmatchedBracket message) ∧ Revisits p.stream e.stream ∧
        (∀ i, IsLeast {i | ClosesAt wanted 0 p.stream.lineAhead i} i →
          outcome.resumed ∧ outcome.skipped = p.stream.lineAhead.take i ∧
            p.stream.lineAhead[i]? = some e.stream.current) ∧
        ((∀ i, ¬ ClosesAt wanted 0 p.stream.lineAhead i) →
          outcome.resumed = false ∧ outcome.skipped = [] ∧ e.stream.drained = p.stream.drained)) ∧
      ∀ kind, ¬ (kind = .newline ∨ kind = .endOfFile) →
        (∀ i, IsLeast {i | ClosesAt [kind] 0 p.stream.lineAhead i} i →
          ∃ cell? q, expectCloser kind message p = .ok cell? q ∧ ClosedAt p message i cell? q) ∧
        ((∀ i, ¬ ClosesAt [kind] 0 p.stream.lineAhead i) →
          ∃ q, expectCloser kind message p = .ok none q ∧ OnlyRecords p .unmatchedBracket message q) := by
  refine ⟨fun wanted some => ?_, fun kind inLine => ⟨fun i first => ?_, expectCloser_missing usable message inLine⟩⟩
  · obtain ⟨found, e, recovers, searched⟩ := recover_closer_sought usable message some
    refine ⟨_, e, recovers, by rw [searched.shape], searched.revisits, fun i first => ?_, fun never => ?_⟩
    · obtain ⟨rfl, arrived, -⟩ := searched.sought.resumes searched.usable p.stream.lineAhead_coming first first.1.lt
      exact ⟨rfl, rfl, arrived⟩
    · obtain rfl := searched.sought.eq_none never
      exact ⟨rfl, rfl, searched.missed rfl⟩
  · by_cases here : p.cell.kind = kind
    · obtain rfl : i = 0 := Nat.le_zero.1 (first.2 (closesAt_here usable here inLine))
      exact expectCloser_here usable message here inLine
    · exact expectCloser_further usable message here first

/-- A closing bracket is expected in front of a name, behind which it stands. -/
theorem closer_found_first_behind_name :
    let x : Token := ⟨.name, "x", "", ⟨0, 1, by decide⟩, ⟨1, 1⟩, ⟨1, 2⟩, true, false⟩
    let bracket : Token := ⟨.rightParen, ")", "", ⟨1, 2, by decide⟩, ⟨1, 2⟩, ⟨1, 3⟩, false, false⟩
    let last : Token := ⟨.endOfFile, "", "", ⟨2, 2, by decide⟩, ⟨1, 3⟩, ⟨1, 3⟩, false, false⟩
    ∃ stream, TokenStream.ofTokens 0 .v26 true [x, bracket, last] = .ok stream ∧
      let p := after (CoreStep.start.run (.ofStream stream ⟨false, true, 1, by decide⟩))
      ∃ cell? q, expectCloser .rightParen none p = .ok cell? q ∧ cell? = some ⟨bracket, 1⟩ ∧ q.position = 2 ∧
        q.collectors = [#[⟨x, 0⟩, ⟨bracket, 1⟩]] ∧ q.errors.size = 1 := by
  intro x bracket last
  let stream : TokenStream := ⟨0, .v26, [], ⟨x, 0⟩, [], [bracket, last], 1⟩
  let options : ParseOptions := ⟨false, true, 1, by decide⟩
  have opens : TokenStream.ofTokens 0 .v26 options.onDemand [x, bracket, last] = .ok stream := rfl
  have defined : ∀ token ∈ [x, bracket, last], Dialect.v26.defines token.kind := by decide
  have fresh : Reached [] (.ofStream stream options) := .fresh defined ⟨[.name, .rightParen], rfl, by decide⟩ opens
  obtain ⟨sound, rests, -⟩ := (Reached.step .start fresh).sound
  refine ⟨stream, opens, ?_⟩
  intro p
  have line : p.stream.lineAhead = [⟨x, 0⟩, ⟨bracket, 1⟩] := rfl
  have first : IsLeast {i | ClosesAt [.rightParen] 0 p.stream.lineAhead i} 1 := by
    rw [line]
    refine ⟨⟨_, rfl, List.mem_singleton_self _, rfl⟩, fun i closes => Nat.pos_of_ne_zero ?_⟩
    rintro rfl
    exact absurd (TokenStream.closesAt_zero.1 closes).1 (by decide)
  obtain ⟨cell?, q, expects, closed⟩ :=
    ((closer_found_first (sound.usable rests) none).2 .rightParen (by decide)).1 1 first
  refine ⟨cell?, q, expects, ?_, closed.position, ?_, ?_⟩
  · rw [closed.cell, line]
    rfl
  · rw [closed.collectors, line]
    rfl
  · rw [closed.errors]
    rfl

/-! ### The ends of blocks -/

/-- The search for the end of a block goes on to the first one in front of which as many blocks end as begin, if that is
within the budget and not beyond the file. What is in front of it is skipped; else the statement around it is to stop as
well, and the error is all that is new. A larger budget finds the same. -/
theorem block_end_found_first (usable : p.stream.Usable) (message : Option String) (closers : List TokenKind) :
    ∃ outcome e, Engine.recover .dedentExpected message closers p.engine = .ok outcome e ∧
      e.errors = p.errors.push (p.errorHere .dedentExpected message) ∧ Revisits p.stream e.stream ∧
      (outcome.resumed ↔ ∃ i < p.engine.options.dedentBudget, EndsBlockAt 0 p.stream.fileAhead i) ∧
      (∀ i, IsLeast {i | i < p.engine.options.dedentBudget ∧ EndsBlockAt 0 p.stream.fileAhead i} i →
        outcome.skipped = p.stream.fileAhead.take i ∧ p.stream.fileAhead[i]? = some e.stream.current ∧
          outcome.escalate = false) ∧
      (outcome.resumed = false →
        outcome.escalate ∧ outcome.skipped = [] ∧ e.stream.drained = p.stream.drained) ∧
      ∀ options : ParseOptions, p.engine.options.dedentBudget ≤ options.dedentBudget → outcome.resumed →
        ∃ e', Engine.recover .dedentExpected message closers { p.engine with options } = .ok outcome e' ∧
          e'.stream.current = e.stream.current := by
  obtain ⟨found, e, recovers, searched⟩ := recover_dedent_sought usable message closers
  have resumed := resumed_searchedOutcome (p := p) .dedentExpected message true found
  refine ⟨_, e, recovers, by rw [searched.shape], searched.revisits, ?_, fun i first => ?_, fun stopped => ?_, ?_⟩
  · rw [resumed]
    exact searched.sought.isSome_iff
  · obtain ⟨rfl, arrived, -⟩ := searched.sought.resumes searched.usable p.stream.fileAhead_coming first first.1.2.lt
    exact ⟨rfl, arrived, rfl⟩
  · rw [resumed, Option.isSome_eq_false_iff, Option.isNone_iff_eq_none] at stopped
    subst stopped
    exact ⟨rfl, rfl, searched.missed rfl⟩
  · intro options larger goesOn
    obtain ⟨i, first⟩ := searched.sought.exists_first (resumed ▸ goesOn)
    have within : i < p.engine.options.dedentBudget := first.1.1
    obtain ⟨rfl, arrived, -⟩ := searched.sought.resumes searched.usable p.stream.fileAhead_coming first first.1.2.lt
    obtain ⟨found', e', recovers', searched'⟩ :=
      recover_dedent_sought (p := { p with engine := { p.engine with options } }) usable message closers
    have first' : IsLeast {i | i < options.dedentBudget ∧ EndsBlockAt 0 p.stream.fileAhead i} i := by
      refine ⟨⟨Nat.lt_of_lt_of_le within larger, first.1.2⟩, fun j reached => ?_⟩
      by_contra before
      exact before (first.2 ⟨by omega, reached.2⟩)
    obtain ⟨rfl, arrived', -⟩ :=
      searched'.sought.resumes searched'.usable p.stream.fileAhead_coming first' first'.1.2.lt
    exact ⟨e', recovers', Option.some.inj (arrived'.symm.trans arrived)⟩

/-- Behind a name a block ends, and the search may look so far. -/
theorem block_end_found_first_behind_name :
    let x : Token := ⟨.name, "x", "", ⟨0, 1, by decide⟩, ⟨1, 1⟩, ⟨1, 2⟩, true, false⟩
    let ends : Token := ⟨.dedent, "", "", ⟨1, 1, by decide⟩, ⟨1, 2⟩, ⟨1, 2⟩, false, false⟩
    let last : Token := ⟨.endOfFile, "", "", ⟨1, 1, by decide⟩, ⟨1, 2⟩, ⟨1, 2⟩, false, false⟩
    ∃ stream, TokenStream.ofTokens 0 .v26 true [x, ends, last] = .ok stream ∧
      let p : Parser := .ofStream stream ⟨false, true, 2, by decide⟩
      ∃ outcome e, Engine.recover .dedentExpected none [] p.engine = .ok outcome e ∧ outcome.resumed ∧
        outcome.skipped = [⟨x, 0⟩] ∧ e.stream.current = ⟨ends, 1⟩ ∧ e.errors.size = 1 := by
  intro x ends last
  let stream : TokenStream := ⟨0, .v26, [], ⟨x, 0⟩, [], [ends, last], 1⟩
  let options : ParseOptions := ⟨false, true, 2, by decide⟩
  have opens : TokenStream.ofTokens 0 .v26 options.onDemand [x, ends, last] = .ok stream := rfl
  have defined : ∀ token ∈ [x, ends, last], Dialect.v26.defines token.kind := by decide
  have fresh : Reached [] (.ofStream stream options) := .fresh defined ⟨[.name, .dedent], rfl, by decide⟩ opens
  obtain ⟨sound, rests, -⟩ := fresh.sound
  refine ⟨stream, opens, ?_⟩
  intro p
  have file : p.stream.fileAhead = [⟨x, 0⟩, ⟨ends, 1⟩] := rfl
  have first : IsLeast {i | i < 2 ∧ EndsBlockAt 0 p.stream.fileAhead i} 1 := by
    rw [file]
    refine ⟨⟨by decide, ⟨_, rfl, rfl⟩, rfl⟩, fun i reached => Nat.pos_of_ne_zero ?_⟩
    rintro rfl
    exact absurd (TokenStream.endsBlockAt_zero.1 reached.2).1 (by decide)
  obtain ⟨outcome, e, recovers, errors, -, resumes, found, -⟩ := block_end_found_first (sound.usable rests) none []
  obtain ⟨skipped, here, -⟩ := found 1 first
  refine ⟨outcome, e, recovers, resumes.2 ⟨1, first.1⟩, ?_, ?_, ?_⟩
  · rw [skipped, file]
    rfl
  · rw [file] at here
    exact (Option.some.inj here).symm
  · rw [errors]
    rfl

end Parser

end TolerantParser
