import TolerantParser.Proofs.Parser.InStep
import TolerantParser.Proofs.Stream.Searching

/-!
Errors that two parses in step find. Both record them at tokens that answer to each other and repair them in the
same way: the search for a closing bracket stays within the line, and the name that is put in on one side answers
to the one on the other. In a clean frame there is nothing to compare any more.
-/

namespace TolerantParser

open TokenStream (Steps significant)
open TolerantParser.Parser (after Retains)

namespace Engine

variable {α β : Type}

/-- The steps find no error and change no options. -/
def Quiet (f : EngineM α) : Prop := ∀ e, (after (f e)).errors = e.errors ∧ (after (f e)).options = e.options

theorem quiet_pure (a : α) : Quiet (pure a : EngineM α) := fun _ => ⟨rfl, rfl⟩

theorem quiet_get : Quiet (get : EngineM Engine) := fun _ => ⟨rfl, rfl⟩

theorem Quiet.bind {f : EngineM α} {k : α → EngineM β} (first : Quiet f) (next : ∀ a, Quiet (k a)) :
    Quiet (f >>= k) := by
  intro e
  show (after (EStateM.bind f k e)).errors = _ ∧ (after (EStateM.bind f k e)).options = _
  have begun := first e
  unfold EStateM.bind
  cases steps : f e with
  | ok a e' =>
    rw [steps] at begun
    exact ⟨(next a e').1.trans begun.1, (next a e').2.trans begun.2⟩
  | error fault e' =>
    rw [steps] at begun
    exact begun

theorem quiet_onStream (steps : StreamM α) : Quiet (onStream steps) := by
  intro e
  simp only [onStream]
  cases steps e.stream <;> exact ⟨rfl, rfl⟩

theorem quiet_repair (error : ParseError) (closers : List TokenKind) : Quiet (repair error closers) := by
  unfold repair
  split
  next => exact quiet_pure _
  next =>
    refine quiet_get.bind fun e => (quiet_onStream _).bind fun found => ?_
    cases found <;> exact quiet_pure _
  next => exact (quiet_onStream _).bind fun _ => quiet_pure _
  next =>
    refine quiet_get.bind fun e => (quiet_onStream _).bind fun found => ?_
    cases found <;> exact quiet_pure _
  next => exact quiet_pure _

theorem quiet_trace (outcome : Outcome) : Quiet (trace outcome) :=
  quiet_get.bind fun _ => (quiet_onStream _).bind fun _ => fun _ => ⟨rfl, rfl⟩

/-- Whatever comes of the repair, the error has been recorded. -/
theorem recover_after (kind : ErrorKind) (message : Option String) (closers : List TokenKind) (e : Engine) :
    (after (recover kind message closers e)).errors = e.errors.push (.ofMessage kind e.stream.current message) ∧
      (after (recover kind message closers e)).options = e.options := by
  have records : record kind message none e = .ok (.ofMessage kind e.stream.current message)
      { e with errors := e.errors.push (.ofMessage kind e.stream.current message) } := rfl
  rw [recover, TokenStream.bind_ok records]
  refine ((quiet_repair _ closers).bind fun outcome => quiet_get.bind fun e' => ?_) _
  split
  · exact (quiet_trace outcome).bind fun _ => quiet_pure _
  · exact quiet_pure _

end Engine

namespace Parser

variable {α β : Type}

theorem recover_after (kind : ErrorKind) (message : Option String) (closers : List TokenKind) (p : Parser) :
    (after (recover kind message closers p)).errors = p.errors.push (p.errorHere kind message) ∧
      (after (recover kind message closers p)).engine.options = p.engine.options := by
  have engine := Engine.recover_after kind message closers p.engine
  unfold recover
  cases recovers : Engine.recover kind message closers p.engine with
  | error fault e =>
    rw [recovers] at engine
    simp only [bind, EStateM.bind, onEngine, recovers, after]
    exact engine
  | ok outcome e =>
    rw [recovers] at engine
    rw [TokenStream.bind_ok (onEngine_ok recovers)]
    split
    · exact engine
    · rw [TokenStream.bind_ok (collect_eq _ _)]
      exact engine

theorem retains_recover (kind : ErrorKind) (message : Option String) (closers : List TokenKind) :
    Retains (recover kind message closers) := fun p => by
  obtain ⟨errors, options⟩ := recover_after kind message closers p
  exact ⟨by rw [errors, Array.toList_push]; exact List.prefix_append .., options⟩

theorem retains_complain (kind : ErrorKind) (message : String) : Retains (complain kind message) :=
  (retains_recover _ _ _).discard

theorem retains_takeMissingName (message : Option String) : Retains (takeMissingName message) := by
  refine (retains_recover _ _ _).bind fun outcome => ?_
  split
  · exact (retains_collect _).bind fun _ => retains_pure _
  · exact retains_throw _

/-- The steps find an error, whatever they are taken from. -/
def Blaming (f : ParseM α) : Prop := ∀ p, ¬ (after (f p)).Clean

theorem blaming_recover (kind : ErrorKind) (message : Option String) (closers : List TokenKind) :
    Blaming (recover kind message closers) := fun p => not_clean_of_push (recover_after kind message closers p).1

theorem Blaming.bind {f : ParseM α} {k : α → ParseM β} (found : Blaming f) (retains : ∀ a, Retains (k a)) :
    Blaming (f >>= k) := by
  intro p
  have begun := found p
  show ¬ (after (EStateM.bind f k p)).Clean
  unfold EStateM.bind
  cases steps : f p with
  | ok a q =>
    rw [steps] at begun
    exact fun clean => begun (clean_of_retained (retains a q) clean)
  | error fault q =>
    rw [steps] at begun
    exact begun

theorem blaming_complain (kind : ErrorKind) (message : String) : Blaming (complain kind message) := by
  rw [complain, discard_eq]
  exact (blaming_recover _ _ _).bind fun _ => retains_pure _

/-- Errors found behind a look at the cursor. -/
theorem blaming_atSet {accept : TokenKind → Bool} {k : Bool → ParseM β} (next : ∀ there, Blaming (k there)) :
    Blaming (atSet? accept >>= k) := fun p => next (accept p.cell.kind) p

theorem retains_atSet (accept : TokenKind → Bool) : Retains (atSet? accept) := retains_of_eq fun _ => rfl

/-- The parse has found one more error, and handed tokens to the innermost node in repairing it. -/
structure Blames (p : Parser) (error : ParseError) (cells : List Cell) (count : Nat) (q : Parser) : Prop where
  errors : q.errors = p.errors.push error
  options : q.engine.options = p.engine.options
  collectors : q.collectors = grow cells p.collectors
  position : q.position = p.position + count

theorem recover_blames {p : Parser} {kind : ErrorKind} {message : Option String} {closers : List TokenKind}
    {outcome : Outcome} {engine : Engine}
    (repairs : Engine.repair (p.errorHere kind message) closers (p.blame kind message) = .ok outcome engine)
    (sound : engine.stream.Sound) :
    ∃ q, recover kind message closers p = .ok outcome q ∧ Steps engine.stream [] q.stream ∧
      Blames p (p.errorHere kind message) outcome.skipped outcome.skipped.length q := by
  obtain ⟨q, recovers, steps, -, collectors, position⟩ := recover_ok repairs sound
  have left := recover_after kind message closers p
  rw [recovers] at left
  exact ⟨q, recovers, steps, left.1, left.2, collectors, position⟩

/-- The name that is put in at the cursor. -/
def missing (p : Parser) : Cell := TokenStream.placeholder p.cell .name missingName p.stream.size

theorem takeMissingName_named {p : Parser} (sound : p.stream.Sound) (rests : p.stream.Rests) (message : Option String) :
    ∃ q, takeMissingName message p = .ok p.missing q ∧ Steps p.stream.named [] q.stream ∧
      Blames p (p.errorHere .nameExpected message) [p.missing] 0 q := by
  obtain ⟨inserts, named⟩ := TokenStream.insertMissingName_named sound rests (defines_name _)
  obtain ⟨q, recovers, steps, blames⟩ := recover_blames (repair_name message [] inserts) named
  refine ⟨{ q with collectors := grow [p.missing] q.collectors }, ?_, steps, blames.errors, blames.options, ?_,
    blames.position⟩
  · rw [takeMissingName, TokenStream.bind_ok recovers]
    simp only [take]
    rw [TokenStream.bind_ok (collect_eq _ _)]
    rfl
  · exact congrArg (grow [p.missing]) (blames.collectors.trans (grow_nil _))

end Parser

namespace Frame

variable {c : Frame} {p q p' q' : Parser} {here : TokenKind → Prop}

/-- Both parses have found the same error and repaired it alike. -/
theorem Along.blamed (along : c.Along p q) {error error' : ParseError} {cells cells' : List Cell} {count : Nat}
    (left : p.Blames error cells count p') (right : q.Blames error' cells' count q')
    (atRank : c.SameRank p'.stream q'.stream) (grows : c.paired p q ≤ c.paired p' q')
    (same : Alike (c.paired p' q') error error') (moved : Alike (c.paired p' q') cells cells') : c.Along p' q' := by
  obtain ⟨found, split, alike⟩ := along.errors
  refine ⟨atRank, ?_, ⟨found ++ [error'], ?_, ?_⟩, ?_, ?_, ?_⟩
  · rw [left.options, right.options]
    exact along.budget
  · rw [right.errors, Array.toList_push, split, List.append_assoc]
  · rw [left.errors, Array.toList_push]
    exact (alike.mono grows).append (.cons same .nil)
  · rw [left.collectors, right.collectors]
    exact (along.holds.mono grows).grow moved
  · rw [left.collectors, Parser.grow_length]
    exact along.deep
  · rw [left.position, right.position, along.position]
    omega

/-- Errors with the same message at the cursors are alike. -/
theorem Along.errorHere (along : c.Along p q) (room : 0 < c.room p.stream) (kind : ErrorKind)
    (message : Option String) : Alike (c.paired p q) (p.errorHere kind message) (q.errorHere kind message) :=
  ⟨rfl, rfl, along.stream.current room⟩

end Frame

namespace Parallel

variable {α β : Type} [Likeness α] [Likeness β] {c : Frame} {W : Pairing} {here : TokenKind → Prop}
  {pre : Parser → Parser → Prop} {post : α → Parser → Parser → Prop}

/-- Once an error has been found, there is nothing to compare in a clean frame. -/
theorem spoils (clean : c.clean) {f g : ParseM α} (retains : Retains f) (found : ∀ p, ¬ (after (f p)).Clean) :
    Parallel c pre post W f g where
  runs p _ _ _ := .unclean clean (found p)
  retains := retains

/-- An error for which nothing is repaired. -/
theorem recorded {kind : ErrorKind} (message : Option String) (closers : List TokenKind)
    (only : Parser.isRecordedOnly kind) :
    Parallel c (c.At here) (fun outcome p q => c.At here p q ∧ outcome.emptySuite = (kind == .emptySuite)) W
      (Parser.recover kind message closers) (Parser.recover kind message closers) where
  runs p q before kept := by
    obtain ⟨p', recovers, still, errors⟩ := Parser.recover_recorded only message closers before.1.stream.sound.1
    obtain ⟨q', recovers', still', errors'⟩ := Parser.recover_recorded only message closers before.1.stream.sound.2
    have left := Parser.recover_after kind message closers p
    have right := Parser.recover_after kind message closers q
    obtain ⟨atToken, grows⟩ := before.1.atToken.read still.steps still'.steps
    rw [recovers] at left ⊢
    rw [recovers'] at right ⊢
    have blames : p.Blames (p.errorHere kind message) [] 0 p' :=
      ⟨left.1, left.2, by rw [still.collectors, Parser.grow_nil], still.position⟩
    have blames' : q.Blames (q.errorHere kind message) [] 0 q' :=
      ⟨right.1, right.2, by rw [still'.collectors, Parser.grow_nil], still'.position⟩
    have along : c.Along p' q' := before.1.toAlong.blamed blames blames' atToken.toSameRank grows
      ((before.1.toAlong.errorHere before.1.room kind message).mono grows) .nil
    exact .ok ⟨⟨⟨along, atToken.room, atToken.firm⟩, still.cell.symm ▸ before.2⟩, rfl⟩ (kept.trans grows)
      ⟨.nil, .none, rfl, rfl, rfl⟩
  retains := Parser.retains_recover _ _ _

theorem complain {kind : ErrorKind} (message : String) (only : Parser.isRecordedOnly kind) :
    Parallel c (c.At here) (fun _ => c.At here) W (Parser.complain kind message) (Parser.complain kind message) := by
  unfold Parser.complain
  rw [Parser.discard_eq]
  exact (recorded (some message) [] only).bind fun _ _ _ _ => .pure rfl fun _ _ holds => holds.1

/-- What goes on at the same token whether there is something to complain about or not. -/
theorem complainIf {known : Prop} [Decidable known] {kind : ErrorKind} {message : String} {f f' : ParseM α}
    (only : Parser.isRecordedOnly kind) (next : ∀ {W'}, W ≤ W' → Parallel c (c.At here) post W' f f') :
    Parallel c (c.At here) post W (if known then Parser.complain kind message >>= fun _ => f else f)
      (if known then Parser.complain kind message >>= fun _ => f' else f') :=
  .ite ((complain message only).bind fun _ _ le _ => next le) (next (le_refl W))

/-- The same where the complaint is about something that is missing. -/
theorem complainUnless {known : Prop} [Decidable known] {kind : ErrorKind} {message : String} {f f' : ParseM α}
    (only : Parser.isRecordedOnly kind) (next : ∀ {W'}, W ≤ W' → Parallel c (c.At here) post W' f f') :
    Parallel c (c.At here) post W (if known then f else Parser.complain kind message >>= fun _ => f)
      (if known then f' else Parser.complain kind message >>= fun _ => f') :=
  .ite (next (le_refl W)) ((complain message only).bind fun _ _ le _ => next le)

theorem takeMissingName (message : Option String) :
    Parallel c (c.At here) (fun _ => c.At here) W (Parser.takeMissingName message)
      (Parser.takeMissingName message) where
  runs p q before kept := by
    have atToken := before.1.atToken
    obtain ⟨p', takes, steps, left⟩ := Parser.takeMissingName_named atToken.sound.1 atToken.rests.1 message
    obtain ⟨q', takes', steps', right⟩ := Parser.takeMissingName_named atToken.sound.2 atToken.rests.2 message
    obtain ⟨-, sound⟩ := TokenStream.insertMissingName_named atToken.sound.1 atToken.rests.1 (Parser.defines_name _)
    obtain ⟨-, sound'⟩ := TokenStream.insertMissingName_named atToken.sound.2 atToken.rests.2 (Parser.defines_name _)
    obtain ⟨named, first, cells⟩ := atToken.named ⟨sound, sound'⟩
    obtain ⟨there, second⟩ := named.read steps steps'
    have cells := cells.mono second
    have grows := first.trans second
    rw [takes, takes']
    have along : c.Along p' q' := before.1.toAlong.blamed left right there.toSameRank grows
      ((before.1.toAlong.errorHere before.1.room .nameExpected message).mono grows) (.cons cells .nil)
    refine .ok ⟨⟨along, there.room, there.firm⟩, ?_⟩ (kept.trans grows) cells
    rw [show p'.cell = p.stream.named.current from steps.current_eq]
    exact before.2
  retains := Parser.retains_takeMissingName message

/-- Both parses search for the same, each with its own error at the cursor. -/
theorem InStep.searched {goal : TokenKind → Prop} {p q : Parser} (inStep : c.InStep p q) (kept : W ≤ c.paired p q)
    {kind : ErrorKind} {message : Option String} {closers : List TokenKind} {escalate : Bool}
    {found found' : Option (List Cell)} {s t : TokenStream}
    (searched : c.Searched goal p.stream q.stream found found' s t)
    (repairs : Engine.repair (p.errorHere kind message) closers (p.blame kind message) =
      .ok (p.searchedOutcome kind message escalate found) { p.blame kind message with stream := s })
    (repairs' : Engine.repair (q.errorHere kind message) closers (q.blame kind message) =
      .ok (q.searchedOutcome kind message escalate found') { q.blame kind message with stream := t }) :
    Together c (fun outcome p q => c.InStep p q ∧ (outcome.resumed → goal p.cell.kind)) W
      (Parser.recover kind message closers p) (Parser.recover kind message closers q) := by
  obtain ⟨p', recovers, steps, left⟩ := Parser.recover_blames repairs searched.atToken.sound.1
  obtain ⟨q', recovers', steps', right⟩ := Parser.recover_blames repairs' searched.atToken.sound.2
  obtain ⟨there, later⟩ := searched.atToken.read steps steps'
  have grows := searched.kept.trans later
  have error := (inStep.toAlong.errorHere inStep.room kind message).mono grows
  have found := searched.alike.mono later
  have arrived := searched.arrived
  rw [recovers, recovers']
  cases found with
  | none =>
    have along : c.Along p' q' := inStep.toAlong.blamed left right there.toSameRank grows error .nil
    exact .ok ⟨⟨along, there.room, there.firm⟩, nofun⟩ (kept.trans grows) ⟨.nil, .none, rfl, rfl, rfl⟩
  | @some cells cells' skipped =>
    have lengths : cells.length = cells'.length := skipped.length_eq
    have right' : q.Blames (q.errorHere kind message) cells' cells.length q' := lengths ▸ right
    have along : c.Along p' q' := inStep.toAlong.blamed left right' there.toSameRank grows error skipped
    refine .ok ⟨⟨along, there.room, there.firm⟩, fun _ => ?_⟩ (kept.trans grows) ⟨skipped, .none, rfl, rfl, rfl⟩
    rw [show p'.cell = s.current from steps.current_eq]
    exact arrived rfl

/-- A closing bracket is searched for. -/
theorem recover_closer (kind : TokenKind) (message : Option String) : Parallel c (c.At here)
    (fun outcome p q => c.InStep p q ∧ (outcome.resumed → p.cell.kind ∈ [kind])) W
    (Parser.recover .unmatchedBracket message [kind]) (Parser.recover .unmatchedBracket message [kind]) where
  runs p q before kept := by
    have atToken := before.1.atToken
    obtain ⟨found, found', s, t, walks, walks', searched⟩ := atToken.searchCloser [kind] (p.stream.total + 1)
      (q.stream.total + 1) 0 .nil (Nat.le_succ_of_le atToken.sound.1.kinds_length_le)
      (Nat.le_succ_of_le atToken.sound.2.kinds_length_le)
    obtain ⟨s, t, searches, searches', searched⟩ := atToken.search walks walks' searched
    exact InStep.searched before.1 kept searched (Parser.repair_closer message [kind] searches)
      (Parser.repair_closer message [kind] searches')
  retains := Parser.retains_recover _ _ _

/-- The end of a block is searched for. That it has to be means that the layout is lost, so how far the search may go
makes no difference in a thrifty frame. -/
theorem recover_dedent (through : ¬ c.lined) (message : Option String) : Parallel c (c.At here)
    (fun outcome p q => c.InStep p q ∧ (outcome.resumed → p.cell.kind = .dedent)) W
    (Parser.recover .dedentExpected message []) (Parser.recover .dedentExpected message []) where
  runs p q before kept := by
    have atToken := before.1.atToken
    obtain ⟨found, found', s, t, walks, walks', searched⟩ :=
      atToken.searchDedent through p.engine.options.dedentBudget 0 .nil
    obtain ⟨s, t, searches, searches', searched⟩ := atToken.search walks walks' searched
    rcases before.1.budget with thrifty | budget
    · refine .spoilt fun fair => ?_
      have proper := (fair.thrifty thrifty).2 (p.errorHere .dedentExpected message)
      rw [(Parser.recover_after _ _ _ p).1, Array.toList_push] at proper
      exact (proper (by simp)).1 rfl
    · exact InStep.searched before.1 kept searched (Parser.repair_dedent message [] searches)
        (Parser.repair_dedent message [] (budget ▸ searches'))
  retains := Parser.retains_recover _ _ _

/-- Values of repairs that are alike have gone on alike. -/
theorem expectCloser {kind : TokenKind} (message : Option String) (inline : kind.isInline) :
    Parallel c (c.At here) (fun _ => c.Stepped) W (Parser.expectCloser kind message)
      (Parser.expectCloser kind message) := by
  have taken : ∀ {W} {pre : Parser → Parser → Prop}, (∀ p q, pre p q → c.At (· = kind) p q) →
      Parallel c pre (fun _ => c.Stepped) W (Parser.bump >>= fun cell => pure (some cell))
        (Parser.bump >>= fun cell => pure (some cell)) := fun there =>
    ((bump_at inline).before there).bind fun _ _ _ cell => .pure (.some cell) fun _ _ holds => holds
  unfold Parser.expectCloser
  refine (at? kind).same fun there _ => ?_
  split
  next here => exact taken (Frame.At.imp fun other holds => by simpa [here] using holds.2)
  next =>
    refine (recover_closer kind message).bind fun outcome outcome' _ alike => ?_
    have resumed : outcome.resumed = outcome'.resumed := alike.resumed
    rw [← resumed]
    split
    next resumes => exact taken fun p q holds => ⟨holds.1, by simpa using holds.2 resumes⟩
    next => exact .pure .none fun p q holds => ⟨holds.1, trivial⟩

end Parallel

end TolerantParser
