import TolerantParser.Proofs.Parser.Course
import TolerantParser.Proofs.Stream.Reading

/-!
The core of the parser, taken one step at a time by whoever uses it. A step may be refused; the next one then goes on
from what it has left. Whatever steps are taken, but for going back, the cursor goes on only, and it can always go back
to where it was once.
-/

namespace TolerantParser

/-- A step of the core that does not go back. -/
inductive CoreStep where
  | start
  | complete (marker : Marker) (kind : NodeKind) (detail : Detail) (children : List (Label × Option Node))
  | mergeInto (marker : Marker) (node : Node)
  | abandon (marker : Marker)
  | bump
  | eat (kind : TokenKind)
  | eatInto (node : Node) (kind : TokenKind)
  | attach (node : Node) (cell : Cell)
  | take (cell : Cell)
  | collect (cells : List Cell)
  | nth (count : Nat)
  | recover (kind : ErrorKind) (message : Option String) (closers : List TokenKind)
  | expectCloser (kind : TokenKind) (message : Option String)
  | missingName (message : Option String)
  | skipLine

def CoreStep.run : CoreStep → ParseM Unit
  | .start => discard Parser.start
  | .complete marker kind detail children => discard (Parser.complete marker kind detail children)
  | .mergeInto marker node => discard (Parser.mergeInto marker node)
  | .abandon marker => Parser.abandon marker
  | .bump => discard Parser.bump
  | .eat kind => discard (Parser.eat? kind)
  | .eatInto node kind => discard (Parser.eatInto node kind)
  | .attach node cell => discard (Parser.attach node cell)
  | .take cell => discard (Parser.take cell)
  | .collect cells => Parser.collect cells
  | .nth count => discard (Parser.nth count)
  | .recover kind message closers => discard (Parser.recover kind message closers)
  | .expectCloser kind message => discard (Parser.expectCloser kind message)
  | .missingName message => discard (Parser.takeMissingName message)
  | .skipLine => Parser.skipLine

/-- The step goes over tokens, or looks at them, and hands over what it has gone over. -/
def CoreStep.goesOver : CoreStep → Bool
  | .bump | .eat _ | .nth _ | .recover .. | .expectCloser .. | .skipLine => true
  | _ => false

namespace Parser

variable {α β : Type} {p q : Parser} {moved taken left : List Cell} {marks : List Checkpoint}

theorem after_ok {steps : ParseM α} {value : α} (done : steps p = .ok value q) : after (steps p) = q := by
  rw [done, after]

theorem after_discard (steps : ParseM α) (p : Parser) : after (discard steps p) = after (steps p) := by
  simp only [discard, Functor.discard, Functor.mapConst, Function.comp_apply, EStateM.map]
  cases steps p <;> rfl

/-! ### Steps that pass on what was collected -/

/-- The steps do no more than to hand around what the nodes under construction have collected. -/
def HandsAround (steps : ParseM α) : Prop := ∀ p : Parser, ∃ collectors, after (steps p) = { p with collectors }

theorem HandsAround.bind {steps : ParseM α} {next : α → ParseM β} (first : HandsAround steps)
    (second : ∀ value, HandsAround (next value)) : HandsAround (steps >>= next) := by
  intro p
  obtain ⟨collectors, leaves⟩ := first p
  cases met : steps p with
  | ok value q =>
    rw [met] at leaves
    obtain ⟨others, later⟩ := second value q
    refine ⟨others, ?_⟩
    have whole : after ((steps >>= next) p) = after (next value q) := by
      rw [TokenStream.bind_ok met]
    rw [whole, later, show q = _ from leaves]
  | error fault q =>
    rw [met] at leaves
    refine ⟨collectors, ?_⟩
    simp only [Bind.bind, EStateM.bind, met]
    exact leaves

theorem handsAround_pure (value : α) : HandsAround (pure value) := fun p => ⟨p.collectors, rfl⟩

theorem handsAround_collect (cells : List Cell) : HandsAround (collect cells) := fun p =>
  ⟨grow cells p.collectors, after_ok (collect_eq cells p)⟩

theorem close_cases (marker : Marker) (p : Parser) :
    close marker p = .error .markersOutOfOrder p ∨ ∃ innermost outer, p.collectors = innermost :: outer ∧
      marker.depth = outer.length ∧ close marker p = .ok innermost.toList { p with collectors := outer } := by
  have start : (get : ParseM Parser) p = .ok p p := rfl
  rw [close, TokenStream.bind_ok start]
  cases open_ : p.collectors with
  | nil => exact .inl rfl
  | cons innermost outer =>
    by_cases fits : marker.depth = outer.length
    · refine .inr ⟨innermost, outer, rfl, fits, ?_⟩
      have same : (marker.depth != outer.length) = false := by simp [fits]
      simp only [same]
      rfl
    · have other : (marker.depth != outer.length) = true := by simp [fits]
      simp only [other]
      exact .inl rfl

theorem release_cases (cell : Cell) (p : Parser) :
    release cell p = .error .notCollected p ∨ ∃ innermost outer rest, p.collectors = innermost :: outer ∧
      uncollect cell innermost = some rest ∧ release cell p = .ok () { p with collectors := rest :: outer } := by
  have start : (get : ParseM Parser) p = .ok p p := rfl
  rw [release, TokenStream.bind_ok start]
  cases open_ : p.collectors with
  | nil => exact .inl rfl
  | cons innermost outer =>
    cases found : uncollect cell innermost with
    | none => exact .inl (by simp only [found]; rfl)
    | some rest => exact .inr ⟨innermost, outer, rest, rfl, found, by simp only [found]; rfl⟩

theorem handsAround_close (marker : Marker) : HandsAround (close marker) := by
  intro p
  rcases close_cases marker p with refused | ⟨_, outer, -, -, closes⟩
  · exact ⟨p.collectors, by rw [refused, after]⟩
  · exact ⟨outer, after_ok closes⟩

theorem handsAround_release (cell : Cell) : HandsAround (release cell) := by
  intro p
  rcases release_cases cell p with refused | ⟨_, outer, rest, -, -, releases⟩
  · exact ⟨p.collectors, by rw [refused, after]⟩
  · exact ⟨rest :: outer, after_ok releases⟩

theorem handsAround_attach (node : Node) (cell : Cell) : HandsAround (attach node cell) :=
  (handsAround_release cell).bind fun _ => handsAround_pure _

theorem handsAround_complete (marker : Marker) (kind : NodeKind) (detail : Detail)
    (children : List (Label × Option Node)) : HandsAround (complete marker kind detail children) :=
  (handsAround_close marker).bind fun _ => handsAround_pure _

theorem handsAround_mergeInto (marker : Marker) (node : Node) : HandsAround (mergeInto marker node) :=
  (handsAround_close marker).bind fun _ => handsAround_pure _

theorem handsAround_abandon (marker : Marker) : HandsAround (abandon marker) :=
  (handsAround_close marker).bind fun _ => handsAround_collect _

theorem handsAround_take (cell : Cell) : HandsAround (take cell) :=
  (handsAround_collect [cell]).bind fun _ => handsAround_pure _

/-! ### Steps of the core -/

/-- The token that a step consumes goes to a node that has been made. -/
theorem eatInto_cases (node : Node) (kind : TokenKind) (sound : p.stream.Sound) (rests : p.stream.Rests) :
    after (eatInto node kind p) = p ∨ p.cell.kind = kind ∧ ∃ q moved, Course p moved p.bumpedCells [] q ∧
      after (eatInto node kind p) = after (attach node p.cell q) := by
  have looks : at? kind p = .ok (p.cell.kind == kind) p := rfl
  rw [eatInto, TokenStream.bind_ok looks]
  by_cases here : p.cell.kind = kind
  · obtain ⟨q, moved, bumps, course, -⟩ := bump_course sound rests
    refine .inr ⟨here, q, moved, course, ?_⟩
    rw [if_pos (by simp [here]), TokenStream.bind_ok bumps]
    simp only [Bind.bind, EStateM.bind]
    cases attach node p.cell q <;> rfl
  · exact .inl (by rw [if_neg (by simp [here])]; rfl)

theorem goesOver_course {step : CoreStep} (moves : step.goesOver) (sound : p.stream.Sound) (rests : p.stream.Rests) :
    ∃ moved taken left, Course p moved taken left (after (step.run p)) := by
  have gone {α : Type} {steps : ParseM α} {value : α} {q : Parser} {moved taken left : List Cell}
      (done : steps p = .ok value q) (course : Course p moved taken left q) :
      ∃ moved taken left, Course p moved taken left (after (steps p)) :=
    ⟨moved, taken, left, (after_ok done).symm ▸ course⟩
  cases step <;> rw [CoreStep.run] <;> try rw [after_discard]
  case bump =>
    obtain ⟨q, moved, bumps, course, -⟩ := bump_course sound rests
    exact gone bumps course
  case eat kind =>
    obtain ⟨_, q, moved, taken, eats, course⟩ := eat?_course kind sound rests
    exact gone eats course
  case nth count =>
    obtain ⟨_, q, looks, course⟩ := nth_course count sound rests
    exact gone looks course
  case recover kind message closers =>
    obtain ⟨_, q, moved, recovers, course⟩ := recover_course kind message closers sound rests
    exact gone recovers course
  case expectCloser kind message =>
    obtain ⟨_, q, moved, taken, expects, course⟩ := expectCloser_course kind message sound rests
    exact gone expects course
  case skipLine =>
    obtain ⟨q, moved, taken, skips, course⟩ := skipLine_course sound rests
    exact gone skips course
  all_goals cases moves

/-- A step goes over tokens, or it hands around what was collected, or first the one and then the other. -/
theorem after_course (step : CoreStep) (sound : p.stream.Sound) (rests : p.stream.Rests) :
    ∃ q moved taken left, Course p moved taken left q ∧
      after (step.run p) = { q with collectors := (after (step.run p)).collectors } := by
  cases moves : step.goesOver with
  | true =>
    obtain ⟨moved, taken, left, course⟩ := goesOver_course moves sound rests
    exact ⟨_, moved, taken, left, course, rfl⟩
  | false =>
    have still {α : Type} {steps : ParseM α} (hands : HandsAround steps) : ∃ q moved taken left,
        Course p moved taken left q ∧ after (steps p) = { q with collectors := (after (steps p)).collectors } := by
      obtain ⟨collectors, leaves⟩ := hands p
      exact ⟨p, [], [], [], .refl sound rests, by rw [leaves]⟩
    cases step <;> rw [CoreStep.run] <;> try rw [after_discard]
    case start => exact ⟨p, [], [], [], .refl sound rests, rfl⟩
    case complete => exact still (handsAround_complete _ _ _ _)
    case mergeInto => exact still (handsAround_mergeInto _ _)
    case abandon => exact still (handsAround_abandon _)
    case attach => exact still (handsAround_attach _ _)
    case take => exact still (handsAround_take _)
    case collect => exact still (handsAround_collect _)
    case eatInto node kind =>
      rcases eatInto_cases node kind sound rests with same | ⟨-, q, moved, course, leaves⟩
      · exact ⟨p, [], [], [], .refl sound rests, by rw [same]⟩
      · obtain ⟨collectors, attaches⟩ := handsAround_attach node p.cell q
        exact ⟨q, moved, _, [], course, by rw [leaves, attaches]⟩
    case missingName message =>
      obtain ⟨cell, q, takes, course⟩ := takeMissingName_course message sound rests
      exact ⟨q, _, _, _, course, by rw [after_ok takes]⟩
    all_goals cases moves

/-! ### Parses that can be reached -/

/-- A parse that has been reached from a fresh one, over tokens of the dialect, the last of which ends the file. On the
way there were checkpoints, to any of which it may have gone back. -/
inductive Reached : List Checkpoint → Parser → Prop
  | fresh {serial : Nat} {d : Dialect} {tokens : List Token} {options : ParseOptions} {stream : TokenStream} :
      (∀ token ∈ tokens, d.defines token.kind) → EndsOnce (tokens.map (·.kind)) →
      TokenStream.ofTokens serial d options.onDemand tokens = .ok stream → Reached [] (.ofStream stream options)
  | step {marks : List Checkpoint} {p : Parser} (step : CoreStep) : Reached marks p → Reached marks (after (step.run p))
  | mark {marks : List Checkpoint} {p : Parser} : Reached marks p → Reached (p.here :: marks) p
  | back {marks : List Checkpoint} {p q : Parser} {c : Checkpoint} : Reached marks p → c ∈ marks →
      rewind c p = .ok () q → Reached marks q

/-- The parse can go on, and it can go back to any checkpoint. -/
theorem Reached.sound (reached : Reached marks p) : p.stream.Sound ∧ p.stream.Rests ∧
    ∀ c ∈ marks, ∃ cell ∈ p.stream.document, cell.index = c.cursor ∧ cell.kind ≠ .comment := by
  induction reached with
  | fresh defined ended opens =>
    obtain ⟨stream, opens', sound, rests, -⟩ := TokenStream.ofTokens_eq _ _ defined ended
    obtain rfl := Except.ok.inj (opens.symm.trans opens')
    exact ⟨sound, rests, nofun⟩
  | @step marks p step _ ih =>
    obtain ⟨sound, rests, known⟩ := ih
    obtain ⟨q, moved, taken, left, course, leaves⟩ := after_course step sound rests
    rw [leaves]
    refine ⟨course.sound, course.rests, fun c member => ?_⟩
    obtain ⟨cell, listed, cursor, met⟩ := known c member
    obtain ⟨same, there, index, kind⟩ := course.known cell listed
    exact ⟨same, there, index.trans cursor, kind ▸ met⟩
  | @mark marks p _ ih =>
    refine ⟨ih.1, ih.2.1, List.forall_mem_cons.2 ⟨⟨p.cell, ?_, rfl, ih.2.1⟩, ih.2.2⟩⟩
    exact List.mem_append_right _ List.mem_cons_self
  | @back marks p q c _ member rewinds ih =>
    obtain ⟨sound, -, known⟩ := ih
    obtain ⟨cell, listed, cursor, met⟩ := known c member
    have stream : q.stream = p.stream.seek cell.index := by
      rw [cursor]
      exact (congrArg (fun result => match result with | .ok _ q => q.stream | .error _ q => q.stream) rewinds).symm
    obtain ⟨before, after, parts⟩ := List.append_of_mem listed
    have keeps := sound.seek cell.index
    rw [stream]
    refine ⟨keeps.sound, ?_, fun c member => ?_⟩
    · rw [TokenStream.seek_eq sound.nodup parts]
      exact met
    · obtain ⟨other, there, rest⟩ := known c member
      exact ⟨other, keeps.document.subset there, rest⟩

end Parser

end TolerantParser
