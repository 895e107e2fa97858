import TolerantParser.Proofs.Parser.InStepRepair
import TolerantParser.Proofs.Parser.Spending

/-!
What the core of the parser spends. Going over a token brings in what the token pays for, an error costs what is put in
for it and itself, and making nodes costs nothing. Whatever is said of an error is said on one line.
-/

namespace TolerantParser

open TokenStream (Steps bind_ok bind_eq_ok)

/-! ### Messages -/

theorem ErrorKind.oneLine_message (kind : ErrorKind) : OneLine kind.spec.message.toList := by
  cases kind <;> decide

/-- A message is of one line, if there is one. -/
def Tellable (message : Option String) : Prop := ∀ text ∈ message, OneLine text.toList

instance (message : Option String) : Decidable (Tellable message) :=
  match message with
  | none => .isTrue nofun
  | some text => decidable_of_iff (OneLine text.toList) (by simp [Tellable])

/-- An error that has no message of its own has that of its kind. -/
theorem ParseError.oneLine_ofMessage {message : Option String} (tellable : Tellable message) (kind : ErrorKind)
    (cell : Cell) : OneLine (ParseError.ofMessage kind cell message).message.toList := by
  cases message with
  | none => exact kind.oneLine_message
  | some text =>
    by_cases empty : text.isEmpty
    · simpa [ParseError.ofMessage, empty] using kind.oneLine_message
    · simpa [ParseError.ofMessage, empty] using tellable text rfl

namespace Parser

variable {α : Type} {d : Dialect} {p q : Parser} {moved : List Cell} {here : TokenKind → Prop}

/-! ### Steps that spend little -/

section

variable {f : ParseM α}

/-- Handing around what was collected costs nothing. -/
theorem stays_handsAround (hands : HandsAround f) : Stays d 0 f where
  costs :=
    { onward := fun {p} steady _ => by
        obtain ⟨collectors, leaves⟩ := hands p
        exact leaves ▸ .ofEngine steady rfl
      pays := fun {p q _} _ _ done _ => by
        obtain ⟨collectors, leaves⟩ := hands p
        rw [after_ok done] at leaves
        rw [leaves, add_zero]
        exact (bill_ofEngine rfl).le }
  kind {p q _} _ done := by
    obtain ⟨collectors, leaves⟩ := hands p
    rw [after_ok done] at leaves
    rw [leaves]
    rfl

theorem handsAround_start : HandsAround start := fun p => ⟨#[] :: p.collectors, rfl⟩

/-- Steps that go over tokens and find errors. -/
theorem costs_went {c : Cost} (goes : ∀ p : Parser, p.Steady d → here p.cell.kind →
    ∃ value q moved found, f p = .ok value q ∧ Went p moved found q ∧ q.bill ≤ p.bill + c) : Costs d here c f where
  onward {p} steady starts := by
    obtain ⟨_, q, _, _, done, went, -⟩ := goes p steady starts
    exact (after_ok done).symm ▸ went.onward steady
  pays {p q _} steady starts done _ := by
    obtain ⟨_, _, _, _, done', -, paid⟩ := goes p steady starts
    obtain ⟨-, rfl⟩ := EStateM.Result.ok.inj (done'.symm.trans done)
    exact paid

/-- Steps that stay where they are and find so many errors. -/
theorem stays_still (count : Nat) (stands : ∀ p : Parser, p.Steady d →
    ∃ value q found, f p = .ok value q ∧ Went p [] found q ∧ found.length = count) : Stays d (0, (count : Int)) f where
  costs := costs_went fun p steady _ => by
    obtain ⟨value, q, found, done, went, rfl⟩ := stands p steady
    exact ⟨value, q, [], found, done, went, went.bill_le⟩
  kind {p q _} steady done := by
    obtain ⟨_, _, _, done', went, -⟩ := stands p steady
    obtain ⟨-, rfl⟩ := EStateM.Result.ok.inj (done'.symm.trans done)
    exact congrArg (·.kind) went.steps.current_eq

theorem costs_look (looks : ∀ p, ∃ value, f p = .ok value p) : Costs d here 0 f :=
  costs_went fun p steady _ => by
    obtain ⟨value, looked⟩ := looks p
    refine ⟨value, p, [], [], looked, .still steady (.refl steady.sound) (List.append_nil _).symm ?_, ?_⟩
    · exact List.forall_mem_nil _
    · rw [add_zero]

theorem stays_nth (count : Nat) : Stays d 0 (nth count) :=
  stays_still 0 fun p steady => by
    obtain ⟨cell, t, looks, steps, -⟩ := TokenStream.peek_eq count steady.sound steady.rests
    refine ⟨_, _, [], bind_ok (onStream_ok looks) _, .still steady steps (List.append_nil _).symm ?_, rfl⟩
    exact List.forall_mem_nil _

end

/-! ### Going over tokens -/

section

variable {f g : ParseM α} {mid : α → Cost} {kind : TokenKind}

/-- The token at the cursor pays. -/
theorem costs_bump : Costs d (· = kind) (-toll kind) bump := costs_went fun p steady here => by
  by_cases ends : p.cell.kind = .endOfFile
  · refine ⟨p.cell, p, [], [], bump_end ends, .still steady (.refl steady.sound) (List.append_nil _).symm ?_, ?_⟩
    · exact List.forall_mem_nil _
    · rw [← here, toll, if_pos ends, neg_zero, add_zero]
  · obtain ⟨comments, t, bumps, steps, others, rested⟩ := bump_eq steady.sound ends
    have went : Went p (p.cell :: comments) [] (p.bumped t) :=
      ⟨steps, rested, (List.append_nil _).symm, List.forall_mem_nil _⟩
    have kinds : p.kinds = p.cell.kind :: (p.bumped t).kinds := steps.kinds_cons steady.rests others
    refine ⟨_, _, _, _, bumps, went, ?_⟩
    have paid := went.bill 1 (by rw [kinds, List.length_cons])
    rw [← here, toll, if_neg ends]
    exact paid

theorem toll_nonneg (kind : TokenKind) : 0 ≤ toll kind := by
  unfold toll
  split <;> decide

/-- Whatever is at the cursor, going over it costs nothing. -/
theorem costs_bumpOver : Costs d here 0 bump where
  onward steady _ := costs_bump.onward steady rfl
  pays {p _ _} steady _ done calm :=
    (costs_bump.pays steady rfl done calm).trans (add_le_add_right (neg_nonpos.2 (toll_nonneg p.cell.kind)) _)

theorem costs_bumpAt (more : ∀ kind, here kind → kind ≠ .endOfFile) : Costs d here (-2, -6) bump where
  onward steady _ := costs_bump.onward steady rfl
  pays {p q _} steady starts done calm := by
    have paid := costs_bump.pays steady rfl done calm
    rwa [toll, if_neg (more _ starts)] at paid

/-- Behind a token that was gone over because it was there, there is what it pays for to spend. -/
theorem Spends.ifEat (yes : Spends d Anywhere (fun value => mid value + toll kind) f)
    (no : Spends d (fun other => here other ∧ other ≠ kind) mid g) :
    Spends d here mid (eat kind >>= fun eaten => if eaten = true then f else g) := by
  have whole : (eat kind >>= fun eaten => if eaten = true then f else g) =
      at? kind >>= fun there => if there = true then bump >>= fun _ => f else g := by
    rw [eat_eq, bind_assoc]
    congr 1
    funext there
    cases there <;> simp
  rw [whole]
  exact .ifAt (fun _ => costs_bump.bind fun _ => by simpa only [sub_neg_eq_add] using yes) no

theorem costs_eat (kind : TokenKind) : Costs d here 0 (eat kind) := by
  rw [eat_eq]
  exact .look (fun _ => ⟨_, rfl⟩) fun there =>
    .ite (fun _ => costs_bumpOver.bind fun _ => .pure (by decide)) fun _ => .pure (le_refl _)

end

/-! ### Errors and their repairs -/

section

variable {kind : ErrorKind} {message : Option String}

/-- What an error of some kind costs. Where a name is missing one is put in. -/
def fine (kind : ErrorKind) : Cost := if kind = .nameExpected then (1, 1) else (0, 1)

/-- After a repair that goes over tokens the parse has gone over these and found the error. -/
theorem went_repaired {closers : List TokenKind} {outcome : Outcome} {stream : TokenStream}
    (tellable : Tellable message)
    (repairs : Engine.repair (p.errorHere kind message) closers (p.blame kind message) =
      .ok outcome { p.blame kind message with stream }) (steps : Steps p.stream moved stream) (rests : stream.Rests) :
    ∃ q, recover kind message closers p = .ok outcome q ∧ Went p moved [p.errorHere kind message] q := by
  obtain ⟨q, recovers, more, errors, -, -⟩ := recover_ok repairs steps.sound
  have pushed : q.errors = p.errors.push (p.errorHere kind message) := errors
  refine ⟨q, recovers, ?_, ?_, by rw [pushed, Array.toList_push], ?_⟩
  · simpa using steps.trans more
  · rw [TokenStream.Rests, more.current_eq]
    exact rests
  · exact List.forall_mem_singleton.2 (ParseError.oneLine_ofMessage tellable kind p.cell)

/-- No error but that of a missing name changes the tokens. -/
theorem recover_went (other : kind ≠ .nameExpected) (tellable : Tellable message)
    (closers : List TokenKind) (steady : p.Steady d) :
    ∃ outcome q moved, recover kind message closers p = .ok outcome q ∧ Went p moved [p.errorHere kind message] q := by
  have searched {search : StreamM (Option (List Cell))} {found : Option (List Cell)} {t : TokenStream}
      {moved : List Cell} {escalate : Bool} (walks : search p.stream = .ok found t) (steps : Steps p.stream moved t)
      (rested : t.Rests) (passed : ∀ cells, found = some cells → cells = TokenStream.significant moved)
      (repairs : ∀ u, TokenStream.search search p.stream = .ok found u →
        Engine.repair (p.errorHere kind message) closers (p.blame kind message) =
          .ok (p.searchedOutcome kind message escalate found) { p.blame kind message with stream := u }) :
      ∃ outcome q moved, recover kind message closers p = .ok outcome q ∧
        Went p moved [p.errorHere kind message] q := by
    obtain ⟨u, moved, searches, steps, rests, -, -⟩ := TokenStream.search_eq walks steps steady.rests rested passed
    obtain ⟨q, recovers, went⟩ := went_repaired tellable (repairs u searches) steps rests
    exact ⟨_, q, moved, recovers, went⟩
  cases repaired : isRecordedOnly kind with
  | true =>
    obtain ⟨q, recovers, still, errors⟩ := recover_recorded repaired message closers steady.sound
    refine ⟨_, q, [], recovers, .still steady still.steps (by rw [errors, Array.toList_push]) ?_⟩
    exact List.forall_mem_singleton.2 (ParseError.oneLine_ofMessage tellable kind p.cell)
  | false =>
    cases kind with
    | dedentExpected =>
      obtain ⟨moved, t, found, walks, steps, rested, parts⟩ :=
        TokenStream.searchDedent_eq p.engine.options.dedentBudget 0 [] steady.sound steady.rests
      exact searched walks steps rested (fun cells some => by simpa using (parts cells some).1)
        fun u searches => repair_dedent message closers searches
    | unmatchedBracket =>
      obtain ⟨moved, t, found, walks, steps, rested, parts⟩ :=
        TokenStream.searchCloser_eq (wantedClosers closers) _ 0 [] steady.sound steady.rests
          (Nat.le_succ_of_le steady.sound.kinds_length_le)
      exact searched walks steps rested (fun cells some => by simpa using (parts cells some).1)
        fun u searches => repair_closer message closers searches
    | nameExpected => exact absurd rfl other
    | _ => cases repaired

/-- Where a name is put in at the cursor, what comes is the same. -/
theorem inserted {s t : TokenStream} {cell : Cell} (put : cell.synthetic = true) (shape : t = { s with
      behind := cell :: s.behind, current := { s.current with lead := "" }, size := s.size + 1 }) :
    Mends.puts t.tokens = Mends.puts s.tokens + 1 ∧ t.kinds = s.kinds ∧
      ∀ cell ∈ s.document, ∃ same ∈ t.document, same.index = cell.index ∧ same.kind = cell.kind := by
  subst shape
  refine ⟨?_, rfl, fun same listed => ?_⟩
  · simp only [TokenStream.tokens_eq, Mends.puts, TokenStream.upcoming, List.reverse_cons, List.map_append,
      List.map_cons, List.map_nil, List.countP_append, List.countP_cons, List.countP_nil, put, if_true]
    omega
  · simp only [TokenStream.document, List.mem_append, List.mem_cons] at listed ⊢
    rcases listed with before | rfl | after
    · exact ⟨same, .inl (by simp [List.mem_reverse.1 before]), rfl, rfl⟩
    · exact ⟨{ s.current with lead := "" }, .inr (.inl rfl), rfl, rfl⟩
    · exact ⟨same, .inr (.inr after), rfl, rfl⟩

/-- For a missing name one more is put in. -/
theorem recover_name_puts (tellable : Tellable message) (closers : List TokenKind)
    (steady : p.Steady d) :
    ∃ outcome q, recover .nameExpected message closers p = .ok outcome q ∧ Onward d p q ∧ q.bill = p.bill + (1, 1) := by
  obtain ⟨cell, t, inserts, -, shape, stays, put, -, mends, -⟩ :=
    TokenStream.insertMissingName_eq steady.sound steady.rests (defines_name _)
  obtain ⟨puts, kinds, known⟩ := inserted put shape
  obtain ⟨q, recovers, steps, errors, -, -⟩ := recover_ok (repair_name message closers inserts) stays
  have pushed : q.errors.toList = p.errors.toList ++ [p.errorHere .nameExpected message] := by
    rw [show q.errors = p.errors.push _ from errors, Array.toList_push]
  have tokens : q.stream.tokens = t.tokens := steps.tokens
  have here : q.cell.kind = p.cell.kind := by
    rw [show q.cell = t.current from steps.current_eq, shape]
    rfl
  refine ⟨_, q, recovers, ⟨⟨?_, steps.sound, ?_, ?_, ?_⟩, fun cell listed => ?_, ?_⟩, ?_⟩
  · show q.stream.dialect = d
    rw [show q.stream.dialect = t.dialect from steps.dialect, shape]
    exact steady.dialect
  · show q.cell.kind ≠ .comment
    rw [here]
    exact steady.rests
  · rw [tokens]
    exact mends.worded steady.worded
  · rw [pushed]
    exact List.forall_mem_append.2 ⟨steady.oneLine,
      List.forall_mem_singleton.2 (ParseError.oneLine_ofMessage tellable .nameExpected p.cell)⟩
  · obtain ⟨same, there, alike⟩ := known cell listed
    exact ⟨same, steps.document.subset there, alike⟩
  · rw [pushed]
    exact List.prefix_append ..
  · have coming : q.kinds = p.kinds := steps.kinds.symm.trans kinds
    simp only [bill, tokens, puts, coming, pushed, List.length_append, List.length_singleton, Prod.mk_add_mk,
      Prod.mk.injEq]
    omega

/-- Any error costs what its kind does. -/
theorem costs_recover (tellable : Tellable message) (closers : List TokenKind) :
    Costs d here (fine kind) (recover kind message closers) := by
  by_cases missing : kind = .nameExpected
  · subst missing
    refine ⟨fun {p} steady _ => ?_, fun {p q _} steady _ done _ => ?_⟩
    · obtain ⟨_, q, recovers, onward, -⟩ := recover_name_puts tellable closers steady
      exact (after_ok recovers).symm ▸ onward
    · obtain ⟨_, _, recovers, -, bill⟩ := recover_name_puts tellable closers steady
      obtain ⟨-, rfl⟩ := EStateM.Result.ok.inj (recovers.symm.trans done)
      exact bill.le
  · refine costs_went fun p steady _ => ?_
    obtain ⟨outcome, q, moved, recovers, went⟩ := recover_went missing tellable closers steady
    refine ⟨outcome, q, moved, _, recovers, went, ?_⟩
    rw [fine, if_neg missing]
    exact went.bill_le

/-- An error that is only recorded leaves the cursor where it is. -/
theorem stays_complain (recorded : isRecordedOnly kind) {text : String} (oneLine : OneLine text.toList) :
    Stays d (0, 1) (complain kind text) :=
  Stays.discard <| stays_still 1 fun p steady => by
    obtain ⟨q, recovers, still, errors⟩ := recover_recorded recorded (some text) [] steady.sound
    refine ⟨_, q, _, recovers, .still steady still.steps (by rw [errors, Array.toList_push]) ?_, rfl⟩
    exact List.forall_mem_singleton.2 (ParseError.oneLine_ofMessage (by simpa [Tellable] using oneLine) kind p.cell)

/-- A missing name costs a name and an error. -/
theorem costs_takeMissingName (tellable : Tellable message) :
    Costs d here (1, 1) (takeMissingName message) := by
  refine (costs_recover tellable []).bind fun outcome => ?_
  cases outcome.synthetic with
  | some cell => exact ((stays_handsAround (handsAround_take cell)).costs).within (by decide)
  | none => exact .throw _

/-- Going on to a closing bracket costs at most the error that it is missing. -/
theorem costs_expectCloser (closer : TokenKind) (tellable : Tellable message) :
    Costs d here (0, 1) (expectCloser closer message) := by
  refine .ifAt (fun _ => costs_bumpOver.bind fun _ => .pure (by decide)) ?_
  refine (costs_recover tellable [closer]).bind fun outcome => ?_
  exact .ite (fun _ => costs_bumpOver.bind fun _ => .pure (by decide)) fun _ => .pure (by decide)

end

/-! ### Nodes -/

section

variable {kind : NodeKind} {node : Node} {marker : Marker} {c : Cost}

theorem stays_start : Stays d 0 start := stays_handsAround handsAround_start

theorem costs_complete (marker : Marker) (kind : NodeKind) (detail : Detail) (children : List (Label × Option Node)) :
    Costs d here 0 (complete marker kind detail children) :=
  (stays_handsAround (handsAround_complete marker kind detail children)).costs.there

theorem costs_mergeInto (marker : Marker) (node : Node) : Costs d here 0 (mergeInto marker node) :=
  (stays_handsAround (handsAround_mergeInto marker node)).costs.there

theorem costs_abandon (marker : Marker) : Costs d here 0 (abandon marker) :=
  (stays_handsAround (handsAround_abandon marker)).costs.there

theorem costs_attach (node : Node) (cell : Cell) : Costs d here 0 (attach node cell) :=
  (stays_handsAround (handsAround_attach node cell)).costs.there

/-- A node costs what it is made of. -/
theorem costs_build {body : ParseM (Detail × List (Label × Option Node))} (costs : Costs d here c body) :
    Costs d here c (build kind body) :=
  .stay stays_start fun _ => costs.andThen fun _ => costs_complete ..

/-- A token that was handed to a node has paid. -/
theorem spends_eatInto (kind : TokenKind) (node : Node) :
    Spends d here (fun made => if made.2.isSome then -toll kind else 0) (eatInto node kind) := by
  refine .ifAt (fun _ => costs_bump.bind fun cell => (costs_attach node cell).bind fun made => .pure ?_) ?_
  · simp
  · exact .pure (le_refl _)

end

end Parser

end TolerantParser
