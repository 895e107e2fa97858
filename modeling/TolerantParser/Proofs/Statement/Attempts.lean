import TolerantParser.Proofs.Parser.CoreSteps
import TolerantParser.Proofs.Parser.Rounds
import TolerantParser.Proofs.Statement.Basic

/-!
What it comes to when a statement is looked for, wherever the parse is. The attempt leaves no trace where no statement
can start. Everywhere else the parse gets on, also where the statement is given up because it nests too deeply, and
where all that was found of it had to be put in. So a list of statements never stalls, and it ends only where it should.
-/

namespace TolerantParser.Parser

variable {limits : Limits} {laid : Prop} {level : Depth} {p q : Parser} {inner : Inner}

/-- Nothing is claimed of the layout, and of the brackets only what is so: such a state is one between two steps. -/
theorem ready_anywhere (sound : p.stream.Sound) (rests : p.stream.Rests) (inside : p.collectors ≠ []) :
    Ready False .block ⟨0, awaitedAfter [] p.passed⟩ p where
  sound
  rests
  inside
  laid orderly := orderly.1.elim
  nested _ := rfl

/-! ### Attempts -/

/-- The parse has got on, and the nodes under construction have kept what they had. -/
structure Advances (p q : Parser) : Prop where
  position : p.position < q.position
  height : q.collectors.length = p.collectors.length
  kept : List.Forall₂ (fun before after => before.toList <+: after.toList) p.collectors q.collectors

/-- What an attempt at a statement comes to. -/
inductive Attempt (p : Parser) : Parsed → Parser → Prop
  | absent (nothing : p.starts = false) : Attempt p ⟨false, []⟩ p
  | present {nodes : List Node} {q : Parser} (started : p.starts) (advances : Advances p q) :
      Attempt p ⟨true, nodes⟩ q

theorem kept_grow (cells : List Cell) (collectors : List (Array Cell)) :
    List.Forall₂ (fun before after => before.toList <+: after.toList) collectors (grow cells collectors) := by
  have same (rest : List (Array Cell)) :
      List.Forall₂ (fun before after => before.toList <+: after.toList) rest rest :=
    List.forall₂_same.2 fun _ _ => List.prefix_refl _
  cases collectors with
  | nil => exact .nil
  | cons innermost outer => exact .cons (by simp) (same outer)

theorem Moves.advances {mode : Mode} {lead : Prop} {ps : List Piece} (moves : Moves laid mode lead ps p q)
    (further : p.position < q.position) : Advances p q where
  position := further
  height := by rw [moves.collectors, grow_length]
  kept := by
    rw [moves.collectors]
    exact kept_grow ..

/-- Where a statement can start, one is found, or the attempt is given up and counts as one. -/
theorem guardedStatement_present (works : inner.Works laid) (ready : Ready laid .block level p) (started : p.starts)
    {parsed : Parsed} (steps : guardedStatement inner p = .ok parsed q) : parsed.present := by
  have began : checkpoint p = .ok p.here p := rfl
  rw [guardedStatement, TokenStream.bind_ok began, orTooDeep] at steps
  have any := anyStatement_parses works ready
  cases found : anyStatement inner p with
  | ok value r =>
    rw [found] at steps
    obtain ⟨rfl, rfl⟩ := EStateM.Result.ok.inj steps
    rw [parses_iff, completes_iff, ends_ok found] at any
    obtain ⟨ps, moves, -, stated⟩ := any
    -- an absent statement would have left the cursor where it was
    by_contra absent
    obtain ⟨rfl, -⟩ := stated.absent (by simpa using absent)
    exact Nat.lt_irrefl _ (moves.leads started).2
  | error fault r =>
    simp only [parses_iff, Completes, Ends, found] at any
    obtain ⟨rfl, -⟩ := any
    rw [found] at steps
    obtain ⟨_, _, -, steps⟩ := TokenStream.bind_eq_ok steps
    obtain ⟨_, _, -, steps⟩ := TokenStream.bind_eq_ok steps
    obtain ⟨_, _, -, steps⟩ := TokenStream.bind_eq_ok steps
    obtain ⟨rfl, -⟩ := EStateM.Result.ok.inj steps
    rfl

theorem guardedStatement_attempt (works : inner.Works laid) (ready : Ready laid .block level p) :
    ∃ parsed q, guardedStatement inner p = .ok parsed q ∧ Attempt p parsed q := by
  cases started : p.starts with
  | false =>
    have began : checkpoint p = .ok p.here p := rfl
    refine ⟨⟨false, []⟩, p, ?_, .absent started⟩
    rw [guardedStatement, TokenStream.bind_ok began, orTooDeep, anyStatement_none started]
  | true =>
    obtain ⟨⟨present, nodes⟩, q, ps, steps, moves, -, stated⟩ := guardedStatement_takes works ready
    obtain rfl : present = true := guardedStatement_present works ready started steps
    exact ⟨⟨true, nodes⟩, q, steps, .present started (moves.advances (stated.present rfl).1)⟩

/-! ### Lists -/

/-- The productions of a block in which others may nest so deep. -/
def upTo (limits : Limits) (depth : Nat) : Inner := ⟨.full limits, statementAt (.full limits) depth⟩

theorem upTo_works (limits : Limits) (laid : Prop) (depth : Nat) : (upTo limits depth).Works laid :=
  ⟨full_works limits laid, statementAt_parses (full_works limits laid) depth⟩

/-- A statement is refused outright only where blocks may not nest any further. -/
theorem upTo_statement (limits : Limits) (depth : Nat) (ready : Ready laid .block level p) :
    Ends (upTo limits depth).statement p (fun parsed q => ∃ ps, Moves laid .block False ps p q ∧
      Ready laid .block level q ∧ Stated p parsed ps q) fun _ => depth = 0 := by
  cases depth with
  | zero => exact ⟨rfl, rfl⟩
  | succ depth =>
    obtain ⟨parsed, q, ps, steps, moves, ready', stated⟩ := guardedStatement_takes (upTo_works limits laid depth) ready
    exact (ends_ok steps).2 ⟨ps, moves, ready', stated⟩

/-- Where a list of statements begins a round, the parse has got on since the round before. -/
theorem progressed_of_rounds {depth : Nat} {stop : TokenKind → Bool} {made : Option Nat × Array Node}
    (ready : Ready laid .block level p)
    (rounds : Rounds (statementRound (upTo limits depth) stop) (none, #[]) p made q) :
    made.1.all (· < q.position) := by
  have kept : Ready laid .block level q ∧ made.1.all (· < q.position) := by
    refine rounds.induct (fun made q => Ready laid .block level q ∧ made.1.all (· < q.position)) ⟨ready, rfl⟩ ?_
    rintro made next q r ⟨ready, progress⟩ goesOn
    have round := statementRound_ends stop ready progress (upTo_statement limits depth ready)
    rw [ends_ok goesOn] at round
    obtain ⟨ps, -, ready', rounded⟩ := round
    exact ⟨ready', (rounded.goes rfl).1⟩
  exact kept.2

theorem statementList_upTo (limits : Limits) (depth : Nat) (stop : TokenKind → Bool)
    (ready : Ready laid .block level p) :
    Ends (statementList (upTo limits depth) stop) p (fun _ q => stop q.cell.kind ∨ isBlockEnd q.cell.kind)
      fun _ => depth = 0 := by
  refine Ends.imp (statementList_ends stop ready fun ps q _ ready => upTo_statement limits depth ready) ?_ fun _ => id
  rintro nodes q ⟨ps, -, -, listing⟩
  exact listing.ends

/-- Wherever a parse has come (`Reached.sound`) inside of a node, an attempt at a statement leaves no trace, where none
can start, or the parse gets on. A list of statements therefore finds at each of its rounds that it has got on. It
comes to an end, and that is at a token that stops it, at the end of a block or at the end of the file. -/
theorem statement_attempt (limits : Limits) (sound : p.stream.Sound) (rests : p.stream.Rests)
    (inside : p.collectors ≠ []) (depth : Nat) :
    (∃ parsed q, statementAt (.full limits) (depth + 1) p = .ok parsed q ∧ Attempt p parsed q) ∧
      ∀ stop, (∀ made q, Rounds (statementRound (upTo limits depth) stop) (none, #[]) p made q →
          hasProgressed made.1 q = .ok true q) ∧
        (∀ nodes q, statementList (upTo limits depth) stop p = .ok nodes q →
          q.cell.kind = .endOfFile ∨ stop q.cell.kind ∨ q.cell.kind = .dedent) ∧
        ∃ nodes q, statementList (upTo limits (depth + 1)) stop p = .ok nodes q := by
  have ready := ready_anywhere sound rests inside
  refine ⟨guardedStatement_attempt (upTo_works limits False depth) ready, fun stop => ⟨fun made q rounds => ?_, ?_, ?_⟩⟩
  · have progressed := progressed_of_rounds ready rounds
    exact congrArg (EStateM.Result.ok · q) progressed
  · intro nodes q lists
    have ends := (ends_ok lists).1 (statementList_upTo limits depth stop ready)
    by_cases last : q.cell.kind = .endOfFile
    · exact .inl last
    · exact .inr (ends.imp_right fun closes => dedent_of_isBlockEnd closes last)
  · obtain ⟨nodes, q, lists, -⟩ := (statementList_upTo limits (depth + 1) stop ready).runs fun _ =>
      Nat.succ_ne_zero depth
    exact ⟨nodes, q, lists⟩

/-- Before a name that is all there is in a file, a statement starts, and it takes up the name. -/
theorem statement_attempt_name :
    let x : Token := ⟨.name, "x", "", ⟨0, 1, by decide⟩, ⟨1, 1⟩, ⟨1, 2⟩, true, false⟩
    let last : Token := ⟨.endOfFile, "", "", ⟨1, 1, by decide⟩, ⟨1, 2⟩, ⟨1, 2⟩, false, false⟩
    ∃ stream, TokenStream.ofTokens 0 .v26 true [x, last] = .ok stream ∧
      let p := after (CoreStep.start.run (.ofStream stream ⟨false, true, 1, by decide⟩))
      ∃ nodes q, statementAt (.full .usual) 1 p = .ok ⟨true, nodes⟩ q ∧ 0 < q.position := by
  intro x last
  let stream : TokenStream := ⟨0, .v26, [], ⟨x, 0⟩, [], [last], 1⟩
  let options : ParseOptions := ⟨false, true, 1, by decide⟩
  have opens : TokenStream.ofTokens 0 .v26 options.onDemand [x, last] = .ok stream := rfl
  have defined : ∀ token ∈ [x, last], Dialect.v26.defines token.kind := by decide
  have fresh : Reached [] (.ofStream stream options) := .fresh defined ⟨[.name], rfl, by decide⟩ opens
  obtain ⟨sound, rests, -⟩ := (Reached.step .start fresh).sound
  obtain ⟨⟨parsed, q, steps, attempt⟩, -⟩ := statement_attempt .usual sound rests (List.cons_ne_nil _ _) 0
  refine ⟨stream, opens, ?_⟩
  cases attempt with
  | absent nothing => cases nothing
  | present _ advances => exact ⟨_, q, steps, advances.position⟩

end TolerantParser.Parser
