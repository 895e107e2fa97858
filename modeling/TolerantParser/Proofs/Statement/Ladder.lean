import TolerantParser.Proofs.Statement.Attempts

/-!
Conditions with further conditions behind them. By the grammar a condition behind a block is a statement of its own,
the only one in what happens if the condition in front of it does not hold; so the production leads back to itself
(`conditionalOver`). The parser instead keeps all clauses open and makes their nodes at the end, the last one first.
Both come to the same: the nodes that are still to be made around a clause are what follows in any case
(`closeLadder`), and how often either may repeat makes no difference where it is more often than there are tokens to
come.
-/

namespace TolerantParser.Parser

variable {α β : Type} {p q r : Parser} {inner : Inner}

/-! ### The production -/

/-- What happens if a condition does not hold, unless its block failed: one more condition, as the only statement, or
the statements behind `else`. -/
def otherwise (inner : Inner) (further : ParseM Node) (failed : Bool) : ParseM (List Node) := do
  if failed then return []
  if ← at? .kwElif then return [← further]
  elseClause inner "if statement" false

/-- A condition at the word in front of it, over the production for a further one. -/
def conditionalOver (inner : Inner) (further : ParseM Node) : ParseM Node :=
  build .conditional do
    let keyword := (← bump).text
    let test ← inner.e.test true
    expectColon s!"'{keyword}' condition"
    let suite ← suite inner
    let orElse ← otherwise inner further suite.failed
    return (.none, child .test test ++ several .body suite.body ++ several .orElse orElse)

/-- The production that leads back to itself, for fewer clauses than the bound. -/
def conditionalWithin (inner : Inner) : Nat → ParseM Node
  | 0 => throw .boundExceeded
  | bound + 1 => conditionalOver inner (conditionalWithin inner bound)

/-! ### The ladder -/

/-- Makes the node of a clause. -/
def closeClause (clause : OpenClause) (orElse : List Node) : ParseM Node :=
  complete clause.marker .conditional .none
    (child .test clause.test ++ several .body clause.body ++ several .orElse orElse)

/-- The step that the ladder repeats. -/
def ladderStep (inner : Inner) (ladder : Ladder) : ParseM (ForInStep Ladder) := do
  if ladder.failed || !(← at? .kwElif) then return .done ladder
  return .yield (← openClause inner (ladder.last :: ladder.outer))

/-- What is done behind the last clause. -/
def finishLadder (inner : Inner) (ladder : Ladder) : ParseM Node := do
  let orElse ← elseClause inner "if statement" ladder.failed
  let node ← closeClause ladder.last orElse
  closeLadder node ladder.outer

theorem conditional_eq (inner : Inner) :
    conditional inner = openClause inner [] >>= fun ladder => loop ladder (ladderStep inner) >>= finishLadder inner :=
      rfl

/-- What follows a node that the production makes of a clause follows the clause. -/
theorem conditionalOver_bind (inner : Inner) (further : ParseM Node) (outer : List OpenClause)
    (next : Node → ParseM β) :
    conditionalOver inner further >>= next = openClause inner outer >>= fun ladder =>
      otherwise inner further ladder.failed >>= fun orElse => closeClause ladder.last orElse >>= next := by
  simp only [conditionalOver, build, openClause, closeClause, bind_assoc, pure_bind]

/-- What follows some steps need only be the same where the steps may lead. -/
theorem bind_congr_at {steps : ParseM α} {next next' : α → ParseM β}
    (same : ∀ value q, steps p = .ok value q → next value q = next' value q) :
    (steps >>= next) p = (steps >>= next') p := by
  cases done : steps p with
  | ok value q => rw [TokenStream.bind_ok done, TokenStream.bind_ok done, same value q done]
  | error fault q => simp only [bind, EStateM.bind, done]

/-- Wherever a parse has come (`Reached.sound`), it is at the word in front of a condition. -/
structure AtCondition (p : Parser) : Prop where
  sound : p.stream.Sound
  rests : p.stream.Rests
  word : p.cell.kind = .kwIf ∨ p.cell.kind = .kwElif

/-- A clause takes away from what is to come, and those in front of it stay open. -/
theorem AtCondition.openClause (works : inner.Works False) {outer : List OpenClause} {ladder : Ladder}
    (there : AtCondition p) (opens : openClause inner outer p = .ok ladder q) :
    ladder.outer = outer ∧ q.stream.Sound ∧ q.stream.Rests ∧ q.weight < p.weight := by
  have ready : Ready False .block ⟨0, awaitedAfter [] p.passed⟩ p.opened :=
    ready_anywhere (p := p.opened) there.sound there.rests (List.cons_ne_nil _ _)
  have word : p.cell.kind.isOrdinary ∧ p.cell.kind ≠ .name := by
    rcases there.word with kind | kind <;> rw [kind] <;> decide
  have completes := openClause_completes works outer ready word.1
  rw [completes_iff, ends_ok opens] at completes
  obtain ⟨ps, moves, after, same, -⟩ := completes
  exact ⟨same, after.sound, after.rests, moves.weight_lt trivial there.rests word.2⟩

/-- From where a clause has been read, the ladder does what the production does and what is left to do around it, if
both may repeat more often than there are tokens to come. -/
theorem iterate_ladderStep (works : inner.Works False) (bound bound' : Nat) {ladder : Ladder} (sound : q.stream.Sound)
    (rests : q.stream.Rests) (room : q.weight < bound) (room' : q.weight < bound') :
    (iterate (ladderStep inner) bound ladder >>= finishLadder inner) q =
      (otherwise inner (conditionalWithin inner bound') ladder.failed >>= fun orElse =>
        closeClause ladder.last orElse >>= fun node => closeLadder node ladder.outer) q := by
  induction bound generalizing bound' ladder q with
  | zero => exact absurd room (Nat.not_lt_zero _)
  | succ bound ih =>
    cases bound' with
    | zero => exact absurd room' (Nat.not_lt_zero _)
    | succ bound' =>
      have asks : at? .kwElif q = .ok (q.cell.kind == .kwElif) q := rfl
      by_cases failed : ladder.failed = true
      · have done : ladderStep inner ladder q = .ok (.done ladder) q := by
          rw [ladderStep, TokenStream.bind_ok asks, failed]
          rfl
        rw [iterate, bind_assoc, TokenStream.bind_ok done]
        simp only [pure_bind, finishLadder, failed, otherwise, elseClause, if_true]
      by_cases here : q.cell.kind = .kwElif
      · have goesOn : ladderStep inner ladder q =
            (openClause inner (ladder.last :: ladder.outer) >>= fun ladder => pure (.yield ladder)) q := by
          rw [ladderStep, TokenStream.bind_ok asks, if_neg (by simp [failed, here])]
        calc (iterate (ladderStep inner) (bound + 1) ladder >>= finishLadder inner) q
            = (openClause inner (ladder.last :: ladder.outer) >>= fun ladder =>
                iterate (ladderStep inner) bound ladder >>= finishLadder inner) q := by
              rw [iterate, bind_assoc]
              simp only [bind, EStateM.bind, goesOn]
              cases openClause inner (ladder.last :: ladder.outer) q <;> rfl
          _ = (openClause inner (ladder.last :: ladder.outer) >>= fun further =>
                otherwise inner (conditionalWithin inner bound') further.failed >>= fun orElse =>
                  closeClause further.last orElse >>= fun node =>
                    closeLadder node (ladder.last :: ladder.outer)) q := by
              refine bind_congr_at fun further r opens => ?_
              obtain ⟨outer, sound, rests, lighter⟩ := AtCondition.openClause works ⟨sound, rests, .inr here⟩ opens
              rw [← outer]
              exact ih bound' sound rests (by omega) (by omega)
          _ = (conditionalWithin inner (bound' + 1) >>= fun node =>
                closeLadder node (ladder.last :: ladder.outer)) q := by
              rw [conditionalWithin, conditionalOver_bind]
          _ = _ := by
              rw [otherwise, if_neg failed, bind_assoc, TokenStream.bind_ok asks, here]
              simp only [beq_self_eq_true, if_true, bind_assoc, pure_bind]
              rfl
      · have done : ladderStep inner ladder q = .ok (.done ladder) q := by
          rw [ladderStep, TokenStream.bind_ok asks, if_pos (by simp [here])]
          rfl
        have other : (q.cell.kind == .kwElif) = false := by simpa using here
        rw [iterate, bind_assoc, TokenStream.bind_ok done, otherwise, if_neg failed, bind_assoc,
          TokenStream.bind_ok asks,
          other]
        simp only [pure_bind, finishLadder, failed, Bool.false_eq_true, if_false]

/-- The production itself, where it may lead back to itself more often than there are tokens to come. -/
theorem conditionalWithin_eq (works : inner.Works False) {bound : Nat} (there : AtCondition p)
    (room : p.weight < bound) :
    conditionalWithin inner bound p = conditional inner p := by
  cases bound with
  | zero => exact absurd room (Nat.not_lt_zero _)
  | succ bound =>
    have whole := congrFun (conditionalOver_bind inner (conditionalWithin inner bound) [] pure) p
    rw [bind_pure] at whole
    rw [conditionalWithin, whole, conditional_eq]
    refine bind_congr_at fun ladder q opens => ?_
    obtain ⟨outer, sound, rests, lighter⟩ := there.openClause works opens
    have start : (get : ParseM Parser) q = .ok q q := rfl
    have total := weight_le_total sound
    rw [loop, bind_assoc, TokenStream.bind_ok start]
    refine Eq.trans ?_ (iterate_ladderStep works _ bound sound rests (by omega) (by omega)).symm
    rw [outer]
    rfl

/-- Where a clause is read, only what the production for a further one does on less is of importance. -/
theorem AtCondition.conditionalOver_congr (works : inner.Works False) (there : AtCondition p)
    {further further' : ParseM Node} (same : ∀ q, AtCondition q → q.weight < p.weight → further q = further' q) :
    conditionalOver inner further p = conditionalOver inner further' p := by
  have whole (further : ParseM Node) := congrFun (conditionalOver_bind inner further [] pure) p
  simp only [bind_pure] at whole
  rw [whole, whole]
  refine bind_congr_at fun ladder q opens => ?_
  obtain ⟨-, sound, rests, lighter⟩ := there.openClause works opens
  have asks : at? .kwElif q = .ok (q.cell.kind == .kwElif) q := rfl
  have behind : otherwise inner further ladder.failed q = otherwise inner further' ladder.failed q := by
    rw [otherwise, otherwise]
    split
    · rfl
    · rw [TokenStream.bind_ok asks, TokenStream.bind_ok asks]
      split
      next here =>
        have agrees := same q ⟨sound, rests, .inr (by simpa using here)⟩ lighter
        simp only [bind, EStateM.bind, agrees]
      next => rfl
  simp only [bind, EStateM.bind, behind]

/-- A condition with any number of further ones, whatever is wrong with it, is parsed as by the production that leads
back to itself: a condition behind a block that has not failed is parsed as a statement of its own, the only one in
what happens otherwise, by what parses the whole (tree, errors, cursor and nodes under construction are the same, and
so is what is left where the parse is given up). Nothing else is parsed so: whatever is the same as the production over
itself is the ladder, and so is the production that may lead back to itself often enough. -/
theorem conditional_recursive (limits : Limits) (depth : Nat) (there : AtCondition p) :
    conditional (upTo limits depth) p = conditionalOver (upTo limits depth) (conditional (upTo limits depth)) p ∧
      (∀ bound, p.weight < bound → conditionalWithin (upTo limits depth) bound p = conditional (upTo limits depth) p) ∧
      ∀ recursive : ParseM Node, (∀ q, AtCondition q → recursive q = conditionalOver (upTo limits depth) recursive q) →
        recursive p = conditional (upTo limits depth) p := by
  have works : (upTo limits depth).Works False := upTo_works limits False depth
  have step {q : Parser} (there : AtCondition q) :
      conditional (upTo limits depth) q = conditionalOver (upTo limits depth) (conditional (upTo limits depth)) q := by
    rw [← conditionalWithin_eq works there (Nat.lt_succ_self _), conditionalWithin]
    exact there.conditionalOver_congr works fun r behind lighter => conditionalWithin_eq works behind lighter
  refine ⟨step there, fun bound => conditionalWithin_eq works there, fun recursive unfolds => ?_⟩
  -- on the tokens to come: behind a clause there are fewer of them
  induction weight : p.weight using Nat.strong_induction_on generalizing p with
  | _ bound ih =>
    rw [unfolds p there, step there]
    exact there.conditionalOver_congr works fun q behind lighter => ih q.weight (weight ▸ lighter) behind rfl

/-- Nothing but the words in front of two conditions. -/
theorem conditional_recursive_at_two :
    let first : Token := ⟨.kwIf, "if", "", ⟨0, 2, by decide⟩, ⟨1, 1⟩, ⟨1, 3⟩, true, false⟩
    let second : Token := ⟨.kwElif, "elif", "", ⟨2, 6, by decide⟩, ⟨1, 3⟩, ⟨1, 7⟩, false, false⟩
    let last : Token := ⟨.endOfFile, "", "", ⟨6, 6, by decide⟩, ⟨1, 7⟩, ⟨1, 7⟩, false, false⟩
    ∃ stream, TokenStream.ofTokens 0 .v26 true [first, second, last] = .ok stream ∧
      let p := Parser.ofStream stream ⟨false, true, 1, by decide⟩
      conditional (full .usual) p = conditionalOver (full .usual) (conditional (full .usual)) p ∧
        conditionalWithin (full .usual) 4 p = conditional (full .usual) p := by
  intro first second last
  let stream : TokenStream := ⟨0, .v26, [], ⟨first, 0⟩, [], [second, last], 1⟩
  let options : ParseOptions := ⟨false, true, 1, by decide⟩
  have made : TokenStream.ofTokens 0 .v26 options.onDemand [first, second, last] = .ok stream := rfl
  have defined : ∀ token ∈ [first, second, last], Dialect.v26.defines token.kind := by decide
  have fresh : Reached [] (.ofStream stream options) := .fresh defined ⟨[.kwIf, .kwElif], rfl, by decide⟩ made
  obtain ⟨sound, rests, -⟩ := fresh.sound
  refine ⟨stream, made, ?_⟩
  intro p
  have there : AtCondition p := ⟨sound, rests, .inl rfl⟩
  obtain ⟨unfolds, within, -⟩ := conditional_recursive .usual (Limits.usual.block + 1) there
  exact ⟨unfolds, within 4 (by decide)⟩

end TolerantParser.Parser
