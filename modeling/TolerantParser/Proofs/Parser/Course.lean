import TolerantParser.Proofs.Parser.Repair

/-!
The core of the parser by itself, whatever use is made of it. A step that consumes goes over tokens, puts names in
and hands tokens to the innermost node (`Course`), and none is refused; all other steps only pass on what has been
collected. Nothing is asked here of the nodes under construction.
-/

namespace TolerantParser.Parser

open TokenStream (Steps significant)

variable {p q r : Parser} {moved more taken given left loose : List Cell}

/-! ### Courses -/

/-- No token that was put in is yet to be met. -/
def Unmended (p : Parser) : Prop := ∀ token ∈ p.stream.upcoming, token.synthetic = false

/-- From `p` to `q` the core has gone over the tokens `moved`. Of those that are no comments it has handed `taken` to
the innermost node; those `left` were put in, and no node has them. -/
structure Course (p : Parser) (moved taken left : List Cell) (q : Parser) : Prop where
  sound : q.stream.Sound
  rests : q.stream.Rests
  behind : q.stream.behind = moved.reverse ++ p.stream.behind
  upcoming : Mends p.stream.upcoming (moved.map Cell.toToken ++ q.stream.upcoming)
  origin : ∃ put rest lead, moved ++ [q.cell] = put ++ { p.cell with lead } :: rest ∧ ∀ cell ∈ put, cell.synthetic
  known : ∀ cell ∈ p.stream.document, ∃ same ∈ q.stream.document, same.index = cell.index ∧ same.kind = cell.kind
  errors : p.errors.toList <+: q.errors.toList
  collectors : q.collectors = grow taken p.collectors
  whole : (taken ++ left).Perm (significant moved)
  put : ∀ cell ∈ left, cell.synthetic
  unmended : p.Unmended → q.Unmended
  real : p.Unmended → ∀ cell ∈ taken, cell.synthetic = false
  position : q.position = p.position + taken.length

namespace Course

theorem refl (sound : p.stream.Sound) (rests : p.stream.Rests) : Course p [] [] [] p where
  sound := sound
  rests := rests
  behind := rfl
  upcoming := .refl _
  origin := ⟨[], [], p.cell.lead, rfl, List.forall_mem_nil _⟩
  known cell listed := ⟨cell, listed, rfl, rfl⟩
  errors := List.prefix_refl _
  collectors := (grow_nil _).symm
  whole := .refl _
  put := List.forall_mem_nil _
  unmended := id
  real _ := List.forall_mem_nil _
  position := rfl

theorem trans (first : Course p moved taken left q) (second : Course q more given loose r) :
    Course p (moved ++ more) (taken ++ given) (left ++ loose) r where
  sound := second.sound
  rests := second.rests
  behind := by rw [second.behind, first.behind, List.reverse_append, List.append_assoc]
  upcoming := by
    rw [List.map_append, List.append_assoc]
    exact first.upcoming.trans (second.upcoming.append_left _)
  origin := by
    obtain ⟨put, rest, lead, split, synthetic⟩ := first.origin
    obtain ⟨later, behind, lead', split', synthetic'⟩ := second.origin
    rcases List.eq_nil_or_concat rest with rfl | ⟨rest, last, rfl⟩
    · -- the cursor was still on the token where it had been
      obtain ⟨rfl, here⟩ := List.append_inj' split rfl
      have here : q.cell = { p.cell with lead } := List.singleton_inj.1 here
      rw [here] at split'
      exact ⟨moved ++ later, behind, lead', by rw [List.append_assoc, split', List.append_assoc],
        List.forall_mem_append.2 ⟨synthetic, synthetic'⟩⟩
    · rw [List.concat_eq_append, ← List.cons_append, ← List.append_assoc] at split
      obtain ⟨rfl, -⟩ := List.append_inj' split rfl
      exact ⟨put, rest ++ (more ++ [r.cell]), lead, by simp, synthetic⟩
  known cell listed := by
    obtain ⟨same, there, index, kind⟩ := first.known cell listed
    obtain ⟨again, here, index', kind'⟩ := second.known same there
    exact ⟨again, here, index'.trans index, kind'.trans kind⟩
  errors := first.errors.trans second.errors
  collectors := by rw [second.collectors, first.collectors, grow_grow]
  whole := by
    rw [TokenStream.significant_append]
    refine List.Perm.trans ?_ (first.whole.append second.whole)
    rw [List.append_assoc, List.append_assoc]
    refine List.Perm.append_left taken ?_
    rw [← List.append_assoc, ← List.append_assoc]
    exact List.perm_append_comm.append_right loose
  put := List.forall_mem_append.2 ⟨first.put, second.put⟩
  unmended := second.unmended ∘ first.unmended
  real unmended := List.forall_mem_append.2 ⟨first.real unmended, second.real (first.unmended unmended)⟩
  position := by rw [second.position, first.position, List.length_append, Nat.add_assoc]

/-- The cursor goes on only. -/
theorem trail (course : Course p moved taken left q) : p.stream.trail.Sublist q.stream.trail := by
  obtain ⟨put, rest, lead, split, -⟩ := course.origin
  have whole : q.stream.behind.reverse ++ [q.cell] = p.stream.behind.reverse ++ (moved ++ [q.cell]) := by
    rw [course.behind]
    simp
  have here : [p.cell].map Cell.index = [({ p.cell with lead } : Cell)].map Cell.index := rfl
  rw [TokenStream.trail, TokenStream.trail, show q.stream.current = q.cell from rfl, whole, split, List.map_append,
    List.map_append, show p.stream.current = p.cell from rfl, here, List.map_append]
  refine List.Sublist.append_left (List.Sublist.trans ?_ (List.sublist_append_right _ _)) _
  exact (List.Sublist.cons_cons _ (List.nil_sublist rest)).map Cell.index

/-- Tokens are gone over and handed to the innermost node. -/
theorem ofSteps (steps : Steps p.stream moved q.stream) (rests : q.stream.Rests)
    (errors : p.errors.toList <+: q.errors.toList) (collectors : q.collectors = grow (significant moved) p.collectors)
    (position : q.position = p.position + (significant moved).length) :
    Course p moved (significant moved) [] q where
  sound := steps.sound
  rests := rests
  behind := steps.behind
  upcoming := by
    rw [steps.upcoming]
    exact .refl _
  origin := by
    cases moved with
    | nil => exact ⟨[], [], p.cell.lead, congrArg (· :: []) steps.current_eq, List.forall_mem_nil _⟩
    | cons cell rest =>
      obtain rfl : cell = p.cell := steps.head_passed
      exact ⟨[], rest ++ [q.cell], p.cell.lead, rfl, List.forall_mem_nil _⟩
  known cell listed := ⟨cell, steps.document.subset listed, rfl, rfl⟩
  errors := errors
  collectors := collectors
  whole := by rw [List.append_nil]
  put := List.forall_mem_nil _
  unmended unmended token member := unmended token (by rw [steps.upcoming]; exact List.mem_append_right _ member)
  real unmended cell member := unmended cell.toToken <| by
    rw [steps.upcoming]
    exact List.mem_append_left _ (List.mem_map_of_mem (List.mem_filter.1 member).1)
  position := position

/-- Nothing is gone over. -/
theorem still (still : Still p q) (rests : p.stream.Rests) : Course p [] [] [] q := by
  refine ofSteps still.steps ?_ still.finds.errors ?_ still.position
  · rw [TokenStream.Rests, still.steps.current_eq]
    exact rests
  · rw [still.collectors]
    exact (grow_nil _).symm

/-- Whatever nodes are under construction, the same is done to the tokens. -/
theorem under (course : Course p moved taken left q) (collectors : List (Array Cell)) :
    Course { p with collectors } moved taken left { q with collectors := grow taken collectors } :=
  ⟨course.sound, course.rests, course.behind, course.upcoming, course.origin, course.known, course.errors, rfl,
    course.whole, course.put, course.unmended, course.real, course.position⟩

end Course

/-! ### Going over tokens -/

/-- The token that a step hands to the innermost node, unless the file ends there. -/
def bumpedCells (p : Parser) : List Cell := if p.cell.kind = .endOfFile then [] else [p.cell]

theorem bump_end (ends : p.cell.kind = .endOfFile) : bump p = .ok p.cell p := by
  have start : (get : ParseM Parser) p = .ok p p := rfl
  rw [bump, TokenStream.bind_ok start, if_pos (by simp [ends])]
  rfl

theorem bump_course (sound : p.stream.Sound) (rests : p.stream.Rests) :
    ∃ q moved, bump p = .ok p.cell q ∧ Course p moved p.bumpedCells [] q ∧
      (p.cell.kind ≠ .endOfFile → p.kinds = p.cell.kind :: q.kinds) := by
  by_cases ends : p.cell.kind = .endOfFile
  · refine ⟨p, [], bump_end ends, ?_, fun more => absurd ends more⟩
    rw [bumpedCells, if_pos ends]
    exact .refl sound rests
  · obtain ⟨comments, t, bumps, steps, others, rested⟩ := bump_eq sound ends
    have met : significant (p.cell :: comments) = [p.cell] := TokenStream.significant_cons_comments rests others
    have course : Course p (p.cell :: comments) (significant (p.cell :: comments)) [] (p.bumped t) :=
      .ofSteps steps rested (List.prefix_refl _) (by rw [met]; rfl) (by rw [met]; rfl)
    rw [met] at course
    have taken : p.bumpedCells = [p.cell] := if_neg ends
    exact ⟨_, _, bumps, taken ▸ course, fun _ => steps.kinds_cons rests others⟩

theorem eat?_course (kind : TokenKind) (sound : p.stream.Sound) (rests : p.stream.Rests) :
    ∃ cell q moved taken, eat? kind p = .ok cell q ∧ Course p moved taken [] q := by
  have looks : at? kind p = .ok (p.cell.kind == kind) p := rfl
  rw [eat?, TokenStream.bind_ok looks]
  split
  · obtain ⟨q, moved, bumps, course, -⟩ := bump_course sound rests
    exact ⟨some p.cell, q, moved, _, TokenStream.bind_ok bumps _, course⟩
  · exact ⟨none, p, [], [], rfl, .refl sound rests⟩

theorem nth_course (count : Nat) (sound : p.stream.Sound) (rests : p.stream.Rests) :
    ∃ kind q, nth count p = .ok kind q ∧ Course p [] [] [] q := by
  obtain ⟨cell, t, looks, steps, -⟩ := TokenStream.peek_eq count sound rests
  refine ⟨cell.kind, { p with engine := { p.engine with stream := t } }, ?_, ?_⟩
  · rw [nth, TokenStream.bind_ok (onStream_ok looks)]
    rfl
  · exact .still ⟨steps, finds_of_eq rfl, rfl, rfl⟩ rests

/-- The core goes up to the end of the logical line, whatever it meets. -/
theorem skipToLineEnd_course (sound : p.stream.Sound) (rests : p.stream.Rests) :
    ∃ q moved taken, skipToLineEnd p = .ok () q ∧ Course p moved taken [] q := by
  let inv : Unit → Parser → Prop := fun _ q => ∃ moved taken, Course p moved taken [] q
  have ends : Ends skipToLineEnd p inv fun _ => False := by
    refine Ends.loop (fun _ q => q.kinds.length) inv ⟨[], [], .refl sound rests⟩ ?_ ?_
    · have enough : p.kinds.length ≤ p.stream.total := sound.kinds_length_le
      show p.kinds.length < _
      omega
    · rintro ⟨⟩ q ⟨moved, taken, course⟩
      have looks : atSet? TokenKind.isLineEnd q = .ok q.cell.kind.isLineEnd q := rfl
      rw [Ends, TokenStream.bind_ok looks]
      cases ended : q.cell.kind.isLineEnd with
      | true => exact ⟨moved, taken, course⟩
      | false =>
        have more : q.cell.kind ≠ .endOfFile := fun here => by
          rw [here] at ended
          cases ended
        obtain ⟨r, passed, bumps, step, kinds⟩ := bump_course course.sound course.rests
        rw [if_neg Bool.false_ne_true, TokenStream.bind_ok (TokenStream.discard_ok bumps)]
        refine ⟨⟨_, _, course.trans step⟩, ?_⟩
        rw [kinds more, List.length_cons]
        exact Nat.lt_succ_self _
  obtain ⟨⟨⟩, q, skips, moved, taken, course⟩ := ends.runs fun _ => id
  exact ⟨q, moved, taken, skips, course⟩

theorem skipLine_course (sound : p.stream.Sound) (rests : p.stream.Rests) :
    ∃ q moved taken, skipLine p = .ok () q ∧ Course p moved taken [] q := by
  obtain ⟨q, moved, taken, skips, course⟩ := skipToLineEnd_course sound rests
  obtain ⟨cell, r, more, given, eats, step⟩ := eat?_course .newline course.sound course.rests
  refine ⟨r, _, _, ?_, course.trans step⟩
  have whole : eat .newline q = .ok cell.isSome r := TokenStream.bind_ok eats _
  rw [skipLine, TokenStream.bind_ok skips]
  exact TokenStream.discard_ok whole

/-! ### Errors and their repairs -/

/-- A repair that goes over tokens hands them to the innermost node. -/
theorem recover_passes {kind : ErrorKind} {message : Option String} {closers : List TokenKind} {outcome : Outcome}
    {stream : TokenStream}
    (repairs : Engine.repair (p.errorHere kind message) closers (p.blame kind message) =
      .ok outcome { p.blame kind message with stream }) (steps : Steps p.stream moved stream)
    (rests : stream.Rests) (skipped : outcome.skipped = significant moved) :
    ∃ q, recover kind message closers p = .ok outcome q ∧ Course p moved outcome.skipped [] q := by
  obtain ⟨q, recovers, more, errors, collectors, position⟩ := recover_ok repairs steps.sound
  have pushed : q.errors = p.errors.push (p.errorHere kind message) := errors
  have whole : Steps p.stream moved q.stream := by simpa using steps.trans more
  rw [skipped] at collectors position ⊢
  refine ⟨q, recovers, .ofSteps whole ?_ ?_ collectors position⟩
  · rw [TokenStream.Rests, more.current_eq]
    exact rests
  · rw [pushed, Array.toList_push]
    exact List.prefix_append ..

/-- What was found by a search is gone over, and nothing else. -/
theorem recover_searched {kind : ErrorKind} {message : Option String} {closers : List TokenKind} {escalate : Bool}
    {search : StreamM (Option (List Cell))} {found : Option (List Cell)} {t : TokenStream}
    (rests : p.stream.Rests) (walks : search p.stream = .ok found t) (steps : Steps p.stream moved t)
    (rested : t.Rests) (passed : ∀ cells, found = some cells → cells = significant moved)
    (repairs : ∀ u, TokenStream.search search p.stream = .ok found u →
      Engine.repair (p.errorHere kind message) closers (p.blame kind message) =
        .ok (p.searchedOutcome kind message escalate found) { p.blame kind message with stream := u }) :
    ∃ outcome q moved, recover kind message closers p = .ok outcome q ∧
      Course p moved outcome.skipped [] q ∧ outcome.synthetic = none := by
  obtain ⟨u, moved, searches, steps, rests, skipped, -⟩ := TokenStream.search_eq walks steps rests rested passed
  obtain ⟨q, recovers, course⟩ :=
    recover_passes (repairs u searches) steps rests ((skipped_searchedOutcome ..).trans skipped.symm)
  exact ⟨_, q, moved, recovers, course, synthetic_searchedOutcome ..⟩

theorem recover_closer_course (message : Option String) (closers : List TokenKind) (sound : p.stream.Sound)
    (rests : p.stream.Rests) :
    ∃ outcome q moved, recover .unmatchedBracket message closers p = .ok outcome q ∧
      Course p moved outcome.skipped [] q ∧ outcome.synthetic = none := by
  obtain ⟨moved, t, found, walks, steps, rested, parts⟩ :=
    TokenStream.searchCloser_eq (wantedClosers closers) _ 0 [] sound rests (Nat.le_succ_of_le sound.kinds_length_le)
  exact recover_searched rests walks steps rested (fun cells some => by simpa using (parts cells some).1)
    fun u searches => repair_closer message closers searches

/-- A name is put in at the cursor. No node has it. -/
theorem recover_name_course (message : Option String) (closers : List TokenKind) (sound : p.stream.Sound)
    (rests : p.stream.Rests) :
    ∃ outcome q cell, recover .nameExpected message closers p = .ok outcome q ∧ outcome.skipped = [] ∧
      outcome.synthetic = some cell ∧ Course p [cell] [] [cell] q := by
  obtain ⟨cell, t, inserts, kind, shape, stays, put, -, -, missing⟩ :=
    TokenStream.insertMissingName_eq sound rests (defines_name _)
  obtain ⟨q, recovers, steps, errors, collectors, position⟩ := recover_ok (repair_name message closers inserts) stays
  have pushed : q.errors = p.errors.push (p.errorHere .nameExpected message) := errors
  have here : q.cell = { p.cell with lead := "" } := steps.current_eq.trans (by rw [shape]; rfl)
  have behind : q.stream.behind = cell :: p.stream.behind := steps.behind.trans (by rw [shape]; rfl)
  have upcoming : q.stream.upcoming = { p.cell.toToken with lead := "" } :: p.stream.upcoming.tail := by
    rw [← show t.upcoming = q.stream.upcoming from steps.upcoming, shape]
    rfl
  refine ⟨_, q, cell, recovers, rfl, rfl, ?_⟩
  refine {
    sound := steps.sound
    rests := ?_
    behind := behind
    upcoming := ?_
    origin := ⟨[cell], [], "", by rw [here], List.forall_mem_singleton.2 put⟩
    known := fun same listed => ?_
    errors := ?_
    collectors := collectors
    whole := ?_
    put := List.forall_mem_singleton.2 put
    unmended := fun unmended token member => ?_
    real := fun _ => List.forall_mem_nil _
    position := position }
  · have others : p.cell.kind ≠ .comment := rests
    rw [TokenStream.Rests, show q.stream.current = q.cell from rfl, here]
    exact others
  · rw [upcoming]
    show Mends (p.cell.toToken :: p.stream.upcoming.tail) (cell.toToken :: { p.cell.toToken with lead := "" } :: _)
    rw [missing]
    exact .insert [] rests _
  · have document : p.stream.behind.reverse ++ cell :: { p.stream.current with lead := "" } :: p.stream.ahead <+:
        q.stream.document := by
      have prefixed := steps.document
      rw [shape] at prefixed
      simpa [TokenStream.document] using prefixed
    rw [TokenStream.document, List.mem_append, List.mem_cons] at listed
    rcases listed with before | rfl | after
    · exact ⟨same, document.subset (by simp [before]), rfl, rfl⟩
    · exact ⟨{ p.stream.current with lead := "" }, document.subset (by simp), rfl, rfl⟩
    · exact ⟨same, document.subset (by simp [after]), rfl, rfl⟩
  · rw [pushed, Array.toList_push]
    exact List.prefix_append ..
  · have met : (cell.kind != .comment) = true := by rw [kind]; rfl
    have whole : significant [cell] = [cell] := List.filter_cons_of_pos met
    rw [whole]
    exact .refl _
  · rw [upcoming, List.mem_cons] at member
    rcases member with rfl | later
    · exact unmended p.cell.toToken List.mem_cons_self
    · exact unmended token (List.mem_cons_of_mem _ later)

/-- Whatever error is recorded, its repair comes to an end. What it went over belongs to the innermost node, and a
name that it has put in to nobody yet. -/
theorem recover_course (kind : ErrorKind) (message : Option String) (closers : List TokenKind)
    (sound : p.stream.Sound) (rests : p.stream.Rests) :
    ∃ outcome q moved, recover kind message closers p = .ok outcome q ∧
      Course p moved outcome.skipped outcome.synthetic.toList q := by
  cases repaired : isRecordedOnly kind with
  | true =>
    obtain ⟨q, recovers, still, -⟩ := recover_recorded repaired message closers sound
    exact ⟨_, q, [], recovers, .still still rests⟩
  | false =>
    cases kind with
    | dedentExpected =>
      obtain ⟨moved, t, found, walks, steps, rested, parts⟩ :=
        TokenStream.searchDedent_eq p.engine.options.dedentBudget 0 [] sound rests
      obtain ⟨outcome, q, moved, recovers, course, none⟩ :=
        recover_searched rests walks steps rested (fun cells some => by simpa using (parts cells some).1)
          fun u searches => repair_dedent message closers searches
      exact ⟨outcome, q, moved, recovers, none ▸ course⟩
    | unmatchedBracket =>
      obtain ⟨outcome, q, moved, recovers, course, none⟩ := recover_closer_course message closers sound rests
      exact ⟨outcome, q, moved, recovers, none ▸ course⟩
    | nameExpected =>
      obtain ⟨outcome, q, cell, recovers, nothing, synthetic, course⟩ :=
        recover_name_course message closers sound rests
      refine ⟨outcome, q, [cell], recovers, ?_⟩
      rw [nothing, synthetic]
      exact course
    | _ => cases repaired

theorem expectCloser_course (kind : TokenKind) (message : Option String) (sound : p.stream.Sound)
    (rests : p.stream.Rests) :
    ∃ cell q moved taken, expectCloser kind message p = .ok cell q ∧ Course p moved taken [] q := by
  have looks : at? kind p = .ok (p.cell.kind == kind) p := rfl
  rw [expectCloser, TokenStream.bind_ok looks]
  split
  next =>
    obtain ⟨q, moved, bumps, course, -⟩ := bump_course sound rests
    exact ⟨some p.cell, q, moved, _, TokenStream.bind_ok bumps _, course⟩
  next =>
    obtain ⟨outcome, q, moved, recovers, course, -⟩ := recover_closer_course message [kind] sound rests
    rw [TokenStream.bind_ok recovers]
    split
    next =>
      obtain ⟨r, more, bumps, step, -⟩ := bump_course course.sound course.rests
      exact ⟨some q.cell, r, _, _, TokenStream.bind_ok bumps _, course.trans step⟩
    next => exact ⟨none, q, _, _, rfl, course⟩

/-- The name that is put in goes to the innermost node. -/
theorem takeMissingName_course (message : Option String) (sound : p.stream.Sound) (rests : p.stream.Rests) :
    ∃ cell q, takeMissingName message p = .ok cell { q with collectors := grow [cell] q.collectors } ∧
      Course p [cell] [] [cell] q := by
  obtain ⟨outcome, q, cell, recovers, -, synthetic, course⟩ := recover_name_course message [] sound rests
  refine ⟨cell, q, ?_, course⟩
  rw [takeMissingName, TokenStream.bind_ok recovers, synthetic]
  simp only [take]
  rw [TokenStream.bind_ok (collect_eq _ _)]
  rfl

end TolerantParser.Parser
