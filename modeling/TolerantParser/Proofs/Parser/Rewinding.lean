import TolerantParser.Proofs.Parser.CoreSteps

/-!
Going back to a checkpoint undoes whatever was done since then, except that names put in stay. It has to leave the nodes
alone that were under construction at the checkpoint: none of them is ended in between, and none of their tokens
is taken away.
-/

namespace TolerantParser

namespace TokenStream

variable {s t : TokenStream}

/-- The tokens at the cursor, over so many advances. -/
def visits : Nat → TokenStream → List Token
  | 0, _ => []
  | count + 1, s =>
    match advance s with
    | .ok cell t => cell.toToken :: visits count t
    | .error _ _ => []

/-- Advancing goes over all tokens but comments. -/
theorem visits_eq (sound : s.Sound) (rests : s.Rests) :
    visits s.kinds.length s = s.upcoming.filter (·.kind != .comment) := by
  induction length : s.kinds.length generalizing s with
  | zero =>
    obtain ⟨rest, kinds⟩ := kinds_eq_cons rests
    rw [kinds] at length
    cases length
  | succ count ih =>
    have met (rest : List Token) : (s.current.toToken :: rest).filter (·.kind != .comment) =
        s.current.toToken :: rest.filter (·.kind != .comment) := List.filter_cons_of_pos (bne_iff_ne.2 rests)
    by_cases ends : s.current.kind = .endOfFile
    · obtain ⟨ahead, unread⟩ := sound.at_end ends
      have one : s.kinds.length = 1 := by simp [kinds, upcoming, ahead, unread, ends]
      obtain rfl : count = 0 := by omega
      have stays : advance s = .ok s.current s := by
        simp [advance, bind, EStateM.bind, TokenStream.get_ok, ends, pure, EStateM.pure]
      rw [visits, stays, upcoming, ahead, unread, met]
      rfl
    · obtain ⟨comments, t, advances, steps, others, rested⟩ := advance_eq sound ends
      have passed : (comments.map Cell.toToken).filter (·.kind != .comment) = [] := by
        simpa [List.filter_eq_nil_iff] using others
      have fewer : t.kinds.length = count := by
        rw [steps.kinds_cons rests others, List.length_cons] at length
        exact Nat.succ.inj length
      rw [visits, advances, steps.upcoming, List.map_cons, List.cons_append, met, List.filter_append, passed,
        List.nil_append, ← ih steps.sound rested fewer]

end TokenStream

/-- Comments are where they were. -/
theorem Mends.met {tokens mended : List Token} (mends : Mends tokens mended) :
    Mends (tokens.filter (·.kind != .comment)) (mended.filter (·.kind != .comment)) := by
  induction mends with
  | nil => exact .nil
  | keep token _ ih =>
    rw [List.filter_cons, List.filter_cons]
    split
    · exact .keep token ih
    · exact ih
  | @mend token tokens mended met _ ih =>
    have other : (token.kind != .comment) = true := bne_iff_ne.2 met
    rw [List.filter_cons_of_pos (by exact other)] at ih
    rw [List.filter_cons_of_pos (by exact other), List.filter_cons_of_pos rfl]
    exact .mend met ih

/-! ### Steps that spare what was there at a checkpoint -/

/-- To take the token from the innermost node takes none that this node had at the checkpoint: the token was not among
those, or it is also the last one that was collected since. -/
def Checkpoint.Frees (c : Checkpoint) (p : Parser) (cell : Cell) : Prop :=
  p.collectors.length = c.markers → ∀ innermost ∈ p.collectors.head?,
    cell.index ∈ (innermost.toList.take c.collected).map Cell.index →
      c.collected < innermost.size ∧ innermost.back?.any (·.index == cell.index)

/-- The step ends no node that was under construction at the checkpoint and moves no token that was collected before.
At the end of the file nothing is consumed that could be given to a node. -/
def CoreStep.Spares (c : Checkpoint) (p : Parser) : CoreStep → Prop
  | .complete marker .. | .mergeInto marker _ | .abandon marker =>
    marker.depth + 1 = p.collectors.length → c.markers ≤ marker.depth
  | .attach _ cell => c.Frees p cell
  | .eatInto _ kind => p.cell.kind = .endOfFile → kind = .endOfFile → c.Frees p p.cell
  | _ => True

namespace Parser

variable {p q r : Parser} {c : Checkpoint} {marks : List Checkpoint} {cell : Cell} {cells : List Cell}
  {held now : List (Array Cell)}

/-- Any number of steps that spare what was there at the checkpoint. -/
inductive Spared (c : Checkpoint) (p : Parser) : Parser → Prop
  | refl : Spared c p p
  | step {q : Parser} (step : CoreStep) : Spared c p q → step.Spares c q → Spared c p (after (step.run q))

/-! ### Nodes -/

/-- The nodes are still under construction, with all of their tokens. -/
def Within (held now : List (Array Cell)) : Prop := ∃ inner cells, now = inner ++ grow cells held

theorem Within.refl (held : List (Array Cell)) : Within held held := ⟨[], [], (grow_nil held).symm⟩

theorem Within.grow (within : Within held now) (cells : List Cell) : Within held (grow cells now) := by
  obtain ⟨inner, others, rfl⟩ := within
  cases inner with
  | nil => exact ⟨[], others ++ cells, grow_grow ..⟩
  | cons innermost inner => exact ⟨innermost.appendList cells :: inner, others, rfl⟩

/-- A node that was begun since is ended. -/
theorem Within.close {innermost : Array Cell} (within : Within held (innermost :: now))
    (since : held.length ≤ now.length) : Within held now := by
  obtain ⟨inner, others, shape⟩ := within
  cases inner with
  | nil =>
    have lengths := congrArg List.length shape
    rw [List.nil_append, grow_length, List.length_cons] at lengths
    omega
  | cons first inner => exact ⟨inner, others, (List.cons.inj shape).2⟩

theorem uncollect_append {innermost rest : Array Cell} (takes : uncollect cell (innermost.appendList cells) = some rest)
    (frees : cell.index ∈ innermost.toList.map Cell.index →
      cells ≠ [] ∧ (innermost.appendList cells).back?.any (·.index == cell.index)) :
    ∃ others, rest = innermost.appendList others := by
  rw [uncollect] at takes
  split at takes
  next last =>
    obtain rfl := Option.some.inj takes
    rcases List.eq_nil_or_concat cells with rfl | ⟨init, final, rfl⟩
    · -- the last token would be one that was collected before
      have among : cell.index ∈ innermost.toList.map Cell.index := by
        obtain ⟨final, here, same⟩ := (Option.any_eq_true ..).1 last
        exact List.mem_map.2 ⟨final, by simpa using Array.mem_of_back? here, by simpa using same⟩
      exact absurd rfl (frees among).1
    · exact ⟨init, Array.toList_inj.1 (by simp)⟩
  next other =>
    split at takes
    · obtain rfl := Option.some.inj takes
      have absent : ∀ held ∈ innermost.toList, ¬ (held.index == cell.index) = true := fun held member same =>
        other (frees (List.mem_map.2 ⟨held, member, by simpa using same⟩)).2
      refine ⟨cells.eraseP (·.index == cell.index), Array.toList_inj.1 ?_⟩
      simp [List.eraseP_append_right _ absent]
    · cases takes

/-- A token that was collected since is taken from the innermost node. -/
theorem Within.release {innermost rest : Array Cell} (within : Within p.collectors q.collectors)
    (shape : q.collectors = innermost :: now) (takes : uncollect cell innermost = some rest)
    (frees : p.here.Frees q cell) : Within p.collectors (rest :: now) := by
  obtain ⟨inner, others, grown⟩ := within
  rw [shape] at grown
  cases inner with
  | cons first inner =>
    obtain ⟨-, outer⟩ := List.cons.inj grown
    exact ⟨rest :: inner, others, congrArg (rest :: ·) outer⟩
  | nil =>
    cases held : p.collectors with
    | nil =>
      rw [held] at grown
      cases grown
    | cons first outer =>
      rw [held, List.nil_append, Parser.grow] at grown
      obtain ⟨rfl, rfl⟩ := List.cons.inj grown
      have same : q.collectors.length = p.here.markers := by
        show q.collectors.length = p.collectors.length
        rw [shape, held]
        rfl
      have collected : p.here.collected = first.size := by
        show (p.collectors.head?.map Array.size).getD 0 = _
        rw [held]
        rfl
      obtain ⟨kept, rfl⟩ := uncollect_append takes fun among => by
        have since := frees same (first.appendList others) (by rw [shape]; rfl)
        rw [collected] at since
        obtain ⟨later, last⟩ := since (by simpa using among)
        exact ⟨fun none => by simp [none] at later, last⟩
      exact ⟨[], kept, rfl⟩

theorem within_collect (within : Within p.collectors q.collectors) (cells : List Cell) :
    Within p.collectors (after (collect cells q)).collectors := by
  rw [after_ok (collect_eq cells q)]
  exact within.grow cells

theorem within_attach (within : Within p.collectors q.collectors) (node : Node) (frees : p.here.Frees q cell) :
    Within p.collectors (after (attach node cell q)).collectors := by
  rcases release_cases cell q with refused | ⟨innermost, outer, rest, shape, takes, releases⟩
  · have same : after (attach node cell q) = q := by
      simp only [attach, bind, EStateM.bind, refused, after]
    rw [same]
    exact within
  · rw [attach, TokenStream.bind_ok releases]
    exact within.release shape takes frees

/-- A node that was begun since is ended. -/
theorem within_close {α : Type} {next : List Cell → ParseM α} (within : Within p.collectors q.collectors)
    (marker : Marker) (spares : marker.depth + 1 = q.collectors.length → p.here.markers ≤ marker.depth)
    (goesOn : ∀ cells r, Within p.collectors r.collectors → Within p.collectors (after (next cells r)).collectors) :
    Within p.collectors (after ((close marker >>= next) q)).collectors := by
  rcases close_cases marker q with refused | ⟨innermost, outer, shape, depth, closes⟩
  · have same : after ((close marker >>= next) q) = q := by
      simp only [bind, EStateM.bind, refused, after]
    rw [same]
    exact within
  · rw [TokenStream.bind_ok closes]
    refine goesOn _ _ (Within.close (shape ▸ within) ?_)
    have since := spares (by rw [shape, depth]; rfl)
    exact depth ▸ since

/-- The token that is consumed is the last one in the innermost node. -/
theorem frees_bumped (within : Within p.collectors q.collectors) (bumped : r.collectors = grow [cell] q.collectors) :
    p.here.Frees r cell := by
  intro level innermost first _
  have level : q.collectors.length = p.collectors.length := by
    rw [bumped, grow_length] at level
    exact level
  obtain ⟨inner, others, shape⟩ := within
  obtain rfl : inner = [] := by
    have lengths := congrArg List.length shape
    rw [List.length_append, grow_length] at lengths
    exact List.length_eq_zero_iff.1 (by omega)
  rw [bumped, shape, List.nil_append, grow_grow] at first
  cases held : p.collectors with
  | nil =>
    rw [held] at first
    cases first
  | cons node outer =>
    rw [held, grow, List.head?_cons, Option.mem_some] at first
    obtain rfl := first
    have collected : p.here.collected = node.size := by
      show (p.collectors.head?.map Array.size).getD 0 = _
      rw [held]
      rfl
    refine ⟨?_, ?_⟩
    · rw [collected, ← Array.length_toList, ← Array.length_toList]
      simp
    · have last : (node.appendList (others ++ [cell])).back? = some cell := by
        rw [← Array.getLast?_toList]
        simp
      rw [last]
      simp

/-- A step that spares what was there at the checkpoint keeps it. -/
theorem within_after {step : CoreStep} (spares : step.Spares p.here q) (sound : q.stream.Sound)
    (rests : q.stream.Rests) (within : Within p.collectors q.collectors) :
    Within p.collectors (after (step.run q)).collectors := by
  cases moves : step.goesOver with
  | true =>
    obtain ⟨moved, taken, left, course⟩ := goesOver_course moves sound rests
    rw [course.collectors]
    exact within.grow taken
  | false =>
    cases step <;> rw [CoreStep.run] <;> try rw [after_discard]
    case start =>
      obtain ⟨inner, cells, shape⟩ := within
      exact ⟨#[] :: inner, cells, congrArg (#[] :: ·) shape⟩
    case complete marker _ _ _ => exact within_close within marker spares fun _ _ => id
    case mergeInto marker _ => exact within_close within marker spares fun _ _ => id
    case abandon marker => exact within_close within marker spares fun cells r within => within_collect within cells
    case attach node cell => exact within_attach within node spares
    case take cell => exact within_collect within [cell]
    case collect cells => exact within_collect within cells
    case eatInto node kind =>
      rcases eatInto_cases node kind sound rests with same | ⟨here, r, moved, course, leaves⟩
      · rw [same]
        exact within
      · rw [leaves]
        refine within_attach (course.collectors ▸ within.grow _) node ?_
        by_cases ends : q.cell.kind = .endOfFile
        · have same : r.collectors = q.collectors := by rw [course.collectors, bumpedCells, if_pos ends, grow_nil]
          rw [Checkpoint.Frees, same]
          exact spares ends (here ▸ ends)
        · exact frees_bumped within (by rw [course.collectors, bumpedCells, if_neg ends])
    case missingName message =>
      obtain ⟨cell, r, takes, course⟩ := takeMissingName_course message sound rests
      rw [after_ok takes]
      exact (course.collectors ▸ within.grow [] : Within p.collectors r.collectors).grow [cell]
    all_goals cases moves

/-! ### Going back -/

/-- What has been done since the checkpoint, but for the nodes, is to go over tokens. -/
theorem Spared.course (spared : Spared p.here p q) (sound : p.stream.Sound) (rests : p.stream.Rests) :
    Within p.collectors q.collectors ∧ ∃ r moved taken left, Course p moved taken left r ∧
      q = { r with collectors := q.collectors } := by
  induction spared with
  | refl => exact ⟨.refl _, p, [], [], [], .refl sound rests, rfl⟩
  | @step q step _ spares ih =>
    obtain ⟨within, r, moved, taken, left, course, same⟩ := ih
    have stream : q.stream = r.stream := by
      rw [same]
      rfl
    have sound : q.stream.Sound := stream ▸ course.sound
    have rests : q.stream.Rests := stream ▸ course.rests
    obtain ⟨s, more, given, loose, later, leaves⟩ := after_course step sound rests
    have back : { q with collectors := r.collectors } = r := by rw [same]
    have whole := course.trans (back ▸ later.under r.collectors)
    exact ⟨within_after spares sound rests within, _, _, _, _, whole, leaves⟩

/-- Where the cursor comes to stand when it goes back, and what it has in front of it then: the token is the same, only
that names put in may have taken over its lead. -/
theorem Course.rewound {moved taken left : List Cell} (course : Course p moved taken left q) :
    ∃ (put : List Cell) (lead : String), (∀ cell ∈ put, cell.synthetic) ∧
      (q.stream.seek p.cell.index).current = { p.cell with lead } ∧
      Mends p.stream.upcoming (put.map Cell.toToken ++ (q.stream.seek p.cell.index).upcoming) := by
  obtain ⟨put, rest, lead, split, synthetic⟩ := course.origin
  obtain ⟨back, same⟩ : ∃ back, back = { p.cell with lead } := ⟨_, rfl⟩
  have index : p.cell.index = back.index := same ▸ rfl
  rw [← same] at split
  have parts : q.stream.document = (p.stream.behind.reverse ++ put) ++ back :: (rest ++ q.stream.ahead) := by
    have whole : q.stream.document = p.stream.behind.reverse ++ ((moved ++ [q.cell]) ++ q.stream.ahead) := by
      rw [TokenStream.document, course.behind, cell]
      simp
    rw [whole, split]
    simp
  rw [index, TokenStream.seek_eq course.sound.nodup parts]
  refine ⟨put, lead, synthetic, same, ?_⟩
  have tokens := congrArg (List.map Cell.toToken · ++ (q.stream.ahead.map Cell.toToken ++ q.stream.unread)) split
  simp only [List.map_append, List.map_cons, List.map_nil, List.append_assoc, List.cons_append, List.nil_append]
    at tokens
  have mends := course.upcoming
  rw [show q.stream.upcoming = q.cell.toToken :: _ from rfl, tokens] at mends
  simpa [TokenStream.upcoming] using mends

/-- Going back to a checkpoint undoes whatever was done since, except that names put in stay, with the leads that they
have taken over. The cursor meets the tokens again that it met from there, and those names. -/
theorem rewind_undoes (reached : Reached marks p) (takes : checkpoint p = .ok c p) (spared : Spared c p q) :
    ∃ r, rewind c q = .ok () r ∧ (∃ lead, r.cell = { p.cell with lead }) ∧ r.errors = p.errors ∧
      r.collectors = p.collectors ∧ r.position = p.position ∧ Mends p.stream.tokens r.stream.tokens ∧
      sourceOf r.stream.tokens = sourceOf p.stream.tokens ∧
      ∃ put : List Token, (∀ token ∈ put, token.synthetic) ∧
        Mends (p.stream.visits p.stream.kinds.length) (put ++ r.stream.visits r.stream.kinds.length) := by
  obtain rfl : p.here = c := by
    have gives : checkpoint p = .ok p.here p := rfl
    exact (EStateM.Result.ok.inj (gives.symm.trans takes)).1
  obtain ⟨sound, rests, -⟩ := reached.sound
  obtain ⟨⟨inner, cells, collectors⟩, s, moved, taken, left, course, same⟩ := spared.course sound rests
  have engine : q.engine = s.engine := by rw [same]
  have errors : p.errors.toList <+: q.errors.toList := by
    rw [show q.errors = s.errors from congrArg Engine.errors engine]
    exact course.errors
  have stream : q.stream = s.stream := congrArg Engine.stream engine
  obtain ⟨put, lead, synthetic, here, mends⟩ := course.rewound
  rw [← stream] at here mends
  have keeps := (stream ▸ course.sound : q.stream.Sound).seek p.cell.index
  have whole : Mends p.stream.tokens (q.stream.seek p.cell.index).tokens := by
    rw [keeps.tokens, TokenStream.tokens_eq, TokenStream.tokens_eq, stream, course.behind]
    simpa using course.upcoming.append_left (p.stream.behind.reverse.map Cell.toToken)
  have rested : (q.stream.seek p.cell.index).Rests := by
    rw [TokenStream.Rests, here]
    exact rests
  refine ⟨rewound p q, rewind_eq p q, ⟨lead, here⟩, errors_rewound errors, ?_, rfl, whole, whole.source,
    (put.map Cell.toToken).filter (·.kind != .comment), fun token member => ?_, ?_⟩
  · show kept p.collectors q.collectors = _
    rw [collectors, kept_append]
  · obtain ⟨cell, listed, rfl⟩ := List.mem_map.1 (List.mem_filter.1 member).1
    exact synthetic cell listed
  · rw [TokenStream.visits_eq sound rests, show (rewound p q).stream = q.stream.seek p.cell.index from rfl,
      TokenStream.visits_eq keeps.sound rested, ← List.filter_append]
    exact mends.met

/-- Before a name that is all there is in a file, another one is put in, and then the first is consumed. -/
theorem rewind_undoes_missingName :
    let x : Token := ⟨.name, "x", "", ⟨0, 1, by decide⟩, ⟨1, 1⟩, ⟨1, 2⟩, true, false⟩
    let last : Token := ⟨.endOfFile, "", "", ⟨1, 1, by decide⟩, ⟨1, 2⟩, ⟨1, 2⟩, false, false⟩
    ∃ stream, TokenStream.ofTokens 0 .v26 true [x, last] = .ok stream ∧
      let p := after (CoreStep.start.run (.ofStream stream ⟨false, true, 1, by decide⟩))
      let q := after (CoreStep.bump.run (after ((CoreStep.missingName none).run p)))
      q.errors.size = 1 ∧ q.position = 1 ∧ q.cell.kind = .endOfFile ∧ ∃ r, rewind p.here q = .ok () r ∧
        r.errors = #[] ∧ r.position = 0 ∧ r.collectors = [#[]] ∧ r.cell.index = 0 := by
  intro x last
  let stream : TokenStream := ⟨0, .v26, [], ⟨x, 0⟩, [], [last], 1⟩
  let options : ParseOptions := ⟨false, true, 1, by decide⟩
  have opens : TokenStream.ofTokens 0 .v26 options.onDemand [x, last] = .ok stream := rfl
  have defined : ∀ token ∈ [x, last], Dialect.v26.defines token.kind := by decide
  have fresh : Reached [] (.ofStream stream options) := .fresh defined ⟨[.name], rfl, by decide⟩ opens
  refine ⟨stream, opens, rfl, rfl, rfl, ?_⟩
  obtain ⟨r, rewinds, ⟨lead, here⟩, errors, collectors, position, -⟩ :=
    rewind_undoes (.step .start fresh) rfl (.step .bump (.step (.missingName none) .refl trivial) trivial)
  exact ⟨r, rewinds, errors, position, collectors, by rw [here]; rfl⟩

end Parser

end TolerantParser
