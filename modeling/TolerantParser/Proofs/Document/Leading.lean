import TolerantParser.Proofs.Document.Onward

/-!
A document in front of another. Two runs begin with the same tokens, and where the first comes to the end of its file
the second goes on with others. They are in step until then, be it that the first document is without errors, or that
it is a single line that begins no compound statement. From there the second run makes a document by itself.
-/

namespace TolerantParser

open TolerantParser.Parser (Rounds moduleRound)

namespace Frame

variable {c : Frame} {p q : Parser} {last : TokenView}

/-- The frame of two documents of which the first ends with `last` where the second goes on with `rest`. -/
def leading (clean : Prop) (last : TokenView) (rest : List TokenView) : Frame where
  front := ([], [])
  back := ([last], rest)
  numbers := []
  places := Eq
  lined := True
  clean := clean
  literal := True
  thrifty := False
  held := []
  errors := []
  gone := 0
  floor := 1
  min := @Position.min_congr
  max := @Position.max_congr
  closed := .inl trivial
  lined_of_clean _ := trivial
  floor_pos := Nat.one_pos

theorem fresh_leading (clean : Prop) (last : TokenView) (rest : List TokenView) : (leading clean last rest).Fresh :=
  ⟨rfl, rfl, rfl, rfl, rfl, rfl⟩

/-- At the end of the file there is no more than that. -/
theorem kinds_ended {s : TokenStream} (sound : s.Sound) (ends : s.current.kind = .endOfFile) :
    s.kinds = [.endOfFile] := by
  obtain ⟨ahead, unread⟩ := sound.at_end ends
  simp [TokenStream.kinds, TokenStream.upcoming, ahead, unread, ends]

/-- Before the end of the first document there is no end of a file. -/
theorem Along.goesOn (along : c.Along p q) (more : c.back.1 ≠ []) (room : 0 < c.room p.stream) :
    p.cell.kind ≠ .endOfFile := by
  intro ends
  obtain ⟨kinds, left, -, -, length⟩ := along.stream.kinds
  rw [kinds_ended along.stream.sound.1 ends] at left
  have counts := congrArg List.length left
  have behind := List.length_pos_of_ne_nil more
  simp only [List.length_append, List.length_map, List.length_singleton] at counts
  omega

/-- Behind the common part the first document ends. -/
theorem Along.ended (along : c.Along p q) (back : c.back.1 = [last]) (ends : last.kind = .endOfFile)
    (behind : ¬ 0 < c.room p.stream) : p.cell.kind = .endOfFile := by
  obtain ⟨kinds, left, -, -, length⟩ := along.stream.kinds
  obtain rfl : kinds = [] := List.eq_nil_of_length_eq_zero (by omega)
  obtain ⟨rest, here⟩ := TokenStream.kinds_eq_cons along.stream.rests.1
  rw [back, here] at left
  exact (List.cons.inj left).1.trans ends

end Frame

/-! ### Until the first document ends -/

namespace Parser

variable {limits : Limits} {p q : Parser} {made : Option Nat × Array Node}

theorem moduleRound_ended (ends : p.cell.kind = .endOfFile) : moduleRound limits made p = .ok (.done made) p := by
  have here : at? .endOfFile p = .ok true p := congrArg (EStateM.Result.ok · p) (beq_iff_eq.2 ends)
  rw [moduleRound, statementRound, TokenStream.bind_ok here]
  rfl

theorem documentBody_ended (limits : Limits) (ends : p.cell.kind = .endOfFile) :
    documentBody (full limits) p = .ok [] p := by
  have lists : statementList (full limits) (· == .endOfFile) p = .ok [] p := by
    have runs : loop (none, #[]) (moduleRound limits) p = .ok (none, #[]) p := by
      show iterate (moduleRound limits) (2 * p.stream.total + 1 + 1) _ p = _
      rw [iterate, TokenStream.bind_ok (moduleRound_ended ends)]
      rfl
    rw [statementList_eq, TokenStream.bind_ok runs]
    rfl
  have rests : documentRest #[] p = .ok (.done #[]) p := by
    have here : at? .endOfFile p = .ok true p := congrArg (EStateM.Result.ok · p) (beq_iff_eq.2 ends)
    rw [documentRest, TokenStream.bind_ok here]
    rfl
  have runs : loop #[] (documentRound (statementList (full limits) (· == .endOfFile))) p = .ok #[] p := by
    show iterate _ (2 * p.stream.total + 1 + 1) _ p = _
    rw [iterate, documentRound_eq, bind_assoc, TokenStream.bind_ok lists]
    exact TokenStream.bind_ok rests _
  rw [documentBody_eq, TokenStream.bind_ok runs]
  rfl

/-- Steps behind an error do not take it back. -/
theorem Retained.unclean (retained : Retained p q) (unclean : ¬ p.Clean) : ¬ q.Clean :=
  fun clean => unclean (clean_of_retained retained clean)

theorem retains_documentRound (limits : Limits) : ∀ body,
    Retains (documentRound (statementList (full limits) (· == .endOfFile)) body) := by
  have through : ¬ Frame.whole.lined := id
  have listed : ∀ {W}, Parallel Frame.whole Frame.whole.Along (fun _ => Frame.whole.Near fun _ => True) W
      (statementList (full limits) (· == .endOfFile)) (statementList (full limits) (· == .endOfFile)) :=
    (Parallel.statementList Frame.guided_whole (full_inStep limits Frame.guided_whole) _).parallel through
  exact fun body => (Parallel.documentRound (W := .all) through listed (Likeness.all body)).retains

/-- A document without errors is a single list of statements. -/
theorem documentBody_clean {nodes : List Node} (takes : documentBody (full limits) p = .ok nodes q) (clean : q.Clean) :
    ∃ bound value, iterate (moduleRound limits) bound (none, #[]) p = .ok value q ∧ q.cell.kind = .endOfFile := by
  obtain ⟨body, r, runs, ends⟩ := TokenStream.bind_eq_ok (documentBody_eq (full limits) ▸ takes)
  cases ends
  have runs : iterate _ (2 * p.stream.total + 1 + 1) _ p = _ := runs
  rw [iterate, documentRound_eq, bind_assoc] at runs
  obtain ⟨listed, r, lists, runs⟩ := TokenStream.bind_eq_ok runs
  obtain ⟨outcome, s, closes, runs⟩ := TokenStream.bind_eq_ok runs
  have later : Retained s q := by
    cases outcome with
    | done => cases runs; exact .refl _
    | yield value =>
      have retained := Retains.iterate (retains_documentRound limits) (2 * p.stream.total + 1) value s
      rw [show iterate _ _ value s = _ from runs] at retained
      exact retained
  have here : at? .endOfFile r = .ok (r.cell.kind == .endOfFile) r := rfl
  rw [documentRest, TokenStream.bind_ok here] at closes
  split at closes
  next ended =>
    cases closes
    cases runs
    obtain ⟨value, r, loops, ends⟩ := TokenStream.bind_eq_ok (statementList_eq (full limits) _ ▸ lists)
    cases ends
    exact ⟨_, value, loops, by simpa using ended⟩
  next =>
    have blames : Blaming (do
        let found ← describeCurrent
        complain .endOfFileExpected s!"Unexpected {found} at module level"
        discard bump
        return .yield (#[] ++ listed.toArray) : ParseM (ForInStep (Array Node))) := fun p =>
      (blaming_complain _ _).bind (fun _ => retains_bump.discard.bind fun _ => retains_pure _) p
    have found := blames r
    rw [closes] at found
    exact absurd clean (later.unclean found)

end Parser

namespace Frame

variable {limits : Limits} {c : Frame} {p q p' : Parser} {made made' value : Option Nat × Array Node}

/-- The second parse as it is where the first has come to the end of its file, with the statements both have found. -/
structure Halts (c : Frame) (limits : Limits) (made made' : Option Nat × Array Node) (p q : Parser)
    (value value' : Option Nat × Array Node) (p' q' : Parser) : Prop where
  left : Rounds (moduleRound limits) made p value p'
  right : Rounds (moduleRound limits) made' q value' q'
  along : c.Along p' q'
  behind : ¬ 0 < c.room p'.stream
  alike : Alike (c.paired p' q') value value'

/-- A parse without errors is in step with the other one until its file ends. -/
theorem halts_of_fair (guided : c.Guided) (more : c.back.1 ≠ []) {bound : Nat} (along : c.Along p q)
    (alike : Alike (c.paired p q) made made') (ready : Parser.Ready False .block .outermost q)
    (progress : made'.1.all (· < q.position)) (runs : Parser.iterate (moduleRound limits) bound made p = .ok value p')
    (ends : p'.cell.kind = .endOfFile) (fair : c.Fair p') :
    ∃ value' q', c.Halts limits made made' p q value value' p' q' := by
  induction bound generalizing made made' p q with
  | zero => cases runs
  | succ bound ih =>
    rw [Parser.iterate] at runs
    by_cases room : 0 < c.room p.stream
    · obtain ⟨outcome, r, steps, runs⟩ := TokenStream.bind_eq_ok runs
      obtain ⟨outcome', r', _, steps', -, ready', rounded⟩ := Parser.moduleRound_takes limits made' ready progress
      have both := (Parallel.statementRound guided (Parser.full_inStep limits guided) (· == .endOfFile) alike).runs p q
        ⟨along, room, trivial⟩ (le_refl _)
      rw [show Parser.statementRound _ _ made p = _ from steps,
        show Parser.statementRound _ _ made' q = _ from steps'] at both
      have later : Parser.Retained r p' := by
        cases outcome with
        | done => cases runs; exact .refl _
        | yield next =>
          have retained := Parser.Retains.iterate (Parser.retains_moduleRound limits) bound next r
          rw [show Parser.iterate _ _ next r = _ from runs] at retained
          exact retained
      cases both with
      | spoilt unfair => exact absurd (Parser.fair_of_retained later fair) unfair
      | ok holds _ values =>
        cases outcome with
        | done =>
          cases outcome' with
          | yield => exact values.elim
          | done =>
            cases runs
            exact absurd ends (holds.1.goesOn more holds.2.1)
        | yield next =>
          cases outcome' with
          | done => exact values.elim
          | yield next' =>
            obtain ⟨value', q', halts⟩ := ih holds values ready' (rounded.goes rfl).1 runs
            exact ⟨value', q', .step steps halts.left, .step steps' halts.right, halts.along, halts.behind, halts.alike⟩
    · obtain ⟨-, ended, -⟩ := along.apart guided room
      rw [TokenStream.bind_ok (Parser.moduleRound_ended ended)] at runs
      cases runs
      exact ⟨made', q, .refl .., .refl .., along, room, alike⟩

/-- A parse of a single line is in step with the other one until its file ends. -/
theorem halts_of_line (limits : Limits) (lined : c.lined) (dirty : ¬ c.clean) (fair : ∀ p, c.Fair p)
    (along : c.Along p q) (room : 0 < c.room p.stream) (plain : p.dialect.compoundForm? p.cell.kind = none)
    (ready : Parser.Ready False .block .outermost p) (ready' : Parser.Ready False .block .outermost q) :
    ∃ value value' p' q', c.Halts limits (none, #[]) (none, #[]) p q value value' p' q' := by
  obtain ⟨outcome, r, _, steps, -⟩ := Parser.moduleRound_takes limits (none, #[]) ready rfl
  obtain ⟨outcome', r', _, steps', -⟩ := Parser.moduleRound_takes limits (none, #[]) ready' rfl
  have both := Parallel.lineRound limits lined dirty along room plain
  rw [show Parser.statementRound _ _ _ p = _ from steps, show Parser.statementRound _ _ _ q = _ from steps'] at both
  cases both with
  | spoilt unfair => exact absurd (fair _) unfair
  | ok holds _ values =>
    cases outcome with
    | done => exact holds.elim
    | yield value =>
      cases outcome' with
      | done => exact values.elim
      | yield value' =>
        exact ⟨value, value', r, r', .step steps (.refl ..), .step steps' (.refl ..), holds.1,
          holds.2 lined dirty, values⟩

end Frame

end TolerantParser
