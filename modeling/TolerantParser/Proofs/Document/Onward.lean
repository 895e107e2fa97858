import TolerantParser.Proofs.Document.InStep
import TolerantParser.Proofs.Parser.Rounds

/-!
Documents from the middle. Wherever rounds over the statements of a document have led, the rest of it is parsed as if
the statements began there, and what comes of that is put behind the statements found so far.
-/

namespace TolerantParser.Parser

variable {limits : Limits} {inner : Inner} {stop : TokenKind → Bool} {p q : Parser}
  {made made' : Option Nat × Array Node}

/-- One round over the statements of a document. -/
abbrev moduleRound (limits : Limits) : Option Nat × Array Node → ParseM (ForInStep (Option Nat × Array Node)) :=
  statementRound (full limits) (· == .endOfFile)

/-! ### Rounds over statements -/

/-- A round over the statements of a document always comes to something. -/
theorem moduleRound_takes (limits : Limits) {level : Depth} (made : Option Nat × Array Node)
    (ready : Ready False .block level p) (progress : made.1.all (· < p.position)) :
    Takes False .block False level (moduleRound limits made) p fun outcome ps q =>
      Rounded (· == .endOfFile) made.2 outcome ps p q :=
  takes_of_ends (statementRound_ends _ ready progress (full_statement_takes limits False ready).ends)

/-- Where rounds over statements have led there is nothing but these statements behind. -/
theorem Rounds.moves {level : Depth} (rounds : Rounds (moduleRound limits) made p made' q)
    (ready : Ready False .block level p)
    (progress : made.1.all (· < p.position)) : ∃ ps, Moves False .block False ps p q ∧
      Ready False .block level q ∧ made'.2.toList = made.2.toList ++ nodesOf ps ∧ made'.1.all (· < q.position) := by
  refine rounds.induct (fun value r => ∃ ps, Moves False .block False ps p r ∧ Ready False .block level r ∧
    value.2.toList = made.2.toList ++ nodesOf ps ∧ value.1.all (· < r.position))
    ⟨[], .refl False .block p, ready, (List.append_nil _).symm, progress⟩ ?_
  rintro value next q r ⟨ps, moves, ready, parts, progress⟩ steps
  obtain ⟨outcome, s, qs, takes, behind, ready, rounded⟩ := moduleRound_takes limits value ready progress
  obtain ⟨rfl, rfl⟩ := EStateM.Result.ok.inj (steps.symm.trans takes)
  refine ⟨_, moves.trans behind, ready, ?_, (rounded.goes rfl).1⟩
  rw [show next.2.toList = _ from rounded.made, parts, nodesOf_append, List.append_assoc]

theorem retains_moduleRound (limits : Limits) (made : Option Nat × Array Node) : Retains (moduleRound limits made) :=
  (Parallel.statementRound (W := .all) Frame.guided_whole (full_inStep limits Frame.guided_whole) _
    (Likeness.all made)).retains

/-- What a round does does not depend on the statements in front. -/
theorem statementRound_concur {before : Array Node} (nodes : made.2 = before ++ made'.2)
    (progress : made.1.all (· < p.position) = made'.1.all (· < p.position)) :
    Concur (fun made made' => made.2 = before ++ made'.2) (fun made made' p => made.2 = before ++ made'.2 ∧
        made.1.all (· < p.position) = made'.1.all (· < p.position))
      (statementRound inner stop made p) (statementRound inner stop made' p) := by
  have here : ∀ kind, at? kind p = .ok (p.cell.kind == kind) p := fun _ => rfl
  have stops : atSet? stop p = .ok (stop p.cell.kind) p := rfl
  have progressed : ∀ last, hasProgressed last p = .ok (last.all (· < p.position)) p := fun _ => rfl
  have place : (get : ParseM Parser) p = .ok p p := rfl
  simp only [statementRound]
  rw [TokenStream.bind_ok (here _), TokenStream.bind_ok (here _), TokenStream.bind_ok stops, TokenStream.bind_ok stops]
  split
  · exact .done p nodes
  rw [TokenStream.bind_ok (progressed _), TokenStream.bind_ok (progressed _), progress]
  split
  swap
  · exact .done p nodes
  rw [TokenStream.bind_ok place, TokenStream.bind_ok place]
  show Concur _ _ (EStateM.bind inner.statement _ p) (EStateM.bind inner.statement _ p)
  unfold EStateM.bind
  cases inner.statement p with
  | error fault q => exact .error
  | ok parsed q =>
    have nodes : made.2 ++ parsed.nodes.toArray = before ++ (made'.2 ++ parsed.nodes.toArray) := by
      rw [nodes, Array.append_assoc]
    show Concur _ _ (EStateM.bind (recoverStatement parsed) _ q) (EStateM.bind (recoverStatement parsed) _ q)
    unfold EStateM.bind
    cases recoverStatement parsed q with
    | error fault r => exact .error
    | ok goesOn r =>
      cases goesOn with
      | true => exact .yield r ⟨nodes, rfl⟩
      | false => exact .done r nodes

/-- The statements of a document are those found by some rounds and those that are found from there. -/
theorem statementList_onward {level : Depth} (ready : Ready False .block level p)
    (rounds : Rounds (moduleRound limits) (none, #[]) p made q) : ∃ nodes r,
      statementList (full limits) (· == .endOfFile) q = .ok nodes r ∧
        statementList (full limits) (· == .endOfFile) p = .ok (made.2.toList ++ nodes) r := by
  have lists : ∀ {p : Parser}, Ready False .block level p → ∃ value r bound,
      iterate (moduleRound limits) bound (none, #[]) p = .ok value r ∧
        statementList (full limits) (· == .endOfFile) p = .ok value.2.toList r := by
    intro p ready
    obtain ⟨nodes, r, _, steps, -⟩ := takes_of_ends <| statementList_ends (· == .endOfFile) ready fun _ _ _ ready =>
      (full_statement_takes limits False ready).ends
    obtain ⟨value, s, loops, ends⟩ := TokenStream.bind_eq_ok (statementList_eq (full limits) _ ▸ steps)
    cases ends
    exact ⟨value, r, _, loops, steps⟩
  obtain ⟨_, -, later, -, progress⟩ := rounds.moves ready rfl
  obtain ⟨value, r, bound, runs, steps⟩ := lists ready
  obtain ⟨value', r', bound', runs', steps'⟩ := lists later
  obtain ⟨bound, runs⟩ := rounds.onward runs
  have first : made.1.all (· < q.position) = (none : Option Nat).all (· < q.position) := progress
  have step : ∀ {value value' p}, value.2 = made.2 ++ value'.2 ∧
      value.1.all (· < p.position) = value'.1.all (· < p.position) → Concur _ _ (moduleRound limits value p)
        (moduleRound limits value' p) := fun goes => statementRound_concur goes.1 goes.2
  obtain ⟨whole, rfl⟩ := iterate_concur step (statementRound_concur Array.append_empty.symm first) runs runs'
  refine ⟨_, r, steps', ?_⟩
  rw [steps, whole, Array.toList_append]

/-! ### Whole documents -/

/-- What follows a list of statements in a document. -/
def documentRest (body : Array Node) : ParseM (ForInStep (Array Node)) := do
  if ← at? .endOfFile then return .done body
  let found ← describeCurrent
  complain .endOfFileExpected s!"Unexpected {found} at module level"
  discard bump
  return .yield body

theorem documentRound_eq (listed : ParseM (List Node)) (body : Array Node) :
    documentRound listed body = listed >>= fun nodes => documentRest (body ++ nodes.toArray) := rfl

theorem documentRest_concur (before body : Array Node) (p : Parser) :
    Concur (fun body body' => body = before ++ body') (fun body body' _ => body = before ++ body')
      (documentRest (before ++ body) p) (documentRest body p) := by
  have here : at? .endOfFile p = .ok (p.cell.kind == .endOfFile) p := rfl
  have described : describeCurrent p = .ok (describe p.cell) p := rfl
  simp only [documentRest]
  rw [TokenStream.bind_ok here, TokenStream.bind_ok here]
  split
  · exact .done p rfl
  rw [TokenStream.bind_ok described, TokenStream.bind_ok described]
  show Concur _ _ (EStateM.bind (complain _ _) _ p) (EStateM.bind (complain _ _) _ p)
  unfold EStateM.bind
  cases complain .endOfFileExpected s!"Unexpected {describe p.cell} at module level" p with
  | error fault q => exact .error
  | ok _ q =>
    show Concur _ _ (EStateM.bind (discard bump) _ q) (EStateM.bind (discard bump) _ q)
    unfold EStateM.bind
    cases (discard bump : ParseM PUnit) q with
    | error fault r => exact .error
    | ok _ r => exact .yield r rfl

theorem documentRound_concur (listed : ParseM (List Node)) (before body : Array Node) (p : Parser) :
    Concur (fun body body' => body = before ++ body') (fun body body' _ => body = before ++ body')
      (documentRound listed (before ++ body) p) (documentRound listed body p) := by
  rw [documentRound_eq, documentRound_eq]
  show Concur _ _ (EStateM.bind listed _ p) (EStateM.bind listed _ p)
  unfold EStateM.bind
  cases listed p with
  | error fault q => exact .error
  | ok nodes q =>
    show Concur _ _ (documentRest (before ++ body ++ nodes.toArray) q) _
    rw [Array.append_assoc]
    exact documentRest_concur before _ q

/-- The body of a document is what some rounds have found and what is found from there. -/
theorem documentBody_onward (ready : Ready False .block .outermost p)
    (rounds : Rounds (moduleRound limits) (none, #[]) p made q) :
      ∃ nodes r, documentBody (full limits) q = .ok nodes r ∧
      documentBody (full limits) p = .ok (made.2.toList ++ nodes) r := by
  have bodies : ∀ {p : Parser}, Ready False .block .outermost p → ∃ value r bound,
      iterate (documentRound (statementList (full limits) (· == .endOfFile))) bound #[] p = .ok value r ∧
        documentBody (full limits) p = .ok value.toList r := by
    intro p ready
    obtain ⟨nodes, r, _, steps, -⟩ := documentBody_takes ready
    obtain ⟨value, s, loops, ends⟩ := TokenStream.bind_eq_ok (documentBody_eq (full limits) ▸ steps)
    cases ends
    exact ⟨value, r, _, loops, steps⟩
  obtain ⟨_, -, later, -⟩ := rounds.moves ready rfl
  obtain ⟨value, r, bound, runs, steps⟩ := bodies ready
  obtain ⟨value', r', bound', runs', steps'⟩ := bodies later
  obtain ⟨nodes, s, lists', lists⟩ := statementList_onward ready rounds
  have first : Concur (fun body body' => body = made.2 ++ body') (fun body body' _ => body = made.2 ++ body')
      (documentRound (statementList (full limits) (· == .endOfFile)) #[] p)
      (documentRound (statementList (full limits) (· == .endOfFile)) #[] q) := by
    rw [documentRound_eq, TokenStream.bind_ok lists, TokenStream.bind_ok lists']
    have whole : #[] ++ (made.2.toList ++ nodes).toArray = made.2 ++ (#[] ++ nodes.toArray) := by simp
    rw [whole]
    exact documentRest_concur made.2 _ s
  obtain ⟨whole, rfl⟩ := iterate_concur (fun {body body' p} goes => goes ▸ documentRound_concur _ made.2 body' p)
    first runs runs'
  refine ⟨_, r, steps', ?_⟩
  rw [steps, whole, Array.toList_append]

end TolerantParser.Parser
