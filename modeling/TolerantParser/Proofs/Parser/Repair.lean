import TolerantParser.Proofs.Parser.Core

/-!
Errors and their repairs. An error is recorded and whatever the repair goes over belongs to the node under
construction. Repairs find what they look for or leave the parse where it was; none of them is refused.
-/

namespace TolerantParser

namespace Engine

open TokenStream (Steps)

/-- The trace gets a line that shows the tokens around the error. -/
theorem trace_ok {outcome : Outcome} {e : Engine} {after : Option Cell} {stream : TokenStream}
    (looks : TokenStream.following? outcome.error.cell.index e.stream = .ok after stream) :
    trace outcome e = .ok () { e with
      stream, log := e.log.push (traceLine outcome (e.stream.preceding? outcome.error.cell.index) after) } := by
  have start : (get : EngineM Engine) e = .ok e e := rfl
  have around : onStream (TokenStream.following? outcome.error.cell.index) e = .ok after { e with stream } := by
    simp [onStream, looks]
  rw [trace, TokenStream.bind_ok start, TokenStream.bind_ok around]
  rfl

theorem trace_eq (outcome : Outcome) {e : Engine} (sound : e.stream.Sound) :
    ∃ e', trace outcome e = .ok () e' ∧ Steps e.stream [] e'.stream ∧ e'.errors = e.errors := by
  obtain ⟨after, stream, looks, steps⟩ := TokenStream.following?_eq outcome.error.cell.index sound
  exact ⟨_, trace_ok looks, steps, rfl⟩

/-- Once an error has been repaired, only the trace is left to write. -/
theorem recover_traced {kind : ErrorKind} {message : Option String} {closers : List TokenKind}
    {e e' e'' : Engine} {outcome : Outcome}
    (repairs : repair (.ofMessage kind e.stream.current message) closers
      { e with errors := e.errors.push (.ofMessage kind e.stream.current message) } = .ok outcome e')
    (traces : if e'.options.trace then trace outcome e' = .ok () e'' else e'' = e') :
    recover kind message closers e = .ok outcome e'' := by
  have records : record kind message none e = .ok (.ofMessage kind e.stream.current message)
      { e with errors := e.errors.push (.ofMessage kind e.stream.current message) } := rfl
  have again : (get : EngineM Engine) e' = .ok e' e' := rfl
  rw [recover, TokenStream.bind_ok records, TokenStream.bind_ok repairs, TokenStream.bind_ok again]
  split
  next traced =>
    rw [if_pos traced] at traces
    exact TokenStream.bind_ok traces _
  next silent =>
    rw [if_neg silent] at traces
    rw [traces]
    rfl

/-- Recording an error and writing the trace change neither the tokens nor the place in them. -/
theorem recover_eq {kind : ErrorKind} {message : Option String} {closers : List TokenKind}
    {e e' : Engine} {outcome : Outcome}
    (repairs : repair (.ofMessage kind e.stream.current message) closers
      { e with errors := e.errors.push (.ofMessage kind e.stream.current message) } = .ok outcome e')
    (sound : e'.stream.Sound) :
    ∃ e'', recover kind message closers e = .ok outcome e'' ∧ Steps e'.stream [] e''.stream ∧
      e''.errors = e'.errors := by
  by_cases traced : e'.options.trace
  · obtain ⟨e'', traces, steps, errors⟩ := trace_eq outcome sound
    exact ⟨e'', recover_traced repairs (by rwa [if_pos traced]), steps, errors⟩
  · exact ⟨e', recover_traced repairs (by rw [if_neg traced]), .refl sound, rfl⟩

end Engine

namespace Parser

open TokenStream (Steps significant)

variable {α β : Type} {laid lead : Prop} {mode mode' : Mode} {level : Depth} {p q r o : Parser}
  {ps qs : List Piece}

/-- The error that is recorded at the cursor. -/
def errorHere (p : Parser) (kind : ErrorKind) (message : Option String) : ParseError :=
  .ofMessage kind p.cell message

/-- A parse with one more error. -/
def blame (p : Parser) (kind : ErrorKind) (message : Option String) : Engine :=
  { p.engine with errors := p.errors.push (p.errorHere kind message) }

/-- What the engine went over is handed to the innermost node. -/
theorem recover_skipped {kind : ErrorKind} {message : Option String} {closers : List TokenKind}
    {outcome : Outcome} {engine : Engine}
    (recovers : Engine.recover kind message closers p.engine = .ok outcome engine) :
    recover kind message closers p = .ok outcome
      { engine, collectors := grow outcome.skipped p.collectors, position := p.position + outcome.skipped.length } := by
  have taken := onEngine_ok (p := p) recovers
  by_cases nothing : outcome.skipped = []
  · rw [recover, TokenStream.bind_ok taken, nothing, grow_nil]
    rfl
  · have some : outcome.skipped.isEmpty = false := by simpa using nothing
    rw [recover, TokenStream.bind_ok taken, some]
    simp only [Bool.false_eq_true, if_false]
    rw [TokenStream.bind_ok (collect_eq _ _)]
    rfl

theorem recover_ok {kind : ErrorKind} {message : Option String} {closers : List TokenKind}
    {outcome : Outcome} {engine : Engine}
    (repairs : Engine.repair (p.errorHere kind message) closers (p.blame kind message) =
      .ok outcome engine) (sound : engine.stream.Sound) :
    ∃ q, recover kind message closers p = .ok outcome q ∧ Steps engine.stream [] q.stream ∧
      q.errors = engine.errors ∧ q.collectors = grow outcome.skipped p.collectors ∧
      q.position = p.position + outcome.skipped.length := by
  obtain ⟨engine', recovers, steps, errors⟩ := Engine.recover_eq repairs sound
  exact ⟨_, recover_skipped recovers, steps, errors, rfl, rfl⟩

/-- The errors about the ends of blocks. -/
def isBlockError (kind : ErrorKind) : Bool := kind == .dedentExpected || kind == .endOfFileExpected

theorem Proper.push (proper : p.Proper) {kind : ErrorKind} {message : Option String}
    (other : isBlockError kind = false)
    (errors : q.errors = p.errors.push (p.errorHere kind message)) : q.Proper := by
  intro error member
  rw [errors, Array.toList_push, List.mem_append, List.mem_singleton] at member
  rcases member with old | rfl
  · exact proper error old
  · simpa [isBlockError, errorHere, ParseError.ofMessage] using other

theorem not_clean_of_push {error : ParseError} (errors : q.errors = p.errors.push error) : ¬ q.Clean := by
  rw [Clean, errors]
  exact Array.push_ne_empty

/-- The errors that are only recorded. -/
def isRecordedOnly : ErrorKind → Bool
  | .dedentExpected | .nameExpected | .unmatchedBracket => false
  | _ => true

/-- What comes of an error that is only recorded. -/
def recordedOutcome (p : Parser) (kind : ErrorKind) (message : Option String) : Outcome :=
  { Outcome.recorded (p.errorHere kind message) with emptySuite := kind == .emptySuite }

theorem recover_recorded {kind : ErrorKind} (only : isRecordedOnly kind) (message : Option String)
    (closers : List TokenKind) (sound : p.stream.Sound) :
    ∃ q, recover kind message closers p = .ok (p.recordedOutcome kind message) q ∧ Still p q ∧
      q.errors = p.errors.push (p.errorHere kind message) := by
  have repairs : Engine.repair (p.errorHere kind message) closers (p.blame kind message) =
      .ok (p.recordedOutcome kind message) (p.blame kind message) := by
    cases kind <;> first | rfl | cases only
  obtain ⟨q, recovers, steps, errors, collectors, position⟩ := recover_ok repairs sound
  have pushed : q.errors = p.errors.push (p.errorHere kind message) := errors
  refine ⟨q, recovers, ⟨steps, finds_of_push pushed ?_, by simpa [recordedOutcome, Outcome.recorded] using collectors,
    position⟩, pushed⟩
  rintro rfl
  cases only

theorem recover_still {kind : ErrorKind} (only : isRecordedOnly kind) (message : Option String)
    (closers : List TokenKind) (sound : p.stream.Sound) :
    ∃ outcome q, recover kind message closers p = .ok outcome q ∧ Still p q ∧
      outcome.emptySuite = (kind == .emptySuite) ∧
      q.errors = p.errors.push (p.errorHere kind message) := by
  obtain ⟨q, recovers, still, errors⟩ := recover_recorded only message closers sound
  exact ⟨_, q, recovers, still, rfl, errors⟩

/-- An error for which nothing is repaired. -/
theorem recover_takes {kind : ErrorKind} (ready : Ready laid mode level p) (message : Option String)
    (closers : List TokenKind) (only : isRecordedOnly kind)
    (proper : p.Orderly laid → isBlockError kind = false) :
    Takes laid mode False level (recover kind message closers) p fun outcome qs q =>
      qs = [] ∧ Still p q ∧ outcome.emptySuite = (kind == .emptySuite) ∧
        q.errors = p.errors.push (p.errorHere kind message) := by
  obtain ⟨outcome, q, recovers, still, empty, errors⟩ :=
    recover_still only message closers ready.sound
  have moves : Moves laid mode False [] p q := .still still
  exact ⟨outcome, q, [], recovers, moves, ready.still still fun orderly before =>
    before.push (proper (moves.toGrows.orderly orderly)) errors, rfl, still, empty, errors⟩

theorem complain_takes {kind : ErrorKind} (ready : Ready laid mode level p) (message : String)
    (only : isRecordedOnly kind)
    (proper : p.Orderly laid → isBlockError kind = false) :
    Takes laid mode False level (complain kind message) p fun _ qs q =>
      qs = [] ∧ Still p q ∧ q.errors = p.errors.push (p.errorHere kind (some message)) := by
  obtain ⟨outcome, q, qs, recovers, moves, ready, nothing, still, -, errors⟩ :=
    recover_takes ready (some message) [] only proper
  exact ⟨_, q, qs, TokenStream.discard_ok recovers, moves, ready, nothing, still, errors⟩

/-! ### Searches and insertions as repairs -/

/-- Takes a search as the repair of an error that has been recorded. -/
theorem search_ok {kind : ErrorKind} {message : Option String} {steps : StreamM (Option (List Cell))}
    {found : Option (List Cell)} {stream : TokenStream}
    (searches : TokenStream.search steps p.stream = .ok found stream) :
    Engine.onStream (TokenStream.search steps) (p.blame kind message) =
      .ok found { p.blame kind message with stream } := by
  simp only [Engine.onStream, blame]
  rw [show p.engine.stream = p.stream from rfl, searches]

/-- What comes of an error for which tokens are searched for. -/
def searchedOutcome (p : Parser) (kind : ErrorKind) (message : Option String) (escalate : Bool) :
    Option (List Cell) → Outcome
  | some skipped => { Outcome.recorded (p.errorHere kind message) with skipped, resumed := true }
  | none => { Outcome.recorded (p.errorHere kind message) with escalate }

theorem skipped_searchedOutcome (kind : ErrorKind) (message : Option String) (escalate : Bool)
    (found : Option (List Cell)) : (p.searchedOutcome kind message escalate found).skipped = found.getD [] := by
  cases found <;> rfl

theorem resumed_searchedOutcome (kind : ErrorKind) (message : Option String) (escalate : Bool)
    (found : Option (List Cell)) : (p.searchedOutcome kind message escalate found).resumed = found.isSome := by
  cases found <;> rfl

theorem synthetic_searchedOutcome (kind : ErrorKind) (message : Option String) (escalate : Bool)
    (found : Option (List Cell)) : (p.searchedOutcome kind message escalate found).synthetic = none := by
  cases found <;> rfl

theorem repair_dedent {found : Option (List Cell)} {stream : TokenStream} (message : Option String)
    (closers : List TokenKind)
    (searches : TokenStream.search (TokenStream.searchDedent 0 [] p.engine.options.dedentBudget) p.stream =
      .ok found stream) :
    Engine.repair (p.errorHere .dedentExpected message) closers (p.blame .dedentExpected message) =
      .ok (p.searchedOutcome .dedentExpected message true found) { p.blame .dedentExpected message with stream } := by
  have budget : (get : EngineM Engine) (p.blame .dedentExpected message) = .ok _ _ := rfl
  cases found <;> exact (TokenStream.bind_ok budget _).trans (TokenStream.bind_ok (search_ok searches) _)

/-- The brackets that a search for a closing bracket may end at. -/
def wantedClosers (closers : List TokenKind) : List TokenKind := if closers.isEmpty then [.rightParen] else closers

theorem repair_closer {found : Option (List Cell)} {stream : TokenStream} (message : Option String)
    (closers : List TokenKind)
    (searches : TokenStream.search (TokenStream.searchCloser (wantedClosers closers) 0 [] (p.stream.total + 1))
      p.stream = .ok found stream) :
    Engine.repair (p.errorHere .unmatchedBracket message) closers (p.blame .unmatchedBracket message) =
      .ok (p.searchedOutcome .unmatchedBracket message false found)
        { p.blame .unmatchedBracket message with stream } := by
  have bound : (get : EngineM Engine) (p.blame .unmatchedBracket message) = .ok _ _ := rfl
  cases found <;> exact (TokenStream.bind_ok bound _).trans (TokenStream.bind_ok (search_ok searches) _)

theorem repair_name {cell : Cell} {stream : TokenStream} (message : Option String) (closers : List TokenKind)
    (inserts : TokenStream.insertMissingName p.stream = .ok cell stream) :
    Engine.repair (p.errorHere .nameExpected message) closers (p.blame .nameExpected message) =
      .ok { Outcome.recorded (p.errorHere .nameExpected message) with synthetic := some cell }
        { p.blame .nameExpected message with stream } := by
  have here : Engine.onStream TokenStream.insertMissingName (p.blame .nameExpected message) =
      .ok cell { p.blame .nameExpected message with stream } := by
    simp only [Engine.onStream, blame]
    rw [show p.engine.stream = p.stream from rfl, inserts]
  exact TokenStream.bind_ok here _

/-! ### Missing names -/

/-- A parse that has put a name in front of the token at the cursor, for an error that it found there. -/
def withMissingName (p : Parser) (cell : Cell) (message : Option String) : Parser :=
  { p with engine := { p.blame .nameExpected message with
      stream := { p.stream with
        behind := cell :: p.stream.behind, current := { p.stream.current with lead := "" }
        size := p.stream.size + 1 } } }

/-- The name that was put in is the one for the error. -/
theorem ErrorNames.withMissingName {names : List Nat} (errorNames : ErrorNames names p) {cell : Cell}
    (put : cell.synthetic)
    (message : Option String) : ErrorNames (names ++ [cell.index]) (p.withMissingName cell message) := by
  let now : Cell := { p.stream.current with lead := "" }
  have pushed : (p.withMissingName cell message).errors.toList = p.errors.toList ++
    [p.errorHere .nameExpected message] :=
    Array.toList_push
  have calmer : (p.withMissingName cell message).Calm → p.Calm := fun calm error member =>
    calm error (pushed ▸ List.mem_append_left _ member)
  have real : p.Calm → now.synthetic = false := fun calm =>
    errorNames.ahead calm p.stream.current.toToken List.mem_cons_self
  have met : (p.withMissingName cell message).met = p.stream.behind.reverse ++ [cell, now] := by
    show (cell :: p.stream.behind).reverse ++ [now] = _
    rw [List.reverse_cons, List.append_assoc, List.singleton_append]
  have more : missed (p.withMissingName cell message).errors.toList = missed p.errors.toList ++ [p.cell.index] := by
    rw [pushed, missed, List.filter_append, List.map_append]
    rfl
  refine ⟨?_, fun calm token member => ?_, fun calm other member own => ?_⟩
  · rw [met, more]
    refine List.rel_append (errorNames.stands.imp fun _ _ stands => ?_) (.cons ?_ .nil)
    · exact (stands.mono calmer).insert put rfl rfl
    · exact standsBeforeAt_insert put (real ∘ calmer)
  · rcases List.mem_cons.1 member with rfl | further
    · exact real (calmer calm)
    · exact errorNames.ahead (calmer calm) token (List.mem_cons_of_mem _ further)
  · rcases List.mem_cons.1 member with rfl | before
    · exact List.mem_append_right _ (List.mem_singleton_self _)
    · exact List.mem_append_left _ (errorNames.all (calmer calm) other before own)

theorem defines_name (d : Dialect) : d.defines .name := by
  cases d <;> decide

/-- A name was put in and handed to the innermost node. -/
structure Supplied (laid : Prop) (mode : Mode) (level : Depth) (p : Parser) (cell : Cell) (q : Parser) : Prop
    extends Grows p q where
  kind : cell.kind = .name
  place : cell.first = p.cell.first ∧ cell.last = p.cell.first ∧ q.cell.first = p.cell.first
  behind : q.stream.behind = cell :: p.stream.behind
  collectors : q.collectors = grow [cell] p.collectors
  position : q.position = p.position
  ready : Ready laid mode level q
  unclean : ¬ q.Clean
  errorNames : ∀ names, ErrorNames names p → ErrorNames (names ++ [cell.index]) q

theorem takeMissingName_ok (ready : Ready laid mode level p) (message : Option String) :
    ∃ cell q, takeMissingName message p = .ok cell q ∧ Supplied laid mode level p cell q := by
  obtain ⟨cell, t, inserts, kind, shape, sound, put, place, mends, -⟩ :=
    TokenStream.insertMissingName_eq ready.sound ready.rests (defines_name _)
  have repairs := repair_name message [] inserts
  obtain ⟨q, recovers, steps, errors, collectors, position⟩ := recover_ok repairs sound
  have pushed : q.errors = p.errors.push (p.errorHere .nameExpected message) := errors
  let r : Parser := { q with collectors := grow [cell] q.collectors }
  have takes : takeMissingName message p = .ok cell r := by
    rw [takeMissingName, TokenStream.bind_ok recovers]
    simp only [take]
    rw [TokenStream.bind_ok (collect_eq _ _)]
    rfl
  have met : t.current.kind = p.cell.kind := by rw [shape]; rfl
  have here : r.cell.kind = p.cell.kind := by
    rw [← met, ← steps.current_eq]
    rfl
  have upcoming : t.upcoming.map (·.kind) = p.stream.upcoming.map (·.kind) := by
    rw [shape]
    simp [TokenStream.upcoming]
  have kinds : r.kinds = p.kinds := by
    rw [show r.kinds = q.stream.kinds from rfl, show p.kinds = p.stream.kinds from rfl, ← show
      t.kinds = q.stream.kinds from steps.kinds, TokenStream.kinds, TokenStream.kinds, upcoming]
  have given : r.collectors = grow [cell] p.collectors := by
    simpa [Outcome.recorded, r] using congrArg (grow [cell]) collectors
  have grows : Grows p r := {
    dialect := steps.dialect.trans (by rw [shape]; rfl)
    mends := by
      rw [show r.stream = q.stream from rfl, steps.tokens]
      exact mends
    files := fun filed => by
      have trail : p.stream.trail.Sublist t.trail := by
        rw [shape, TokenStream.trail, TokenStream.trail, List.reverse_cons, List.append_assoc, List.map_append,
          List.map_append]
        exact List.Sublist.append_left (List.Sublist.cons _ (List.Sublist.refl _)) _
      have found : r.errors.toList = p.errors.toList ++ [p.errorHere .nameExpected message] := by
        rw [show r.errors = q.errors from rfl, pushed, Array.toList_push]
      exact filed.onward (trail.trans steps.trail) found (List.forall_mem_singleton.2 rfl)
    errors := by
      rw [show r.errors = q.errors from rfl, pushed, Array.toList_push]
      exact List.prefix_append ..
    quiet := fun same => by
      have sizes := congrArg Array.size (pushed.symm.trans same)
      simp at sizes }
  have start : r.cell.first = p.cell.first := by
    rw [show r.cell.first = q.stream.current.first from rfl, steps.current_eq, shape]
    rfl
  refine ⟨cell, r, takes, ⟨grows, kind, ⟨place.1, place.2, start⟩, ?_, given, ?_, ?_, not_clean_of_push pushed,
    fun names errorNames => ?_⟩⟩
  · rw [show r.stream.behind = q.stream.behind from rfl, steps.behind, shape]
    rfl
  · simpa [Outcome.recorded] using position
  rotate_left
  · have here : ErrorNames (names ++ [cell.index]) (p.withMissingName cell message) :=
      errorNames.withMissingName put message
    rw [shape] at steps
    exact here.steps steps (finds_of_eq pushed)
  refine ⟨steps.sound, ?_, ?_, fun orderly => ?_, fun clean => absurd clean (not_clean_of_push pushed)⟩
  · have rests : p.cell.kind ≠ .comment := ready.rests
    rw [TokenStream.Rests, show r.stream.current = r.cell from rfl, here]
    exact rests
  · rw [given]
    exact grow_ne_nil ready.inside
  · obtain ⟨layout, stands, proper⟩ := ready.laid (grows.orderly orderly)
    rw [kinds, here]
    exact ⟨layout, stands, proper.push rfl pushed⟩

/-- The node for a missing name. It owns the name that was put in, which belongs nowhere else. -/
theorem missingName_parses (ready : Ready laid mode level p) (message : Option String) :
    Parses laid mode False level (build .name do
      discard <| takeMissingName message
      return (.name missingName, [])) p fun node qs q =>
        ∃ cell, qs = [.node node [cell]] ∧ node.kind = .name ∧ ¬ q.Clean := by
  obtain ⟨cell, r, takes, supplied⟩ := takeMissingName_ok ready.opened message
  obtain ⟨closes, outer⟩ := close_ok supplied.collectors
  let node := Node.make .name (.name missingName) p.cell [cell] (.ofList [])
  have builds : build .name (do
      discard <| takeMissingName message
      return (.name missingName, [])) p = .ok node r.closed := by
    rw [build_ok (TokenStream.bind_ok (TokenStream.discard_ok takes) _)]
    exact TokenStream.bind_ok closes _
  have inline : cell.kind.isInline := by rw [supplied.kind]; rfl
  have spans : Spans (Spaced p.stream.tokens) (r.Orderly laid) node (cellsOf [.token cell]) := by
    refine .mk ⟨⟨rfl, rfl⟩, .refl _, childs_of_eq rfl rfl, nofun, fun _ => ?_, .firm rfl, nofun,
      fun _ => settled_of_pairwise .nil, contained_of_none rfl _ _, nofun,
      .free rfl⟩ (by simp)
    exact Mode.block.allows_inline inline
  rw [parses_iff, completes_iff, ends_ok builds]
  refine ⟨[.node node [cell]], ?_, supplied.ready.ofEngine rfl (outer ▸ ready.inside), cell, rfl, rfl, supplied.unclean⟩
  exact {
    dialect := supplied.dialect
    mends := supplied.mends
    errors := supplied.errors
    quiet := supplied.quiet
    files := fun filed => (supplied.files (filed.ofEngine rfl)).ofEngine rfl
    behind := ⟨[cell], supplied.behind, TokenStream.significant_cons_of_ne (by rw [supplied.kind]; decide) []⟩
    collectors := by simpa using outer
    position := Nat.le_of_eq supplied.position.symm
    leads := False.elim
    spans := fun inner run member => by
      obtain ⟨rfl, rfl⟩ := Piece.node.inj (List.mem_singleton.1 member)
      exact spans
    lies := fun _ => by
      obtain ⟨first, last, same⟩ := supplied.place
      have stretches : cell.Stretches :=
        ⟨(first.trans last.symm).le, fun _ other => absurd supplied.kind other⟩
      have lies : Lies p.cell.first [.token cell] r.cell.first :=
        ⟨first.ge, ⟨stretches.le, nofun, List.forall_mem_singleton.2 stretches⟩, (last.trans same.symm).le⟩
      have made : (Children.ofList []).nodes ⊆ nodesOf [.token cell] := List.Subset.refl _
      obtain ⟨begins, ends, placed⟩ :=
        lies.make ⟨le_refl p.cell.first, lies.le⟩ (List.Subset.refl _) made (settled_of_pairwise .nil)
      exact lies_node begins ends placed lies.stretches
    newNames := fun _ names errorNames =>
      ⟨[cell.index], supplied.errorNames names (errorNames.ofEngine rfl) |>.ofEngine rfl,
      by simp, fun inner made => List.mem_singleton.1 made ▸ .mk (fun _ _ _ => ⟨rfl, rfl⟩) nofun, by simp⟩
    allows := fun _ => (mode.allows_inline inline).whole rfl
    whole := fun clean => absurd clean supplied.unclean
    literate := fun inner made => List.mem_singleton.1 made ▸ .mk nofun nofun }

/-! ### Closing brackets -/

/-- Tokens that were gone over, the last of which is not a star, and literals among them only where an error was found.
-/
def Skipped (qs : List Piece) (q : Parser) : Prop :=
  ∃ cells, qs = tokenPieces cells ∧ EndsPlain qs ∧ Stray q.errors.toList cells

theorem skipped_nil (q : Parser) : Skipped [] q := ⟨[], rfl, endsPlain_nil, stray_nil⟩

theorem skipped_snoc {cells : List Cell} {cell : Cell} (stray : Stray q.errors.toList cells)
    (plain : cell.kind.isStar = false) (other : cell.kind ≠ .string) :
    Skipped (tokenPieces cells ++ [.token cell]) q := by
  refine ⟨cells ++ [cell], by simp [tokenPieces], ?_, ?_⟩
  · simpa [EndsPlain] using plain
  · exact stray.append (stray_of_plain (List.forall_mem_singleton.2 other))

/-- Going over tokens within a line for a repair, as far as to one of a given kind. -/
theorem skip_moves {moved : List Cell} (ready : Ready laid .line level p)
    (steps : Steps p.stream moved q.stream) (rests : q.stream.Rests)
    (line : ∀ cell ∈ significant moved, cell.kind ≠ .newline)
    (finds : Finds p q) (collectors : q.collectors = grow (significant moved) p.collectors)
    (position : p.position ≤ q.position) (proper : q.Orderly laid → p.Proper → q.Proper)
    (unclean : ¬ q.Clean) :
    Moves laid .line False (tokenPieces (significant moved)) p q ∧ Ready laid .line level q := by
  have moves : Moves laid .free False (tokenPieces (significant moved)) p q :=
    Moves.ofSteps laid steps finds collectors position
  have kinds : p.kinds = (significant moved).map (·.kind) ++ q.kinds := by
    rw [show p.kinds = p.stream.kinds from rfl, steps.kinds]
    simp [significant, List.filter_map, Function.comp_def, Parser.kinds]
  obtain ⟨rest, same⟩ := TokenStream.kinds_eq_cons rests
  have head : q.kinds = q.cell.kind :: rest := same
  have ordered : q.Orderly laid → (∀ kind ∈ (significant moved).map (·.kind), kind.isInline) ∧
      Laid level.blocks q.kinds ∧ Mode.line.Stands q.cell.kind := by
    intro orderly
    obtain ⟨layout, stands, -⟩ := ready.laid (moves.toGrows.orderly orderly)
    obtain ⟨others, first⟩ := TokenStream.kinds_eq_cons ready.rests
    have first : p.kinds = p.cell.kind :: others := first
    rw [kinds, head] at layout first
    rw [head]
    refine layout.run (fun kind here => ?_) fun kind member => ?_
    · have heads := congrArg List.head? first
      simp only [List.head?_append, List.head?_cons] at heads here
      rw [heads] at here
      obtain rfl := Option.some.inj here
      exact stands
    · obtain ⟨cell, listed, rfl⟩ := List.mem_map.1 member
      exact line cell listed
  refine ⟨moves.shaped fun orderly => ?_, ⟨steps.sound, rests, ?_, fun orderly => ?_, fun clean =>
    absurd clean unclean⟩⟩
  · simpa [Mode.Allows] using (ordered orderly).1
  · rw [collectors]
    exact grow_ne_nil ready.inside
  · exact ⟨(ordered orderly).2.1, (ordered orderly).2.2,
      proper orderly (ready.laid (moves.toGrows.orderly orderly)).2.2⟩

/-- A repair that goes over tokens hands them to the innermost node. -/
theorem recover_moved {kind : ErrorKind} {message : Option String} {closers : List TokenKind}
    {outcome : Outcome} {stream : TokenStream} {passed : List Cell}
    (repairs : Engine.repair (p.errorHere kind message) closers (p.blame kind message) =
      .ok outcome { p.blame kind message with stream }) (steps : Steps p.stream passed stream)
    (rests : stream.Rests) (skipped : outcome.skipped = significant passed)
    (other : kind ≠ .nameExpected) :
    ∃ q, recover kind message closers p = .ok outcome q ∧ Steps p.stream passed q.stream ∧
      q.stream.Rests ∧ q.cell = stream.current ∧
      q.errors = p.errors.push (p.errorHere kind message) ∧ Finds p q ∧
      q.collectors = grow (significant passed) p.collectors ∧ p.position ≤ q.position := by
  obtain ⟨q, recovers, more, errors, collectors, position⟩ := recover_ok repairs steps.sound
  have pushed : q.errors = p.errors.push (p.errorHere kind message) := errors
  refine ⟨q, recovers, by simpa using steps.trans more, ?_, more.current_eq, pushed, finds_of_push pushed other,
    skipped ▸ collectors, position ▸ Nat.le_add_right ..⟩
  rw [TokenStream.Rests, more.current_eq]
  exact rests

/-- The search for a closing bracket is within the line, and so is what it goes over. -/
theorem recover_closer (kind : TokenKind) (ready : Ready laid .line level p) (message : Option String) :
    ∃ outcome q cells, recover .unmatchedBracket message [kind] p = .ok outcome q ∧
      Moves laid .line False (tokenPieces cells) p q ∧ Ready laid .line level q ∧ ¬ q.Clean ∧
      Stray q.errors.toList cells ∧ (outcome.resumed = false → cells = []) ∧
      (outcome.resumed → q.cell.kind = kind) := by
  have room : p.stream.kinds.length ≤ p.stream.total + 1 :=
    Nat.le_succ_of_le ready.sound.kinds_length_le
  obtain ⟨moved, t, found, walks, steps, rested, parts⟩ :=
    TokenStream.searchCloser_eq [kind] _ 0 [] ready.sound ready.rests room
  obtain ⟨u, passed, searches, steps, rests, skipped, there⟩ := TokenStream.search_eq walks steps
    ready.rests rested fun cells some => by simpa using (parts cells some).1
  have repairs := repair_closer message [kind] searches
  have resumed : (p.searchedOutcome _ _ _ found).resumed = _ :=
    resumed_searchedOutcome .unmatchedBracket message false found
  obtain ⟨q, recovers, steps, rests, here, pushed, finds, collectors, position⟩ :=
    recover_moved repairs steps rests ((skipped_searchedOutcome ..).trans skipped.symm) nofun
  have line : ∀ cell ∈ significant passed, cell.kind ≠ .newline := by
    cases found with
    | none => simp [skipped]
    | some cells =>
      obtain ⟨whole, -, line⟩ := parts cells rfl
      rw [skipped, Option.getD_some, whole, List.reverse_nil, List.nil_append]
      exact fun cell member => (line cell member).1
  obtain ⟨moves, onward⟩ := skip_moves ready steps rests line finds collectors position
    (fun _ proper => proper.push rfl pushed) (not_clean_of_push pushed)
  refine ⟨_, q, _, recovers, moves, onward, not_clean_of_push pushed, fun ⟨cell, member, _⟩ => ?_,
    fun stopped => ?_, fun goesOn => ?_⟩
  · -- the token where the error was found is the first to be gone over
    refine ⟨p.errorHere .unmatchedBracket message, by simp [pushed], rfl, ?_⟩
    cases passed with
    | nil => cases member
    | cons first rest =>
      obtain rfl : first = p.cell := steps.head_passed
      exact List.mem_filter.2 ⟨List.mem_cons_self, bne_iff_ne.2 ready.rests⟩
  · rw [resumed, Option.isSome_eq_false_iff, Option.isNone_iff_eq_none] at stopped
    rw [skipped, stopped]
    rfl
  · obtain ⟨cells, rfl⟩ := Option.isSome_iff_exists.1 (resumed ▸ goesOn)
    rw [here, there rfl]
    simpa using (parts cells rfl).2.1

theorem expectCloser_passes {kind : TokenKind} {level' : Depth} (ready : Ready laid .line level p)
    (message : Option String) (passes : level.Passes kind level') (plain : kind.isStar = false)
    (other : kind ≠ .string) :
    Parses laid .line False level' (expectCloser kind message) p fun _ qs q => Skipped qs q := by
  rw [parses_iff, expectCloser, completes_at]
  split
  next here =>
    have here : p.cell.kind = kind := by simpa using here
    refine (bump_passes ready (here ▸ passes)).weaken False.elim |>.bind
      fun cell qs q moves ready bumped => ?_
    refine moves.done ready ?_
    rw [bumped.pieces]
    exact skipped_snoc stray_nil (here ▸ plain) (here ▸ other)
  next =>
    obtain ⟨outcome, q, cells, recovers, moves, ready, unclean, stray, nothing, arrived⟩ :=
      recover_closer kind ready message
    rw [completes_iff, ends_bind_ok recovers]
    split
    next resumed =>
      have here := arrived resumed
      refine moves.bind (bump_passes ready (here ▸ passes)) fun cell qs r moves ready bumped => ?_
      refine moves.done ready ?_
      rw [bumped.pieces]
      exact skipped_snoc (bumped.errors ▸ stray) (here ▸ plain) (here ▸ other)
    next stopped =>
      rw [nothing (by simpa using stopped)] at moves
      exact moves.done (ready.unclean unclean passes.blocks) (skipped_nil q)

/-- The bracket that was opened last is closed. -/
theorem expectCloser_parses {kind : TokenKind} (ready : Ready laid .line (level.within kind) p)
    (message : Option String) (closes : kind.isClosing) :
    Parses laid .line False level (expectCloser kind message) p fun _ qs q => Skipped qs q :=
  expectCloser_passes ready message (level.passes_closing closes) (TokenKind.isStar_of_isClosing closes) fun same => by
    rw [same] at closes
    cases closes

/-- Where blocks are not in order, the end of one may have to be searched for. -/
theorem recover_dedent (ready : Ready laid mode level p) (message : Option String)
    (unordered : ¬ p.Orderly laid) :
    ∃ outcome q cells, recover .dedentExpected message [] p = .ok outcome q ∧
      Moves laid .free False (tokenPieces cells) p q ∧ Ready laid .free level q ∧ ¬ q.Clean ∧
      (outcome.resumed → q.cell.kind = .dedent) := by
  obtain ⟨moved, t, found, walks, steps, rested, parts⟩ :=
    TokenStream.searchDedent_eq p.engine.options.dedentBudget 0 [] ready.sound ready.rests
  obtain ⟨u, passed, searches, steps, rests, skipped, there⟩ := TokenStream.search_eq walks steps
    ready.rests rested fun cells some => by simpa using (parts cells some).1
  have repairs := repair_dedent message [] searches
  have resumed : (p.searchedOutcome _ _ _ found).resumed = _ :=
    resumed_searchedOutcome .dedentExpected message true found
  obtain ⟨q, recovers, steps, rests, here, pushed, finds, collectors, position⟩ :=
    recover_moved repairs steps rests ((skipped_searchedOutcome ..).trans skipped.symm) nofun
  have moves : Moves laid .free False (tokenPieces (significant passed)) p q :=
    Moves.ofSteps laid steps finds collectors position
  refine ⟨_, q, _, recovers, moves, ⟨steps.sound, rests, ?_, fun orderly =>
    absurd (moves.toGrows.orderly orderly) unordered, fun clean =>
    absurd clean (not_clean_of_push pushed)⟩, not_clean_of_push pushed, fun goesOn => ?_⟩
  · rw [collectors]
    exact grow_ne_nil ready.inside
  · obtain ⟨cells, rfl⟩ := Option.isSome_iff_exists.1 (resumed ▸ goesOn)
    rw [here, there rfl]
    exact (parts cells rfl).2

end Parser

end TolerantParser
