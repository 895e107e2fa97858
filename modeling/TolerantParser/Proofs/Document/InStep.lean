import TolerantParser.Proofs.Document.Run
import TolerantParser.Proofs.Statement.InStepGuarded

/-!
Documents with the same tokens. Two runs over whole documents are in step from the first statement to the end of the
file, so that what they come to is alike. In the sketch of a document comments do not show, nor does anything else that
a parse does not see: texts that differ in comments, blanks and line ends only have one and the same sketch.
-/

namespace TolerantParser

open TokenStream (Steps significant)

/-! ### Two runs over statements -/

namespace Parser

/-- One round over the statements of a document. -/
def documentRound (listed : ParseM (List Node)) (body : Array Node) : ParseM (ForInStep (Array Node)) := do
  let body := body ++ (← listed).toArray
  if ← at? .endOfFile then return .done body
  let found ← describeCurrent
  complain .endOfFileExpected s!"Unexpected {found} at module level"
  discard bump
  return .yield body

theorem documentBody_eq (inner : Inner) : documentBody inner =
    loop #[] (documentRound (statementList inner (· == .endOfFile))) >>= fun body => pure body.toList := rfl

end Parser

namespace Parallel

variable {c : Frame} {W : Pairing}

/-- A round keeps two runs in step, where these are over all that is left of their documents. -/
theorem documentRound (through : ¬ c.lined) {listed listed' : ParseM (List Node)}
    (works : ∀ {W}, Parallel c c.Along (fun _ => c.Near fun _ => True) W listed listed') {body body' : Array Node}
    (alike : Alike W body body') : Parallel c c.Along (round (fun _ => c.Along) fun _ => c.Near (· = .endOfFile)) W
      (Parser.documentRound listed body) (Parser.documentRound listed' body') := by
  refine works.bind fun nodes nodes' first same => ?_
  have bodies := Likeness.Alike.appendList (alike.mono first) same
  refine (atNear _).same fun ended second => ?_
  split
  next here =>
    exact .pure (bodies.mono second) fun _ _ near => ⟨near.1, near.2.1, eq_of_beq (near.2.2.2.trans here)⟩
  next other =>
    have within : ∀ kind, (True ∧ (kind == TokenKind.endOfFile) = ended) → Within c kind := fun kind holds =>
      ⟨fun lined => absurd lined through, by rintro rfl; exact other holds.2.symm⟩
    refine .before (describeCurrent.same fun found third => (complain _ rfl).bind fun _ _ fourth _ =>
      (bump within).discard fun _ fifth => ?_) fun _ _ near => ⟨near.1.inStep through, near.2.2⟩
    exact .pure (bodies.mono (second.trans (third.trans (fourth.trans fifth)))) fun _ _ holds => holds.1.toAlong

theorem documentBody (limits : Limits) (through : ¬ c.lined) (guided : c.Guided) : Parallel c c.Along
    (fun _ => c.Near (· = .endOfFile)) W (Parser.documentBody (Parser.full limits))
    (Parser.documentBody (Parser.full limits)) := by
  rw [Parser.documentBody_eq]
  have works : ∀ {W}, Parallel c c.Along (fun _ => c.Near fun _ => True) W
      (Parser.statementList (Parser.full limits) (· == .endOfFile))
      (Parser.statementList (Parser.full limits) (· == .endOfFile)) :=
    (statementList guided (Parser.full_inStep limits guided) _).parallel through
  exact (loop (fun _ => c.Along) (fun _ => c.Near (· = .endOfFile)) .empty fun _ _ _ alike =>
    documentRound through works alike).bind fun _ _ _ bodies => .pure bodies fun _ _ near => near

end Parallel

/-! ### Where two runs begin -/

namespace Frame

variable {c : Frame}

/-- A frame without anything in front of the common part. -/
structure Fresh (c : Frame) : Prop where
  front : c.front = ([], [])
  numbers : c.numbers = []
  held : c.held = []
  errors : c.errors = []
  gone : c.gone = 0
  floor : c.floor = 1

/-- When only the outermost node is under construction, both parses have collected the same but for what was held. -/
theorem Holds.single {W : Pairing} {cells others : Array Cell} (holds : c.Holds W [cells] [others]) :
    ∃ more, others.toList = c.held ++ more ∧ Alike W cells.toList more := by
  cases holds with
  | outermost split alike => exact ⟨_, split, alike⟩
  | inner _ around => exact absurd rfl around.ne_nil.1

/-- Lines that are not to be told from what stands around them end with the file. -/
theorem linked_of_ended {kinds : List TokenKind} (through : ¬ c.lined) (ended : kinds.getLast? = some .endOfFile) :
    Linked c.Firm kinds := by
  induction kinds with
  | nil => exact trivial
  | cons kind rest ih =>
    cases rest with
    | nil =>
      obtain rfl := Option.some.inj ended
      exact ⟨nofun, trivial⟩
    | cons next rest => exact ⟨fun _ => ⟨next, rfl, fun lined => absurd lined through⟩, ih ended⟩

theorem kinds_views (s : TokenStream) :
    s.views.map TokenView.kind = (s.tokens.map (·.kind)).filter (· != .comment) := by
  rw [TokenStream.views, List.map_map, List.filter_map]
  rfl

theorem linked_views {s : TokenStream} (sound : s.Sound) (through : ¬ c.lined) :
    Linked c.Firm (s.views.map TokenView.kind) := by
  obtain ⟨before, split, -⟩ := sound.ended
  refine linked_of_ended through ?_
  rw [kinds_views, split, List.filter_append]
  exact List.getLast?_concat

end Frame

namespace Document.Run

variable {limits : Limits} {c : Frame} {d : Dialect} {options options' : ParseOptions} {tokens tokens' : List Token}
  {run : Run limits d options tokens} {run' : Run limits d options' tokens'}

variable (run) (run') in
/-- Runs over documents that begin alike begin in step. -/
theorem along (fresh : c.Fresh) (budget : c.thrifty ∨ options.dedentBudget = options'.dedentBudget)
    {shared other : List TokenView} (left : run.stream.views = shared ++ c.back.1)
    (right : run'.stream.views = other ++ c.back.2) (sees : List.Forall₂ c.Sees shared other)
    (linked : Linked c.Firm (shared.map TokenView.kind))
    (single : c.lined → ¬ c.clean → Single (shared.map TokenView.kind)) :
    c.Along (Parser.ofStream run.stream options).opened (Parser.ofStream run'.stream options').opened := by
  have rank : run.stream.rank = 0 := congrArg List.length run.behind
  have rank' : run'.stream.rank = 0 := congrArg List.length run'.behind
  have atRank : c.SameRank run.stream run'.stream := by
    refine ⟨⟨run.sound, run'.sound⟩, ⟨run.rests, run'.rests⟩, run.dialect.trans run'.dialect.symm, shared, other, 0, ?_⟩
    refine ⟨?_, ?_, sees, linked, single, ?_, ?_, Nat.zero_le _, ?_⟩
    · rw [left, fresh.front, List.nil_append]
    · rw [right, fresh.front, List.nil_append]
    · rw [rank, fresh.front]
      rfl
    · rw [rank', fresh.front]
      rfl
    · rw [fresh.front, fresh.numbers]
      rfl
  have nothing : (#[] : Array Cell).toList = c.held ++ [] := by
    rw [fresh.held]
    rfl
  refine ⟨atRank, budget, ⟨[], ?_, .nil⟩, .outermost nothing .nil, Nat.le_of_eq fresh.floor, ?_⟩
  · rw [fresh.errors]
    rfl
  · rw [fresh.gone]
    rfl

/-! ### Where they end -/

/-- Runs that are in step through whole documents come to bodies and errors that are alike. -/
theorem arrive (begun : c.Along (Parser.ofStream run.stream options).opened
    (Parser.ofStream run'.stream options').opened) (through : ¬ c.lined) (fair : c.Fair run.left) :
    c.Along run.left run'.left ∧ Alike (c.paired run.left run'.left) run.body run'.body := by
  have guided : c.Guided :=
    ⟨fun lined => absurd lined through, fun lined => absurd lined through, fun lined => absurd lined through⟩
  have both := (Parallel.documentBody limits through guided).runs _ _ begun (le_refl _)
  rw [run.takes, run'.takes] at both
  cases both with
  | ok near _ alike => exact ⟨near.1, alike⟩
  | spoilt unfair => exact absurd fair unfair

/-- The streams stay in step when everything has been read. -/
theorem arrive_last (along : c.Along run.left run'.left) :
    c.SameRank run.last run'.last ∧ c.paired run.left run'.left ≤ c.pairs run.last run'.last :=
  along.stream.read run.steps run'.steps

/-- Runs that are in step through whole documents, where the second holds nothing over the first, come to trees that
are alike. -/
theorem arrive_trees
    (begun : c.Along (Parser.ofStream run.stream options).opened (Parser.ofStream run'.stream options').opened)
    (through : ¬ c.lined) (fair : c.Fair run.left) (nothing : c.held = []) :
    run.tree.Alike (c.pairs run.last run'.last) run'.tree := by
  obtain ⟨along, bodies⟩ := arrive begun through fair
  have grows := (arrive_last along).2
  have starts := begun.inStep through
  have here := starts.stream.current starts.room
  have anchors : c.places run.stream.current.first run'.stream.current.first :=
    c.places_of_firm here.first starts.firm
  have holds := along.holds
  rw [run.held, run'.held] at holds
  obtain ⟨more, split, own⟩ := holds.single
  rw [nothing, List.nil_append] at split
  subst split
  have ends := (along.stream.current (along.inStep through).room).mono grows
  exact .make .document (c.pairing_monotone _) anchors ((own.mono grows).append (.cons ends .nil))
    ⟨rfl, alike_several .body (bodies.mono grows)⟩

/-- Tokens that answer to each other are seen as the same, and equally far from the fronts. -/
theorem final_sees (atRank : c.SameRank run.last run'.last) {cell other : Cell}
    (paired : (c.pairs run.last run'.last).tokens cell.index other.index) :
    ∃ rank, run.document.rank (run.final cell) = c.front.1.length + rank ∧
      run'.document.rank (run'.final other) = c.front.2.length + rank ∧
      (run.final cell).kind ≠ .comment ∧ (run'.final other).kind ≠ .comment ∧
      run.final cell ∈ run.document.tokens ∧ run'.final other ∈ run'.document.tokens ∧
      c.Sees (run.final cell).view (run'.final other).view := by
  obtain ⟨rank, within, here, there⟩ := paired
  obtain ⟨shared, others, past, shares⟩ := atRank.shares
  obtain ⟨met, ranks, looks, listed⟩ := run.final_ranked here
  obtain ⟨met', ranks', looks', listed'⟩ := run'.final_ranked there
  have lengths := congrArg List.length shares.left
  simp only [List.length_append] at lengths
  obtain ⟨a, b, left, right, sees⟩ := shares.sees_at (show rank < shared.length by omega)
  rw [looks] at left
  rw [looks'] at right
  rw [← Option.some.inj left, ← Option.some.inj right] at sees
  exact ⟨rank, ranks, ranks', met, met', listed, listed', sees⟩

end Document.Run

end TolerantParser
