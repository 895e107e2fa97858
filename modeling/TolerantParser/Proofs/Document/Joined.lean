import TolerantParser.Proofs.Document.Leading
import TolerantParser.Proofs.Document.Spacing
import TolerantParser.Proofs.Lexer.Joined

/-!
Documents one behind the other. If two texts are put together and the first is without errors, or a line that begins
no compound statement, then the document of both has the statements of the first and behind them those of the second,
further down, and so it is with the errors. Where the first document ends, the parse of both goes on like one that
begins with the second text: all that it has over that parse is behind it.
-/

namespace TolerantParser

open TokenStream (Steps significant)

/-! ### What shows of a document -/

/-- What shows of a token. Where a block ends does not: that is in front of whatever comes next. -/
structure ShownToken where
  gist : Gist
  text : String
  place : Option (Position × Position)
  deriving DecidableEq, Repr

def TokenView.shown (view : TokenView) : ShownToken :=
  ⟨view.gist, view.text, if view.kind = .dedent then none else some (view.first, view.last)⟩

theorem TokenView.EndsBlock.shown {a b : TokenView} (ends : a.EndsBlock) (ends' : b.EndsBlock) :
    a.shown = b.shown := by
  have kinds : a.kind = .dedent ∧ b.kind = .dedent := ⟨congrArg Gist.kind ends.gist, congrArg Gist.kind ends'.gist⟩
  rw [TokenView.shown, TokenView.shown, if_pos kinds.1, if_pos kinds.2, ends.gist, ends'.gist,
    ends.text, ends'.text]

theorem TokenView.down_zero (view : TokenView) : view.down 0 = view := rfl

namespace Document

/-- A token of a document as it shows with so many lines in front; comments do not. -/
def shown (lines : Nat) (cell : Cell) : Option ShownToken :=
  if cell.isComment then none else some (cell.view.down lines).shown

/-- The statements of a document as they show with so many lines in front. -/
def body (document : Document) (lines : Nat) : List (Sketch ShownToken Position) :=
  document.statements.map (·.sketch (shown lines) (Position.down lines))

/-- The errors of a document with the tokens where they were found, with so many lines in front. -/
def reports (document : Document) (lines : Nat) : List (ErrorKind × String × TokenView) :=
  document.errors.map fun error => (error.kind, error.message, error.cell.view.down lines)

theorem shown_eq {lines : Nat} {cell : Cell} (met : cell.kind ≠ .comment) :
    shown lines cell = some (cell.view.down lines).shown := if_neg (by simpa [Cell.isComment] using met)

namespace Run

variable {limits : Limits} {d : Dialect} {options : ParseOptions} {tokens : List Token}
  (run : Run limits d options tokens)

theorem body_document (lines : Nat) : run.document.body lines =
    run.body.map (·.sketch (shown lines ∘ run.final) (Position.down lines)) := by
  have unseen : Unseen (shown lines) := fun _ comment => if_pos comment
  have tree : run.document.tree.sketch (shown lines) (Position.down lines) =
      run.tree.sketch (shown lines ∘ run.final) (Position.down lines) := by
    show ((run.tree.mapTokens run.final).attachComments run.document.tokens).sketch _ _ = _
    rw [Node.sketch_attachComments unseen, Node.sketch_mapTokens]
  have parts := congrArg Sketch.parts tree
  rw [Node.parts_sketch, Node.parts_sketch, show run.tree.children = .ofList (several .body run.body) from rfl,
    Parser.nodes_ofList, Parser.madeOf_several] at parts
  exact parts

theorem reports_document (lines : Nat) : run.document.reports lines = run.left.errors.toList.map fun error =>
    (error.kind, error.message, (run.final error.cell).view.down lines) := by
  rw [Document.reports]
  show (run.left.errors.toList.map fun error => { error with cell := run.final error.cell }).map _ = _
  rw [List.map_map]
  rfl

end Run

end Document

/-! ### The second document -/

namespace TokenStream

variable {s t : TokenStream} {moved : List Cell}

/-- What is behind the cursor has its rank for good. -/
theorem ranked_behind {number rank : Nat} (inside : rank < s.rank) :
    s.Ranked number rank ↔ ((significant s.behind).reverse.map Cell.index)[rank]? = some number := by
  have split : significant s.document = (significant s.behind).reverse ++ significant (s.current :: s.ahead) := by
    simp [document, significant]
  have within : rank < ((significant s.behind).reverse.map Cell.index).length := by
    simpa [TokenStream.rank] using inside
  rw [Ranked, split, List.map_append, List.getElem?_append_left within]

theorem views_behind {rank : Nat} (inside : rank < s.rank) :
    s.views[rank]? = ((significant s.behind).reverse.map fun cell => cell.view)[rank]? := by
  have within : rank < ((significant s.behind).reverse.map fun cell => cell.view).length := by
    simpa [TokenStream.rank] using inside
  rw [views_eq, ← List.map_reverse, List.getElem?_append_left within]

theorem reverse_behind (behind : t.behind = moved.reverse ++ s.behind) :
    (significant t.behind).reverse = (significant s.behind).reverse ++ significant moved := by
  simp [behind, significant]

/-- Going on leaves the tokens behind the cursor as they are. -/
theorem onward (behind : t.behind = moved.reverse ++ s.behind) {rank : Nat} (inside : rank < s.rank) :
    t.views[rank]? = s.views[rank]? ∧ ∀ number, s.Ranked number rank → t.Ranked number rank := by
  have rest := reverse_behind behind
  have later : rank < t.rank := by
    have lengths := congrArg List.length rest
    simp only [List.length_append, List.length_reverse] at lengths
    rw [TokenStream.rank] at inside ⊢
    omega
  have within : rank < (significant s.behind).reverse.length := by simpa [TokenStream.rank] using inside
  refine ⟨?_, fun number ranked => ?_⟩
  · rw [views_behind later, views_behind inside, rest, List.map_append,
      List.getElem?_append_left (by simpa using within)]
  · rw [ranked_behind later, rest, List.map_append, List.getElem?_append_left (by simpa using within)]
    exact (ranked_behind inside).1 ranked

end TokenStream

namespace Frame

theorem down_lt (lines : Nat) (p q : Position) : (p.down lines).lt (q.down lines) = p.lt q := by
  have line : (p.line + lines == q.line + lines) = (p.line == q.line) := by
    rw [Bool.eq_iff_iff]
    simp
  simp only [Position.lt, Position.down, line, Nat.add_lt_add_iff_right]
  rfl

theorem down_min (lines : Nat) (p q : Position) : (p.min q).down lines = (p.down lines).min (q.down lines) := by
  rw [Position.min, Position.min, down_lt]
  split <;> rfl

theorem down_max (lines : Nat) (p q : Position) : (p.max q).down lines = (p.down lines).max (q.down lines) := by
  rw [Position.max, Position.max, down_lt]
  split <;> rfl

/-- The frame of a document and one that has the same tokens so many lines further down, behind others, where a parse
of the second has come to them. -/
def trailing (lines : Nat) (q : Parser) : Frame where
  front := ([], q.stream.views.take q.stream.rank)
  back := ([], [])
  numbers := ((significant q.stream.document).map Cell.index).take (q.stream.views.take q.stream.rank).length
  places p p' := p' = p.down lines
  lined := False
  clean := False
  literal := True
  thrifty := False
  held := q.collectors.flatMap Array.toList
  errors := q.errors.toList
  gone := q.position
  floor := 1
  min := by
    rintro _ _ _ _ rfl rfl
    exact (down_min lines _ _).symm
  max := by
    rintro _ _ _ _ rfl rfl
    exact (down_max lines _ _).symm
  closed := nothing_behind
  lined_of_clean := id
  floor_pos := Nat.one_pos

variable {lines : Nat} {q : Parser}

theorem trailing_sees {a b : TokenView} : (trailing lines q).Sees a b ↔ b = a.down lines := by
  have spots : ∀ kind p p', ((trailing lines q).pairing fun _ _ => False).spots kind p p' ↔ p' = p.down lines := by
    intro kind p p'
    rw [Pairing.spots]
    split
    · exact or_iff_right id
    · exact Iff.rfl
  constructor
  · intro sees
    obtain ⟨gist, text, first, last⟩ := b
    rw [TokenView.down, TokenView.mk.injEq]
    exact ⟨sees.gist.symm, (sees.text trivial).symm, (spots _ _ _).1 sees.first, (spots _ _ _).1 sees.last⟩
  · rintro rfl
    exact ⟨rfl, fun _ => rfl, (spots _ _ _).2 rfl, (spots _ _ _).2 rfl⟩

end Frame

namespace Document

open TolerantParser.Parser (Rounds moduleRound)

variable {limits : Limits} {d : Dialect} {options : ParseOptions} {tokens tokens' tokens'' : List Token} {c : Frame}
  {last : TokenView}
  {run : Run limits d options tokens} {run' : Run limits d options tokens'}
  {run'' : Run limits d options tokens''} {q : Parser}
  {head tail : List Node} {lines : Nat}

/-- The second of two runs as it is where the first has ended: it has found the statements of `head` until then, and
those of `tail` are what it finds from there. -/
structure Passing (c : Frame) (run : Run limits d options tokens) (run' : Run limits d options tokens') (q : Parser)
    (head tail : List Node) : Prop where
  along : c.Along run.left q
  behind : ¬ 0 < c.room run.left.stream
  alike : Alike (c.paired run.left q) run.body head
  body : run'.body = head ++ tail
  goesOn : Parser.documentBody (Parser.full limits) q = .ok tail run'.left
  before : ∃ ps, Parser.Moves False .block False ps run'.begun q
  ready : Parser.Ready False .block .outermost q
  options : q.engine.options = options

/-- Runs that halt together where the first document ends. -/
theorem passing_of_halts {value value' : Option Nat × Array Node} {p : Parser}
    (halts : c.Halts limits (none, #[]) (none, #[]) run.begun run'.begun value value' p q) (back : c.back.1 = [last])
    (ends : last.kind = .endOfFile) : ∃ head tail, Passing c run run' q head tail := by
  obtain ⟨nodes, r, rest, whole⟩ := Parser.documentBody_onward run.ready halts.left
  obtain ⟨nodes', r', rest', whole'⟩ := Parser.documentBody_onward run'.ready halts.right
  have ended := Parser.documentBody_ended limits (halts.along.ended back ends halts.behind)
  obtain ⟨rfl, rfl⟩ := EStateM.Result.ok.inj (ended.symm.trans rest)
  obtain ⟨body, left⟩ := EStateM.Result.ok.inj (run.takes.symm.trans whole)
  obtain ⟨body', left'⟩ := EStateM.Result.ok.inj (run'.takes.symm.trans whole')
  rw [List.append_nil] at body
  obtain ⟨ps, moves, ready, -, -⟩ := halts.right.moves run'.ready rfl
  have retained := halts.right.retained (Parser.retains_moduleRound limits)
  refine ⟨value'.2.toList, nodes', left ▸ halts.along, left ▸ halts.behind, ?_, body', left' ▸ rest',
    ⟨ps, moves⟩, ready,
    retained.options⟩
  rw [body, left]
  exact halts.alike.2

namespace Passing

/-- All that is left of the second document is what stands behind the common part. -/
theorem rest (passing : Passing c run run' q head tail) :
    q.stream.views.drop q.stream.rank = c.back.2 := by
  obtain ⟨shared, other, past, shares⟩ := passing.along.stream.shares
  have room := shares.room
  have behind := passing.behind
  have within := shares.within
  have lengths := shares.length_eq
  rw [shares.right, shares.there]
  exact List.drop_left' (by rw [List.length_append]; omega)

/-- From where the first document has ended, the second run is in step with one over the rest. -/
theorem begins (passing : Passing c run run' q head tail)
    (rest : c.back.2 = run''.stream.views.map (TokenView.down lines)) :
    (Frame.trailing lines q).Along run''.begun q := by
  obtain ⟨ps, moves⟩ := passing.before
  have dialect : run''.stream.dialect = q.stream.dialect :=
    run''.dialect.trans (moves.dialect.trans run'.dialect).symm
  have rank : run''.stream.rank = 0 := congrArg List.length run''.behind
  have within : q.stream.rank ≤ q.stream.views.length := Nat.le_of_lt (TokenStream.rank_lt passing.ready.rests)
  have sees : List.Forall₂ (Frame.trailing lines q).Sees run''.stream.views
      (run''.stream.views.map (TokenView.down lines)) :=
    List.forall₂_map_right_iff.2 (List.forall₂_same.2 fun _ _ => Frame.trailing_sees.2 rfl)
  have whole : q.stream.views =
      q.stream.views.take q.stream.rank ++ run''.stream.views.map (TokenView.down lines) := by
    rw [← rest, ← passing.rest, List.take_append_drop]
  have shares : (Frame.trailing lines q).Shares run''.stream q.stream run''.stream.views
      (run''.stream.views.map (TokenView.down lines)) 0 := {
    left := (List.append_nil _).symm
    right := whole.trans (List.append_nil _).symm
    sees
    linked := Frame.linked_views run''.sound id
    single := False.elim
    here := rank
    there := (List.length_take_of_le within).symm
    within := Nat.zero_le _
    numbers := rfl }
  have collectors : q.collectors = [(tokensOf ps).toArray] := by
    rw [moves.collectors]
    simp [Run.begun, Parser.opened, Parser.grow, Parser.ofStream]
  refine ⟨⟨⟨run''.sound, passing.ready.sound⟩, ⟨run''.rests, passing.ready.rests⟩, dialect, _, _, _, shares⟩, .inr ?_,
    ⟨[], (List.append_nil _).symm, .nil⟩, ?_, Nat.le_refl 1, (Nat.zero_add _).symm⟩
  · rw [passing.options]
    rfl
  · have held : (tokensOf ps).toArray.toList = (Frame.trailing lines q).held ++ [] := by
      show _ = q.collectors.flatMap Array.toList ++ []
      rw [collectors]
      simp
    rw [collectors]
    exact .outermost held .nil

/-- What the second run finds behind the first document is alike to what one over the rest finds. -/
theorem arrives (passing : Passing c run run' q head tail)
    (rest : c.back.2 = run''.stream.views.map (TokenView.down lines)) :
    (Frame.trailing lines q).Along run''.left run'.left ∧
      Alike ((Frame.trailing lines q).paired run''.left run'.left) run''.body tail := by
  have guided : (Frame.trailing lines q).Guided := ⟨False.elim, False.elim, False.elim⟩
  have both := (Parallel.documentBody limits id guided).runs _ _ (passing.begins rest) (le_refl _)
  rw [show Parser.documentBody (Parser.full limits) run''.begun = _ from run''.takes, passing.goesOn] at both
  cases both with
  | ok near _ alike => exact ⟨near.1, alike⟩
  | spoilt unfair => exact absurd ⟨False.elim, False.elim⟩ unfair

/-- Tokens that answer to each other in front of where the first document ends. -/
theorem final_front (passing : Passing c run run' q head tail) (front : c.front = ([], [])) {cell other : Cell}
    (paired : (c.paired run.left q).tokens cell.index other.index) :
    ∃ rank, rank < q.stream.rank ∧ run.left.stream.views[rank]? = some (run.final cell).view ∧
      q.stream.views[rank]? = some (run'.final other).view ∧ (run.final cell).kind ≠ .comment ∧
      (run'.final other).kind ≠ .comment := by
  obtain ⟨rank, within, here, there⟩ := paired
  obtain ⟨shared, others, past, shares⟩ := passing.along.stream.shares
  have lengths := congrArg List.length shares.left
  have room := shares.room
  have behind := passing.behind
  have past_le := shares.within
  have second := shares.there
  simp only [front, List.length_nil, List.length_append, Nat.zero_add] at within here there lengths second
  have inside : rank < q.stream.rank := by omega
  obtain ⟨nodes, r, ps, takes, moves, -⟩ := Parser.documentBody_takes passing.ready
  obtain ⟨-, rfl⟩ := EStateM.Result.ok.inj (passing.goesOn.symm.trans takes)
  obtain ⟨moved, gone, -⟩ := moves.behind
  obtain ⟨looks, ranked⟩ := TokenStream.onward gone inside
  obtain ⟨met, -, sight, -⟩ := run.final_ranked (here.grown run.steps.document)
  obtain ⟨met', -, sight', -⟩ := run'.final_ranked ((ranked _ there).grown run'.steps.document)
  rw [TokenStream.views, run.steps.tokens] at sight
  rw [TokenStream.views, run'.steps.tokens] at sight'
  exact ⟨rank, inside, sight, looks.symm.trans sight', met, met'⟩

end Passing

theorem sketches_eq {σ τ : Type} {W : Pairing} {see see' : Cell → Option σ} {spot spot' : Position → τ}
    (same : ∀ cell other : Cell, W.tokens cell.index other.index → see cell = see' other)
    (equally : ∀ p q, W.places p q → spot p = spot' q) {nodes others : List Node} (alike : Alike W nodes others) :
    nodes.map (·.sketch see spot) = others.map (·.sketch see' spot') := by
  induction alike with
  | nil => rfl
  | cons first _ ih => rw [List.map_cons, List.map_cons, Node.Alike.sketch_eq same equally first, ih]

/-- Where the first document ends, the tokens of both are the same, but for ends of blocks in a parse without errors. -/
def Settles (p q : Parser) : Prop := ∀ rank a b, rank < q.stream.rank → p.stream.views[rank]? = some a →
  q.stream.views[rank]? = some b → a = b ∨ p.Clean ∧ a.EndsBlock ∧ b.EndsBlock

namespace Passing

variable {clean : Prop} {rest : List TokenView}

/-- The document of the second run has what the first has, and behind that what one over the rest has, further down. -/
theorem documents (passing : Passing (.leading clean last rest) run run' q head tail) (settles : Settles run.left q)
    (behind : rest = run''.stream.views.map (TokenView.down lines)) :
    run'.document.body 0 = run.document.body 0 ++ run''.document.body lines ∧
      run'.document.reports 0 = run.document.reports 0 ++ run''.document.reports lines := by
  obtain ⟨along, alike⟩ := passing.arrives behind
  obtain ⟨atRank, grows⟩ := Run.arrive_last along
  have later : ∀ cell other : Cell,
      ((Frame.trailing lines q).pairs run''.last run'.last).tokens cell.index other.index →
      (run'.final other).view = (run''.final cell).view.down lines ∧ (run''.final cell).kind ≠ .comment ∧
        (run'.final other).kind ≠ .comment := fun cell other paired => by
    obtain ⟨rank, -, -, met, met', -, -, sees⟩ := Run.final_sees atRank paired
    exact ⟨Frame.trailing_sees.1 sees, met, met'⟩
  have early : ∀ cell other : Cell, ((Frame.leading clean last rest).paired run.left q).tokens cell.index other.index →
      shown 0 (run.final cell) = shown 0 (run'.final other) ∧
        (¬ run.left.Clean → (run.final cell).view = (run'.final other).view) := fun cell other paired => by
    obtain ⟨rank, inside, here, there, met, met'⟩ := passing.final_front rfl paired
    rw [shown_eq met, shown_eq met', TokenView.down_zero, TokenView.down_zero]
    rcases settles rank _ _ inside here there with same | ⟨quiet, ends, ends'⟩
    · exact ⟨by rw [same], fun _ => same⟩
    · exact ⟨by rw [ends.shown ends'], fun unclean => absurd quiet unclean⟩
  refine ⟨?_, ?_⟩
  · rw [run'.body_document, run.body_document, run''.body_document, passing.body, List.map_append]
    refine congrArg₂ (· ++ ·) (sketches_eq (fun _ _ paired => (early _ _ paired).1) ?_ passing.alike).symm
      (sketches_eq (fun cell other paired => ?_) ?_ (alike.mono grows)).symm
    · rintro p _ rfl
      rfl
    · obtain ⟨same, met, met'⟩ := later cell other paired
      show shown lines (run''.final cell) = shown 0 (run'.final other)
      rw [shown_eq met, shown_eq met', TokenView.down_zero, same]
    · rintro p _ rfl
      rfl
  · obtain ⟨found, split, errors⟩ := passing.along.errors
    obtain ⟨more, split', errors'⟩ := along.errors
    rw [run'.reports_document, run.reports_document, run''.reports_document, split',
      show (Frame.trailing lines q).errors = [] ++ found from split, List.nil_append, List.map_append]
    refine congrArg₂ (· ++ ·) ?_ ?_
    · by_cases quiet : run.left.Clean
      · have none : run.left.errors.toList = [] := congrArg Array.toList quiet
        rw [none] at errors ⊢
        cases errors
        rfl
      · rw [eq_comm, ← List.forall₂_eq_eq_eq, List.forall₂_map_left_iff, List.forall₂_map_right_iff]
        refine errors.imp fun error other same => ?_
        rw [same.1, same.2.1, (early _ _ (Cell.Alike.paired same.2.2)).2 quiet]
    · rw [eq_comm, ← List.forall₂_eq_eq_eq, List.forall₂_map_left_iff, List.forall₂_map_right_iff]
      refine (errors'.mono grows).imp fun error other same => ?_
      rw [same.1, same.2.1, (later _ _ (Cell.Alike.paired same.2.2)).1, TokenView.down_zero]

end Passing

end Document

end TolerantParser
