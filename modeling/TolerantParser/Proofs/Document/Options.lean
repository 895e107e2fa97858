import TolerantParser.Printer.Basic
import TolerantParser.Proofs.Document.InStep
import TolerantParser.Proofs.Tree.Yield

/-!
Options do not change a parse. However far the search for the end of a block may go, whether tokens are read at once or
on demand, and whether repairs are traced, the documents of a text are the same, as long as no statement is nested too
deeply to parse. The two runs over the text are in step in a frame that compares nothing else: since the layout of a
text is in order, the search that the budget bounds never begins. Which tokens the two documents have is settled by the
names that were put in, since each of them stands directly in front of a token of the text (`Mends`).
-/

namespace TolerantParser

/-! ### Documents over the same text -/

/-- From the same tokens, none of them put in, the same comes by putting names in at the same tokens. -/
theorem Mends.unique {tokens mended other : List Token} (first : Mends tokens mended) (second : Mends tokens other)
    (real : ∀ token ∈ tokens, token.synthetic = false)
    (same : (mended.filter (·.kind != .comment)).map (·.synthetic) =
      (other.filter (·.kind != .comment)).map (·.synthetic)) : mended = other := by
  have put : ∀ token, (missingBefore token).kind ≠ .comment := fun _ => nofun
  have meets : ∀ (token : Token) rest, token.kind ≠ .comment →
      ((token :: rest).filter (·.kind != .comment)).map (·.synthetic) =
        token.synthetic :: (rest.filter (·.kind != .comment)).map (·.synthetic) := fun token rest met => by
    simp [met]
  induction first generalizing other with
  | nil =>
    cases second
    rfl
  | @keep token rest mended _ ih =>
    rw [List.forall_mem_cons] at real
    cases second with
    | keep _ second =>
      refine congrArg (token :: ·) (ih second real.2 ?_)
      by_cases met : token.kind = .comment
      · simpa [met] using same
      · rw [meets _ _ met, meets _ _ met] at same
        exact (List.cons.inj same).2
    | mend met =>
      rw [meets _ _ met, meets _ _ (put token)] at same
      cases real.1.symm.trans (List.cons.inj same).1
  | @mend token rest mended met _ ih =>
    have unmarked := (List.forall_mem_cons.1 real).1
    cases second with
    | keep =>
      rw [meets _ _ (put token), meets _ _ met] at same
      cases unmarked.symm.trans (List.cons.inj same).1.symm
    | mend _ second =>
      rw [meets _ _ (put token), meets _ _ (put token)] at same
      exact congrArg (missingBefore token :: ·)
        (ih second (List.forall_mem_cons.2 ⟨unmarked, (List.forall_mem_cons.1 real).2⟩)
        (List.cons.inj same).2)

section

variable {W : Pairing} {f g : Cell → Cell}

theorem map_alike (same : ∀ cell other : Cell, W.tokens cell.index other.index → f cell = g other)
    {cells others : List Cell} (alike : Alike W cells others) : cells.map f = others.map g := by
  induction alike with
  | nil => rfl
  | cons first _ ih => rw [List.map_cons, List.map_cons, same _ _ (Cell.Alike.paired first), ih]

mutual

/-- Trees that are alike and have no comments are the same, once the tokens that answer to each other are. -/
theorem Node.Alike.mapTokens_eq (same : ∀ cell other : Cell, W.tokens cell.index other.index → f cell = g other)
    (equally : ∀ p q, W.places p q → p = q) {node other : Node} (alike : node.Alike W other) (bare : node.Bare)
    (bare' : other.Bare) : node.mapTokens f = other.mapTokens g :=
  match alike with
  | @Node.Alike.mk _ info info' children others like below => by
    have none := bare _ (Node.mem_listed.2 (.inl rfl))
    have none' := bare' _ (Node.mem_listed.2 (.inl rfl))
    obtain ⟨kind, detail, tokens, before, after, first, last⟩ := info
    obtain ⟨kind', detail', tokens', before', after', first', last'⟩ := info'
    obtain ⟨rfl, rfl⟩ : before = [] ∧ after = [] := none
    obtain ⟨rfl, rfl⟩ : before' = [] ∧ after' = [] := none'
    obtain rfl : kind = kind' := like.kind
    obtain rfl : detail = detail' := like.detail
    obtain rfl : first = first' := equally _ _ like.first
    obtain rfl : last = last' := equally _ _ like.last
    have inner := below.mapTokens_eq same equally (fun _ member => bare.below member) fun _ member => bare'.below member
    rw [Node.mapTokens, Node.mapTokens, inner, show tokens.map f = tokens'.map g from map_alike same like.tokens]
    rfl

theorem Children.Alike.mapTokens_eq (same : ∀ cell other : Cell, W.tokens cell.index other.index → f cell = g other)
    (equally : ∀ p q, W.places p q → p = q) {children others : Children} (alike : children.Alike W others)
    (bare : ∀ child ∈ children.nodes, child.Bare) (bare' : ∀ child ∈ others.nodes, child.Bare) :
    children.mapTokens f = others.mapTokens g :=
  match alike with
  | .nil => rfl
  | .gap label rest => congrArg (Children.gap label) (rest.mapTokens_eq same equally bare bare')
  | .cons label node rest => by
    rw [Children.mapTokens, Children.mapTokens,
      node.mapTokens_eq same equally (bare _ (List.mem_cons_self ..)) (bare' _ (List.mem_cons_self ..)),
      rest.mapTokens_eq same equally (fun child member => bare child (List.mem_cons_of_mem _ member))
        fun child member => bare' child (List.mem_cons_of_mem _ member)]

end

end

/-! ### Two runs over one text -/

namespace Frame

/-- The frame of two parses of one text that may search the ends of blocks at different lengths. -/
def alone : Frame where
  front := ([], [])
  back := ([], [])
  numbers := []
  places := Eq
  lined := False
  clean := False
  literal := True
  thrifty := True
  held := []
  errors := []
  gone := 0
  floor := 1
  min := @Position.min_congr
  max := @Position.max_congr
  closed := nothing_behind
  lined_of_clean := id
  floor_pos := Nat.one_pos

theorem fresh_alone : alone.Fresh := ⟨rfl, rfl, rfl, rfl, rfl, rfl⟩

theorem spots_alone {kind : TokenKind} {p q : Position} : (alone.pairing fun _ _ => False).spots kind p q ↔ p = q := by
  rw [Pairing.spots]
  split
  · exact or_iff_right id
  · exact Iff.rfl

/-- Over one text tokens are seen as the same only if nothing tells them apart. -/
theorem sees_alone {a b : TokenView} : alone.Sees a b ↔ a = b := by
  refine ⟨fun sees => ?_, ?_⟩
  · obtain ⟨gist, text, first, last⟩ := a
    obtain rfl : gist = b.gist := sees.gist
    obtain rfl : text = b.text := sees.text trivial
    obtain rfl : first = b.first := spots_alone.1 sees.first
    obtain rfl : last = b.last := spots_alone.1 sees.last
    rfl
  · rintro rfl
    exact ⟨rfl, fun _ => rfl, spots_alone.2 rfl, spots_alone.2 rfl⟩

end Frame

namespace Document

variable {limits : Limits} {d : Dialect} {options options' : ParseOptions} {tokens : List Token}

/-- Tokens are the same if their numbers and all else about them are. -/
theorem cells_eq {cells others : List Cell} (texts : cells.map Cell.toToken = others.map Cell.toToken)
    (numbers : cells.map Cell.index = others.map Cell.index) : cells = others := by
  induction cells generalizing others with
  | nil => exact (List.map_eq_nil_iff.1 texts.symm).symm
  | cons cell rest ih =>
    obtain ⟨other, others, rfl, first, later⟩ := List.map_eq_cons_iff.1 texts.symm
    have number := List.cons.inj numbers
    obtain ⟨token, index⟩ := cell
    obtain ⟨token', index'⟩ := other
    obtain rfl : token' = token := first
    obtain rfl : index = index' := number.1
    rw [ih later.symm number.2]

/-- Runs over the same tokens of a layout in order come to documents with the same tokens, errors and trees. -/
theorem Run.agree (run : Run limits d options tokens) (run' : Run limits d options' tokens)
    (defined : ∀ token ∈ tokens, d.defines token.kind) (ended : EndsOnce (tokens.map (·.kind)))
    (real : ∀ token ∈ tokens, token.synthetic = false) (laid : Laid 0 (Scan.met tokens)) (calm : run.document.Calm) :
    run'.document.errors = run.document.errors ∧ run'.document.tokens = run.document.tokens ∧
      run'.document.tree = run.document.tree := by
  have gone := run.gone defined ended
  have gone' := run'.gone defined ended
  have same : run.stream.views = run'.stream.views := by
    rw [TokenStream.views, TokenStream.views, run.whole, run'.whole]
  have begun := run.along run' Frame.fresh_alone (.inl trivial) (List.append_nil _).symm
    (same.symm.trans (List.append_nil _).symm) (List.forall₂_same.2 fun view _ => Frame.sees_alone.2 rfl)
    (Frame.linked_views run.sound id) False.elim
  have steady : run.finished.Calm := fun error member =>
    calm { error with cell := run.final error.cell } (List.mem_map.2 ⟨error, member, rfl⟩)
  have fair : Frame.alone.Fair run.left := ⟨False.elim, fun _ => ⟨steady, gone.proper ⟨laid, steady⟩⟩⟩
  have along := (Run.arrive begun id fair).1
  have trees := Run.arrive_trees begun id fair rfl
  obtain ⟨atRank, grows⟩ := Run.arrive_last along
  have texts : run.document.tokens.map Cell.toToken = run'.document.tokens.map Cell.toToken := by
    obtain ⟨shared, other, past, shares⟩ := atRank.shares
    have looks : run.last.views = run'.last.views := by
      have equal : shared = other := List.forall₂_eq_eq_eq ▸ shares.sees.imp fun _ _ => Frame.sees_alone.1
      rw [shares.left, shares.right, equal]
      rfl
    rw [run.views_document, run'.views_document] at looks
    have put := congrArg (List.map fun view : TokenView => view.gist.synthetic) looks
    rw [List.map_map, List.map_map] at put
    exact gone.parsed.mends.unique gone'.parsed.mends real put
  have listed : run.document.tokens = run'.document.tokens := by
    refine cells_eq texts ?_
    rw [run.numbered_document, run'.numbered_document, ← List.length_map Cell.toToken, texts, List.length_map]
  have equally : ∀ cell other : Cell, (Frame.alone.pairs run.last run'.last).tokens cell.index other.index →
      run.final cell = run'.final other := fun cell other paired => by
    obtain ⟨rank, ranks, ranks', met, met', member, member', -⟩ := Run.final_sees atRank paired
    refine run.document.eq_of_rank run.numbered_document member (listed ▸ member') met met' ?_
    rw [ranks, Document.rank, listed]
    exact ranks'.symm
  refine ⟨?_, listed.symm, ?_⟩
  · obtain ⟨found, split, alike⟩ := along.errors
    rw [show Frame.alone.errors = [] from rfl, List.nil_append] at split
    refine Eq.symm (show run.left.errors.toList.map _ = run'.left.errors.toList.map _ from ?_)
    rw [split, ← List.forall₂_eq_eq_eq, List.forall₂_map_left_iff, List.forall₂_map_right_iff]
    refine (alike.mono grows).imp fun error other same => ?_
    have cells : run.final error.cell = run'.final other.cell := equally _ _ (Cell.Alike.paired same.2.2)
    rw [same.1, same.2.1]
    exact congrArg (ParseError.mk other.kind · other.message) cells
  · show (run'.tree.mapTokens run'.final).attachComments run'.document.tokens =
      (run.tree.mapTokens run.final).attachComments run.document.tokens
    rw [trees.mapTokens_eq equally (fun _ _ => id) gone.spans.bare gone'.spans.bare, listed]

/-- Options never change a parse: with any bound on the search for the end of a block, with tokens read at once or on
demand, and traced or not, a text comes to the same errors, tokens and tree, which are printed in the same way, as long
as no statement is nested too deeply to parse. -/
theorem ofText?_options (limits : Limits) (d : Dialect) (options options' : ParseOptions) (text : String) :
    ∃ document document', ofText? limits d options text = .ok document ∧
      ofText? limits d options' text = .ok document' ∧
      (document.Calm → document'.errors = document.errors ∧ document'.tokens = document.tokens ∧
        document'.tree = document.tree ∧ ∀ prefs,
          document'.tree.print? limits prefs = document.tree.print? limits prefs) := by
  have genuine := genuine_lex d text
  obtain ⟨run, parses⟩ := ofTokens?_runs limits options (fun token member => (genuine token member).defined)
    (endsOnce_lex d text)
  obtain ⟨run', parses'⟩ := ofTokens?_runs limits options' (fun token member => (genuine token member).defined)
    (endsOnce_lex d text)
  refine ⟨run.document, run'.document, parses, parses', fun calm => ?_⟩
  obtain ⟨errors, tokens, tree⟩ := run.agree run' (fun token member => (genuine token member).defined)
    (endsOnce_lex d text) (fun token member => (genuine token member).real) (laid_lex d text) calm
  exact ⟨errors, tokens, tree, fun prefs => by rw [tree]⟩

end Document

end TolerantParser
