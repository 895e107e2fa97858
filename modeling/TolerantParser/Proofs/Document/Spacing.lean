import TolerantParser.Proofs.Document.InStep

/-!
Comments, blank lines and spacing do not influence a parse. Of two texts with the same tokens the documents have the
same sketch, which shows of each token but the comments what a parse sees of it and its rank, and the same errors at
the same tokens.
-/

namespace TolerantParser

/-! ### What shows of a document -/

/-- A token of a document without its comments: what a parse sees of it, and its rank. -/
structure Sighting where
  gist : Gist
  rank : Nat
  deriving DecidableEq, Repr

/-- An error, with the token where it was found. -/
structure Finding where
  kind : ErrorKind
  message : String
  token : Option Sighting
  deriving DecidableEq, Repr

namespace Document

/-- Comments are not seen. -/
def sight (document : Document) (cell : Cell) : Option Sighting :=
  if cell.isComment then none else some ⟨cell.gist, document.rank cell⟩

/-- The nodes of a document with their fields, names and operators and the tokens that they own. -/
def sketch (document : Document) : Sketch Sighting Unit := document.tree.sketch document.sight fun _ => ()

/-- The errors of a document. -/
def findings (document : Document) : List Finding :=
  document.errors.map fun error => ⟨error.kind, error.message, document.sight error.cell⟩

theorem unseen_sight (document : Document) : Unseen document.sight := fun _ comment => if_pos comment

theorem sight_eq {document : Document} {cell : Cell} (met : cell.kind ≠ .comment) :
    document.sight cell = some ⟨cell.gist, document.rank cell⟩ := if_neg (by simpa [Cell.isComment] using met)

namespace Run

variable {limits : Limits} {d : Dialect} {options : ParseOptions} {tokens tokens' : List Token}
  (run : Run limits d options tokens)

/-- A document is sketched as its run has left the tree. -/
theorem sketch_document : run.document.sketch =
    run.tree.sketch (run.document.sight ∘ run.final) fun _ => () := by
  rw [Document.sketch]
  show ((run.tree.mapTokens run.final).attachComments run.document.tokens).sketch _ _ = _
  rw [Node.sketch_attachComments run.document.unseen_sight, Node.sketch_mapTokens]

theorem findings_document : run.document.findings = run.left.errors.toList.map fun error =>
    ⟨error.kind, error.message, run.document.sight (run.final error.cell)⟩ := by
  rw [Document.findings]
  show (run.left.errors.toList.map fun error => { error with cell := run.final error.cell }).map _ = _
  rw [List.map_map]
  rfl

end Run

end Document

/-! ### Texts with the same tokens -/

/-- Only the tokens that end lines may be written in another way. -/
def Token.Matches (token other : Token) : Prop :=
  token.kind = other.kind ∧ (token.kind ≠ .newline → token.text = other.text)

instance (token other : Token) : Decidable (token.Matches other) := inferInstanceAs (Decidable (_ ∧ (_ → _)))

/-- The tokens of a text without the comments. -/
def significantTokens (d : Dialect) (text : String) : List Token := (lex d text).filter (·.kind != .comment)

theorem Frame.fair_whole {p : Parser} : whole.Fair p := ⟨False.elim, False.elim⟩

theorem Frame.fresh_whole : whole.Fresh := ⟨rfl, rfl, rfl, rfl, rfl, rfl⟩

/-- In documents that are nothing but what they have in common, tokens are seen as the same if they are. -/
theorem Frame.sees_whole {a b : TokenView} (same : a.gist = b.gist) : whole.Sees a b := by
  have everywhere : ∀ kind p q, (whole.pairing fun _ _ => False).spots kind p q := fun kind p q => by
    rw [Pairing.spots]
    split
    · exact .inr trivial
    · exact trivial
  exact ⟨same, False.elim, everywhere .., everywhere ..⟩

theorem Token.Matches.gist {token other : Token} (same : token.Matches other) (real : token.synthetic = false)
    (real' : other.synthetic = false) : token.gist = other.gist := by
  obtain ⟨kinds, texts⟩ := same
  rw [Token.gist, Token.gist, real, real', ← kinds]
  by_cases ends : token.kind = .newline
  · rw [if_pos ends, if_pos ends]
  · rw [if_neg ends, if_neg ends, texts ends]

theorem significantTokens_matches {d : Dialect} {text other : String}
    (same : List.Forall₂ Token.Matches (lex d text) (lex d other)) :
    List.Forall₂ Token.Matches (significantTokens d text) (significantTokens d other) :=
  List.rel_filter (fun {token next} same => by simp only [same.1]) same

theorem gists_eq {tokens others : List Token} (same : List.Forall₂ Token.Matches tokens others)
    (real : ∀ token ∈ tokens, token.synthetic = false) (real' : ∀ token ∈ others, token.synthetic = false) :
    tokens.map Token.gist = others.map Token.gist := by
  induction same with
  | nil => rfl
  | cons first _ ih =>
    rw [List.forall_mem_cons] at real real'
    rw [List.map_cons, List.map_cons, first.gist real.1 real'.1, ih real.2 real'.2]

namespace Document

variable {limits : Limits} {d : Dialect} {options : ParseOptions} {tokens tokens' : List Token}

/-- Runs over the same tokens come to documents that show the same. -/
theorem Run.same {run : Run limits d options tokens} {run' : Run limits d options tokens'}
    (same : run.stream.views.map TokenView.gist = run'.stream.views.map TokenView.gist) :
    run.document.sketch = run'.document.sketch ∧ run.document.findings = run'.document.findings := by
  have sees : List.Forall₂ Frame.whole.Sees run.stream.views run'.stream.views := by
    rw [← List.forall₂_eq_eq_eq, List.forall₂_map_left_iff, List.forall₂_map_right_iff] at same
    exact same.imp fun _ _ => Frame.sees_whole
  have begun := run.along run' Frame.fresh_whole (.inr rfl) (List.append_nil _).symm (List.append_nil _).symm sees
    (Frame.linked_views run.sound id) False.elim
  have along := (Run.arrive begun id Frame.fair_whole).1
  obtain ⟨atRank, grows⟩ := Run.arrive_last along
  have equally : ∀ cell other : Cell, (Frame.whole.pairs run.last run'.last).tokens cell.index other.index →
      run.document.sight (run.final cell) = run'.document.sight (run'.final other) := fun cell other paired => by
    obtain ⟨rank, ranks, ranks', met, met', -, -, sees⟩ := Run.final_sees atRank paired
    rw [sight_eq met, sight_eq met', ranks, ranks', show (run.final cell).gist = _ from sees.gist]
    rfl
  have trees := Run.arrive_trees begun id Frame.fair_whole rfl
  refine ⟨?_, ?_⟩
  · rw [run.sketch_document, run'.sketch_document]
    exact trees.sketch_eq equally fun _ _ _ => rfl
  · obtain ⟨found, split, alike⟩ := along.errors
    rw [show Frame.whole.errors = [] from rfl, List.nil_append] at split
    rw [run.findings_document, run'.findings_document, split]
    rw [← List.forall₂_eq_eq_eq, List.forall₂_map_left_iff, List.forall₂_map_right_iff]
    refine (alike.mono grows).imp fun error other same => ?_
    rw [same.1, same.2.1, equally _ _ (Cell.Alike.paired same.2.2)]

/-- Runs over texts with the same tokens but for comments come to documents that show the same. -/
theorem Run.same_of_matches {text other : String} (run : Run limits d options (lex d text))
    (run' : Run limits d options (lex d other))
    (same : List.Forall₂ Token.Matches (significantTokens d text) (significantTokens d other)) :
    run.document.sketch = run'.document.sketch ∧ run.document.findings = run'.document.findings := by
  have real : ∀ text, ∀ token ∈ significantTokens d text, token.synthetic = false := fun text token member =>
    (genuine_lex d text token (List.mem_filter.1 member).1).real
  refine Run.same ?_
  rw [TokenStream.views, TokenStream.views, run.whole, run'.whole, List.map_map, List.map_map]
  exact gists_eq same (real text) (real other)

/-- Comments, blank lines and spacing never influence the parse: if two texts have the same tokens besides them, the
documents have the same nodes over the same tokens, and the same errors at the same tokens. -/
theorem ofText?_spacing (limits : Limits) (d : Dialect) (options : ParseOptions) {text other : String}
    (same : List.Forall₂ Token.Matches (significantTokens d text) (significantTokens d other)) :
    ∃ document document', ofText? limits d options text = .ok document ∧
      ofText? limits d options other = .ok document' ∧
      document.sketch = document'.sketch ∧ document.findings = document'.findings := by
  obtain ⟨run, parses⟩ := ofTokens?_runs limits options (fun token member => (genuine_lex d text token member).defined)
    (endsOnce_lex d text)
  obtain ⟨run', parses'⟩ := ofTokens?_runs limits options
    (fun token member => (genuine_lex d other token member).defined) (endsOnce_lex d other)
  exact ⟨run.document, run'.document, parses, parses', run.same_of_matches run' same⟩

theorem ofText?_spacing_comment :
    List.Forall₂ Token.Matches (significantTokens .v26 "x y\n")
      (significantTokens .v26 "# c\nx  y # d\r\n") ∧
    ∃ document document', ofText? .usual .v26 .default "x y\n" = .ok document ∧
      ofText? .usual .v26 .default "# c\nx  y # d\r\n" = .ok document' ∧
      document.sketch = document'.sketch ∧ document.findings = document'.findings := by
  have same : List.Forall₂ Token.Matches (significantTokens .v26 "x y\n")
      (significantTokens .v26 "# c\nx  y # d\r\n") := by decide +kernel
  exact ⟨same, ofText?_spacing .usual .v26 .default same⟩

end Document

end TolerantParser
