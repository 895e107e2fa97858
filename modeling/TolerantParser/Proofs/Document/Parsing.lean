import TolerantParser.Document
import TolerantParser.Proofs.Lexer.Layout
import TolerantParser.Proofs.Statement.Basic
import TolerantParser.Proofs.Stream.Reading
import TolerantParser.Proofs.Tree.Renumber
import TolerantParser.Proofs.Tree.Shape
import TolerantParser.Proofs.Tree.Yield

/-!
Parsing comes to a document, whatever the tokens. They need be no more than tokens of the dialect, the last
of which is the only one to end the file; those of a text are.
-/

namespace TolerantParser.Document

variable {limits : Limits} {d : Dialect} {tokens : List Token}

/-- No statement of the document was nested too deeply to parse. -/
def Calm (document : Document) : Prop := ∀ error ∈ document.errors, error.message ≠ Parser.tooDeepMessage

/-- The tokens of a document without those that repair put in. -/
def lexed (document : Document) : List Token := unmended (document.tokens.map Cell.toToken)

/-- The tokens that were put in. -/
def placeholders (document : Document) : List Cell := document.tokens.filter (·.synthetic)

/-- The errors about missing names. -/
def missingNames (document : Document) : List ParseError := document.errors.filter (·.kind == .nameExpected)

/-- Of the tokens that were put in, those for the errors about missing names, which stand in front of the tokens where
these were found. They are all there are if no statement was given up, and in the tree each is owned by a node that
stands for it. -/
structure ErrorNames (document : Document) (tree : Node) (names : List Cell) : Prop where
  among : names.Sublist document.placeholders
  stands : List.Forall₂ (fun cell error => StandsBefore document.tokens cell error.cell) names document.missingNames
  all : document.Calm → names = document.placeholders
  real : document.Calm → ∀ error ∈ document.missingNames, error.cell.synthetic = false
  owners : tree.OnlyPlaceholdersOwn (names.map Cell.index)

/-- The tokens had their layout in order, and no statement was given up. -/
structure Regular (tokens : List Token) (document : Document) : Prop where
  laid : Laid 0 (Scan.met tokens)
  calm : document.Calm

/-- The layout of the tokens is in order, and no block ends where it begins. -/
def Solid (tokens : List Token) : Prop := Laid 0 (Scan.met tokens) ∧ ¬ [.indent, .dedent] <:+: Scan.met tokens

/-- A tree that was made of tokens, before comments are given to it. -/
structure BareTree (tokens : List Token) (document : Document) (tree : Node) : Prop where
  attached : document.tree = tree.attachComments document.tokens
  kind : tree.kind = .document
  spans : Spans (Spaced tokens) (Regular tokens document) tree (TokenStream.significant document.tokens)
  placed : Spaced tokens → tree.Placed
  literate : tree.Literate document.errors
  errorNames : (∀ token ∈ tokens, token.synthetic = false) → ∃ names, document.ErrorNames tree names
  ended : ∃ before last, document.tokens = before ++ [last] ∧ last.kind = .endOfFile ∧ last ∈ tree.tokens

/-- What has come of tokens: a tree over them to which comments have been given, and errors. -/
structure Parsed (tokens : List Token) (document : Document) : Prop where
  tree : ∃ tree, BareTree tokens document tree
  numbered : document.tokens.map Cell.index = List.range document.tokens.length
  mends : Mends tokens (document.tokens.map Cell.toToken)
  quiet : document.errors = [] → document.tokens.map Cell.toToken = tokens
  proper : Laid 0 (Scan.met tokens) → document.Calm →
    ∀ error ∈ document.errors, error.kind ≠ .dedentExpected ∧ error.kind ≠ .endOfFileExpected
  nested : document.errors = [] → awaitedAfter [] (document.tokens.map (·.kind)) = some []
  intact : document.errors = [] → document.tree.Whole (Solid tokens)
  located : ∀ error ∈ document.errors, error.cell ∈ document.tokens
  inOrder : document.errors.Pairwise (·.cell.index ≤ ·.cell.index)

/-! ### The parse -/

/-- What a parse has given: a tree over all tokens, which have been read to their end. -/
structure Gone (tokens : List Token) (parser : Parser) (tree : Node) (cells : List Cell) : Prop where
  kind : tree.kind = .document
  sound : parser.stream.Sound
  whole : cells = parser.stream.document
  met : parser.met = cells
  owned : ∃ before last, cells = before ++ [last] ∧ last.kind = .endOfFile ∧ last ∈ tree.tokens
  mends : Mends tokens (cells.map Cell.toToken)
  quiet : parser.errors = #[] → cells.map Cell.toToken = tokens
  spans : Spans (Spaced tokens) (parser.Orderly (Laid 0 (Scan.met tokens))) tree (TokenStream.significant cells)
  placed : Spaced tokens → tree.Placed
  literate : tree.Literate parser.errors.toList
  proper : parser.Orderly (Laid 0 (Scan.met tokens)) → parser.Proper
  nested : parser.Clean → awaitedAfter [] (cells.map (·.kind)) = some []
  intact : parser.Clean → tree.Whole (Solid tokens)
  newNames : (∀ token ∈ tokens, token.synthetic = false) → ∃ names, parser.ErrorNames names ∧
    names.Sublist (cells.map Cell.index) ∧ tree.OnlyPlaceholdersOwn names
  filed : parser.Filed

/-- Where nothing but comments has been gone over all that is met comes. -/
theorem kinds_eq_met {stream : TokenStream} (behind : TokenStream.significant stream.behind = []) :
    stream.kinds = Scan.met stream.tokens := by
  have comments : (stream.behind.reverse.map Cell.toToken |>.map (·.kind)).filter (· != .comment) = [] := by
    rw [List.map_map, List.map_reverse, List.filter_reverse, List.reverse_eq_nil_iff, List.filter_map,
      List.map_eq_nil_iff]
    exact behind
  rw [Scan.met, TokenStream.tokens_eq, List.map_append, List.filter_append, comments]
  rfl

theorem awaitedAfter_passed {p : Parser} (behind : TokenStream.significant p.stream.behind = []) :
    awaitedAfter [] p.passed = some [] := by
  have comments : p.passed.filter (· != .comment) = [] := by
    rw [Parser.passed, List.map_reverse, List.filter_reverse, List.reverse_eq_nil_iff, List.filter_map,
      List.map_eq_nil_iff]
    exact behind
  rw [← awaitedAfter_filter, comments]
  rfl

/-- Before anything is parsed no name was put in, and none is missing. -/
theorem errorNames_of_real {p : Parser} (clean : p.Clean) (real : ∀ token ∈ p.stream.tokens, token.synthetic = false) :
    p.ErrorNames [] := by
  rw [TokenStream.tokens_eq, List.forall_mem_append, List.forall_mem_map] at real
  have none : Parser.missed p.errors.toList = [] := by rw [show p.errors = #[] from clean]; rfl
  refine ⟨by rw [none]; exact .nil, fun _ => real.2, fun _ cell member put => ?_⟩
  rw [real.1 cell (List.mem_reverse.2 member)] at put
  cases put

open TolerantParser.Parser in
theorem parse_ok (limits : Limits) (options : ParseOptions) (defined : ∀ token ∈ tokens, d.defines token.kind)
    (ended : EndsOnce (tokens.map (·.kind))) :
    ∃ stream parser tree cells, TokenStream.ofTokens 0 d options.onDemand tokens = .ok stream ∧
      parse limits (.ofStream stream options) = .ok (tree, parser.errors, cells) parser ∧
      Gone tokens parser tree cells := by
  obtain ⟨stream, opens, sound, rests, -, whole, behind⟩ :=
    TokenStream.ofTokens_eq 0 options.onDemand defined ended
  let p : Parser := .ofStream stream options
  have kinds : p.kinds = Scan.met tokens := whole ▸ kinds_eq_met behind
  have errorNames : (∀ token ∈ tokens, token.synthetic = false) → p.ErrorNames [] := fun real =>
    errorNames_of_real rfl (show ∀ token ∈ p.stream.tokens, token.synthetic = false from whole.symm ▸ real)
  obtain ⟨tree, q, parses, done⟩ := document_ok (show p.stream.Sound from sound) rests rfl (fun orderly =>
    ⟨kinds ▸ orderly.1, fun error member => by cases member⟩) (awaitedAfter_passed behind)
  obtain ⟨t, finishes, steps, read⟩ := TokenStream.finish_eq done.sound
  let r : Parser := { q with engine := { q.engine with stream := t } }
  have gives : parse limits p = .ok (tree, r.errors, t.document) r := by
    have ends : Parser.finish q = .ok q.errors q := by
      simp [Parser.finish, bind, EStateM.bind, TokenStream.get_ok, done.outside, pure, EStateM.pure]
    have reads : onStream TokenStream.finish q = .ok t.document r := by
      simp only [onStream, onEngine, Engine.onStream]
      rw [show q.engine.stream = q.stream from rfl, finishes]
    rw [parse, TokenStream.bind_ok parses, TokenStream.bind_ok ends, TokenStream.bind_ok reads]
    rfl
  have current : t.current = q.cell := steps.current_eq
  have atEnd := steps.sound.at_end (current ▸ done.ends)
  have document : t.document = q.stream.behind.reverse ++ [q.cell] := by
    rw [TokenStream.document, atEnd.1, steps.behind, current]
    simp
  have texts : t.tokens = t.document.map Cell.toToken := by simp [TokenStream.tokens, atEnd.2]
  have same : t.document.map Cell.toToken = q.stream.tokens := by rw [← texts, steps.tokens]
  have met : r.met = q.met := by
    rw [Parser.met, Parser.met, show r.stream.behind = q.stream.behind from steps.behind,
      show r.cell = q.cell from current]
  refine ⟨stream, r, tree, t.document, opens, gives, done.kind, steps.sound, rfl, met.trans document.symm, ?_, ?_, ?_,
    ?_, ?_, done.literate, done.proper, fun clean => ?_, fun clean => ?_, fun real => ?_, ?_⟩
  · exact ⟨_, _, document, done.ends, done.owned⟩
  · rw [same, ← whole]
    exact done.mends
  · intro none
    rw [same, done.quiet none]
    exact whole
  · obtain ⟨moved, rest, spans⟩ := done.spans
    have run : TokenStream.significant t.document = TokenStream.significant moved ++ [q.cell] := by
      have before : TokenStream.significant stream.behind.reverse = [] := by
        rw [TokenStream.significant, List.filter_reverse]
        exact congrArg List.reverse behind
      rw [document, rest, List.reverse_append, List.reverse_reverse, TokenStream.significant_append,
        TokenStream.significant_append, show p.stream.behind = stream.behind from rfl, before]
      simp [TokenStream.significant, done.ends]
    exact run ▸ spans.mono (fun spaced => show Spaced p.stream.tokens from whole.symm ▸ spaced) id
  · exact fun spaced => done.placed (show Spaced p.stream.tokens from whole.symm ▸ spaced)
  · have nested : awaitedAfter [] q.passed = some [] := done.nested clean
    rw [document, List.map_append, awaitedAfter_append, show q.stream.behind.reverse.map (·.kind) = q.passed
      from rfl, nested, List.map_singleton, done.ends]
    rfl
  · refine (done.whole clean).mono fun solid => ⟨⟨solid.1, fun error member => ?_⟩, ?_⟩
    · rw [show q.errors = #[] from clean] at member
      cases member
    · rw [done.quiet clean]
      exact whole.symm ▸ solid.2
  · obtain ⟨names, here, among, owners⟩ := done.newNames [] (errorNames real)
    have still : r.ErrorNames names := here.steps steps (finds_of_eq rfl)
    exact ⟨names, still, document ▸ among, owners⟩
  · have filed : q.Filed := done.files (filed_of_clean rfl)
    have trail : q.stream.trail.Sublist r.stream.trail := steps.trail
    have none : r.errors.toList = q.errors.toList ++ [] := (List.append_nil _).symm
    exact filed.onward trail none (List.forall_mem_nil _)

/-! ### The document -/

theorem significant_map {f : Cell → Cell} {cells : List Cell}
    (kinds : ∀ cell ∈ cells, (f cell).kind = cell.kind) :
    TokenStream.significant (cells.map f) = (TokenStream.significant cells).map f := by
  rw [TokenStream.significant, List.filter_map, TokenStream.significant]
  refine congrArg (List.map f) (List.filter_congr fun cell member => ?_)
  rw [Function.comp_apply, kinds cell member]

theorem calm_of_settle {parser : Parser} {tree : Node} {cells : List Cell}
    (calm : (settle parser tree parser.errors cells).Calm) : parser.Calm := fun error member =>
  calm { error with cell := (Places.ofDocument cells parser.stream.size).final error.cell }
    (List.mem_map.2 ⟨error, member, rfl⟩)

section

variable {cells : List Cell} {size : Nat} (nodup : (cells.map Cell.index).Nodup)
  (below : ∀ cell ∈ cells, cell.index < size)

include nodup below

/-- What stands in front of a token does so in its final place as well. -/
theorem standsBefore_final {calm : Prop} {cell bearer : Cell}
    (stands : StandsBeforeAt calm cells cell.index bearer.index) :
    let final := (Places.ofDocument cells size).final
    (final cell).synthetic ∧ StandsBefore (cells.map final) (final cell) (final bearer) ∧
      (calm → (final bearer).synthetic = false) := by
  intro final
  have put : ∀ cell ∈ cells, (final cell).synthetic = cell.synthetic := fun cell member =>
    congrArg Token.synthetic (Places.toToken_final nodup below member)
  obtain ⟨first, host, stands, name, place, here, plain⟩ := stands
  obtain ⟨listed, met⟩ := stands.mem
  rw [show final cell = final first from Places.final_congr nodup below listed name.symm,
    show final bearer = final host from Places.final_congr nodup below met place.symm, put first listed, put host met]
  exact ⟨here, stands.map put, plain⟩

/-- Different tokens have different places. -/
theorem eq_of_index_final {cell other : Cell} (listed : cell ∈ cells) (among : other ∈ cells)
    (same : ((Places.ofDocument cells size).final cell).index = ((Places.ofDocument cells size).final other).index) :
    cell = other := by
  have unique : ((cells.map (Places.ofDocument cells size).final).map Cell.index).Nodup := by
    rw [← Places.tokens_eq_map_final nodup below, Places.index_tokens]
    exact List.nodup_range
  rw [List.map_map] at unique
  exact List.inj_on_of_nodup_map unique listed among same

end

/-- The names that were put in for errors are in front of the tokens of these in the document as well. -/
theorem Gone.errorNames {parser : Parser} {tree : Node} {cells : List Cell} (gone : Gone tokens parser tree cells)
    (real : ∀ token ∈ tokens, token.synthetic = false) :
    ∃ names, (settle parser tree parser.errors cells).ErrorNames
      (tree.mapTokens (Places.ofDocument cells parser.stream.size).final) names := by
  have nodup := gone.whole ▸ gone.sound.nodup
  have below : ∀ cell ∈ cells, cell.index < parser.stream.size := gone.whole ▸ gone.sound.below
  let document := settle parser tree parser.errors cells
  let final := (Places.ofDocument cells parser.stream.size).final
  have settled : document.tokens = cells.map final := Places.tokens_eq_map_final nodup below
  have missing : document.missingNames = (parser.errors.toList.filter (·.kind == .nameExpected)).map fun error =>
      { error with cell := final error.cell } := List.filter_map
  obtain ⟨numbers, errorNames, among, owners⟩ := gone.newNames real
  obtain ⟨bare, sublist, rfl⟩ := List.sublist_map_iff.1 among
  have stands := errorNames.stands
  rw [gone.met, Parser.missed, List.forall₂_map_left_iff, List.forall₂_map_right_iff] at stands
  obtain ⟨filled, stands⟩ :=
    (List.forall₂_and_left _ _).1 (stands.imp fun _ _ pair => standsBefore_final nodup below pair)
  obtain ⟨plain, -⟩ := (List.forall₂_and_left _ _).1 (stands.flip.imp fun _ _ => And.symm)
  have kept : (bare.map final).Sublist document.placeholders := by
    have put := (sublist.map final).filter (·.synthetic)
    have same : (bare.map final).filter (·.synthetic) = bare.map final :=
      List.filter_eq_self.2 (List.forall_mem_map.2 filled)
    rwa [← settled, same] at put
  refine ⟨bare.map final, kept, ?_, fun calm => kept.eq_of_length_le ?_, fun calm => ?_, ?_⟩
  · rw [settled, missing, List.forall₂_map_left_iff, List.forall₂_map_right_iff]
    exact stands.imp fun _ _ => And.left
  · have unique : (document.tokens.map Cell.index).Nodup :=
      (Places.index_tokens cells parser.stream.size).symm ▸ List.nodup_range
    refine ((unique.of_map.filter _).subperm fun moved member => ?_).length_le
    obtain ⟨listed, put⟩ := List.mem_filter.1 member
    rw [settled] at listed
    obtain ⟨cell, met, rfl⟩ := List.mem_map.1 listed
    have here : cell.synthetic := congrArg Token.synthetic (Places.toToken_final nodup below met) ▸ put
    obtain ⟨name, member, same⟩ :=
      List.mem_map.1 (errorNames.mem_of_met (calm_of_settle calm) cell (gone.met ▸ met) here)
    exact List.mem_map.2 ⟨name, member, Places.final_congr nodup below met same⟩
  · rw [missing]
    exact List.forall_mem_map.2 fun error member => plain error member (calm_of_settle calm)
  · refine owners.mapTokens fun cell owned known => ?_
    obtain ⟨_, member, same⟩ := List.mem_map.1 known
    obtain ⟨name, listed, rfl⟩ := List.mem_map.1 member
    have met : cell ∈ cells := (List.mem_filter.1 (gone.spans.owned_subset owned)).1
    rw [← eq_of_index_final nodup below (sublist.subset listed) met same]
    exact List.mem_map_of_mem listed

theorem Gone.parsed {parser : Parser} {tree : Node} {cells : List Cell}
    (gone : Gone tokens parser tree cells) : Parsed tokens (settle parser tree parser.errors cells) := by
  have nodup := gone.whole ▸ gone.sound.nodup
  have below : ∀ cell ∈ cells, cell.index < parser.stream.size := gone.whole ▸ gone.sound.below
  let final := (Places.ofDocument cells parser.stream.size).final
  have settled : (settle parser tree parser.errors cells).tokens = cells.map final :=
    Places.tokens_eq_map_final nodup below
  have texts : (cells.map final).map Cell.toToken = cells.map Cell.toToken := by
    rw [List.map_map]
    exact List.map_congr_left fun cell member => Places.toToken_final nodup below member
  have kinds : ∀ cell ∈ cells, (final cell).kind = cell.kind := fun cell member =>
    congrArg Token.kind (Places.toToken_final nodup below member)
  have calm : (settle parser tree parser.errors cells).Calm → parser.Calm := calm_of_settle
  have clean : (settle parser tree parser.errors cells).errors = [] → parser.Clean := fun none =>
    Array.toList_inj.1 (by simpa [settle] using none)
  have trail : parser.stream.trail.Sublist (cells.map Cell.index) := by
    rw [gone.whole, TokenStream.document]
    refine List.Sublist.map _ (List.Sublist.append_left ?_ _)
    exact List.Sublist.cons_cons _ (List.nil_sublist _)
  refine ⟨⟨tree.mapTokens final, rfl, ?_, ?_, ?_, ?_, gone.errorNames, ?_⟩, ?_, ?_, ?_, ?_, fun none => ?_,
    fun none => ?_, fun error listed => ?_, ?_⟩
  · rw [Node.kind_mapTokens, gone.kind]
  · rw [settled, significant_map kinds]
    refine (gone.spans.map fun cell member => Places.toToken_final nodup below ?_).mono id fun regular =>
      ⟨regular.laid, calm regular.calm⟩
    exact (List.mem_filter.1 member).1
  · exact fun spaced => (gone.placed spaced).mapTokens final
  · refine gone.literate.mapTokens fun cell owned => Places.toToken_final nodup below ?_
    exact (List.mem_filter.1 (gone.spans.owned_subset owned)).1
  · obtain ⟨before, last, rfl, met, owned⟩ := gone.owned
    refine ⟨before.map final, final last, by simp [settled], ?_, ?_⟩
    · rwa [kinds last (by simp)]
    · rw [Node.tokens_mapTokens]
      exact List.mem_map_of_mem owned
  · have numbers := Places.index_tokens cells parser.stream.size
    rw [settled, List.length_map, ← settled]
    exact numbers
  · rw [settled, texts]
    exact gone.mends
  · intro none
    rw [settled, texts]
    exact gone.quiet (clean none)
  · intro laid quiet error member
    obtain ⟨found, listed, rfl⟩ := List.mem_map.1 member
    exact gone.proper ⟨laid, calm quiet⟩ found listed
  · rw [settled, map_kind_eq kinds]
    exact gone.nested (clean none)
  · have attached : (settle parser tree parser.errors cells).tree.shape = tree.shape :=
      (Node.shape_attachComments ..).trans (Node.shape_mapTokens ..)
    rw [← Node.whole_shape, attached, Node.whole_shape]
    exact gone.intact (clean none)
  · obtain ⟨found, member, rfl⟩ := List.mem_map.1 listed
    obtain ⟨cell, among, same⟩ := List.mem_map.1 (trail.subset (gone.filed.met found member))
    rw [settled]
    exact List.mem_map.2 ⟨cell, among, (Places.final_congr nodup below among same.symm).symm⟩
  · refine List.pairwise_map.2 (gone.filed.inOrder.imp_of_mem fun {error next} first _ follows => ?_)
    rcases follows with here | behind
    · obtain ⟨cell, among, same⟩ := List.mem_map.1 (trail.subset (gone.filed.met error first))
      rw [Places.final_congr nodup below among same.symm,
        Places.final_congr nodup below among (here.symm.trans same.symm)]
    · exact (Places.final_lt nodup below (behind.trans trail)).le

/-- A parse of tokens that the dialect defines, the last of which ends the file, gives a document. -/
theorem ofTokens?_ok (limits : Limits) (options : ParseOptions) (defined : ∀ token ∈ tokens, d.defines token.kind)
    (ended : EndsOnce (tokens.map (·.kind))) :
    ∃ document, ofTokens? limits d options tokens = .ok document ∧ Parsed tokens document := by
  obtain ⟨stream, parser, tree, cells, opens, parses, gone⟩ := parse_ok limits options defined ended
  refine ⟨_, ?_, gone.parsed⟩
  rw [ofTokens?, opens]
  simp only [bind, Except.bind, parses]
  rfl

/-- A parse of a text gives a document. -/
theorem ofText?_ok (limits : Limits) (d : Dialect) (options : ParseOptions) (text : String) :
    ∃ document, ofText? limits d options text = .ok document ∧ Parsed (lex d text) document :=
  ofTokens?_ok limits options (fun token member => (genuine_lex d text token member).defined)
    (endsOnce_lex d text)

/-- Repair aside, the tokens of a document are those of the text. -/
theorem Parsed.lexed_eq {text : String} {document : Document} (parsed : Parsed (lex d text) document) :
    document.lexed = lex d text :=
  parsed.mends.unmended_eq fun token member => (genuine_lex d text token member).real

/-- The layout of the tokens of a text is in order. -/
theorem regular_lex (d : Dialect) (text : String) {document : Document} (calm : document.Calm) :
    Regular (lex d text) document :=
  ⟨laid_lex d text, calm⟩

/-- The tokens are of the dialect, and the last of them, and no other one, ends the file. -/
structure WellFormed (d : Dialect) (tokens : List Token) : Prop where
  defined : ∀ token ∈ tokens, d.defines token.kind
  ended : EndsOnce (tokens.map (·.kind))

/-- The tokens of a text are well-formed, and all well-formed tokens are parsed, in whatever order they come. -/
theorem parse_total (limits : Limits) (d : Dialect) (options : ParseOptions) :
    (∀ text, WellFormed d (lex d text)) ∧ ∀ tokens, WellFormed d tokens →
      ∃ document, ofTokens? limits d options tokens = .ok document ∧ document.tree.kind = .document := by
  refine ⟨fun text => ⟨fun token member => (genuine_lex d text token member).defined, endsOnce_lex d text⟩,
    fun tokens wellFormed => ?_⟩
  obtain ⟨document, parses, parsed⟩ := ofTokens?_ok limits options wellFormed.defined wellFormed.ended
  obtain ⟨tree, attached, root, -⟩ := parsed.tree
  refine ⟨document, parses, ?_⟩
  rw [attached]
  exact (Node.kind_attachComments tree document.tokens).trans root

end TolerantParser.Document
