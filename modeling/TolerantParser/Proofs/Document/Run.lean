import TolerantParser.Proofs.Document.Parsing
import TolerantParser.Proofs.Stream.Corresponding
import TolerantParser.Proofs.Tree.Sketch

/-!
What a document is made from: the run over its statements, from the first token to the end of the file. A document
has its tokens from the stream that the run leaves, the statements for the children of its root, and the errors of the
run. In it a token is known by its rank, the number of tokens in front of it that are no comments.
-/

namespace TolerantParser

open TokenStream (Steps significant)

/-! ### Runs -/

/-- Where nothing but comments has been gone over a document may begin. -/
theorem Parser.ready_opened {stream : TokenStream} (options : ParseOptions) (sound : stream.Sound)
    (rests : stream.Rests) (behind : significant stream.behind = []) :
    Ready False .block .outermost (Parser.ofStream stream options).opened := by
  let p : Parser := .ofStream stream options
  have awaited : awaitedAfter [] p.passed = some [] := by
    have comments : p.passed.filter (· != .comment) = [] := by
      rw [Parser.passed, List.map_reverse, List.filter_reverse, List.reverse_eq_nil_iff, List.filter_map,
        List.map_eq_nil_iff]
      exact behind
    rw [← awaitedAfter_filter, comments]
    rfl
  exact ⟨sound, rests, by simp [Parser.opened], fun orderly => orderly.1.elim, fun _ => awaited⟩

/-- A run over the statements of a document. It begins on a stream over all tokens and leaves the parser at the end of
the file; `own` are the tokens that no statement has taken, and `last` is the stream when everything has been read. -/
structure Document.Run (limits : Limits) (d : Dialect) (options : ParseOptions) (tokens : List Token) where
  stream : TokenStream
  body : List Node
  left : Parser
  own : Array Cell
  last : TokenStream
  opens : TokenStream.ofTokens 0 d options.onDemand tokens = .ok stream
  sound : stream.Sound
  rests : stream.Rests
  dialect : stream.dialect = d
  whole : stream.tokens = tokens
  behind : significant stream.behind = []
  takes : Parser.documentBody (Parser.full limits) (Parser.ofStream stream options).opened = .ok body left
  ended : left.cell.kind = .endOfFile
  held : left.collectors = [own]
  finishes : TokenStream.finish left.stream = .ok last.document last
  steps : Steps left.stream [] last
  read : last.unread = []

namespace Document.Run

variable {limits : Limits} {d : Dialect} {options : ParseOptions} {tokens : List Token}
  (run : Run limits d options tokens)

/-- The parser when the run begins. -/
def begun : Parser := (Parser.ofStream run.stream options).opened

theorem ready : Parser.Ready False .block .outermost run.begun :=
  Parser.ready_opened options run.sound run.rests run.behind

/-- The tree of a run, without comments. -/
def tree : Node :=
  .make .document .none run.stream.current (run.own.toList ++ [run.left.cell]) (.ofList (several .body run.body))

/-- The parser when everything has been read. -/
def finished : Parser := { run.left with engine := { run.left.engine with stream := run.last }, collectors := [] }

def document : Document := settle run.finished run.tree run.left.errors run.last.document

theorem parses : parse limits (.ofStream run.stream options) =
    .ok (run.tree, run.left.errors, run.last.document) run.finished := by
  let p : Parser := .ofStream run.stream options
  let r : Parser := { run.left with collectors := Parser.grow [run.left.cell] run.left.collectors }
  have collectors : r.collectors = Parser.grow (run.own.toList ++ [run.left.cell]) p.opened.collectors := by
    show Parser.grow [run.left.cell] run.left.collectors = _
    rw [run.held, show p.opened.collectors = [#[]] from rfl, Parser.grow, Parser.grow]
    exact congrArg ([·]) (Array.toList_inj.1 (by simp))
  obtain ⟨closes, around⟩ := Parser.close_ok collectors
  have makes : Parser.document (Parser.full limits) p = .ok run.tree r.closed := by
    have looks : (get : ParseM Parser) run.left = .ok run.left run.left := rfl
    have takes : Parser.take run.left.cell run.left = .ok run.left.cell r :=
      TokenStream.bind_ok (Parser.collect_eq [run.left.cell] run.left) _
    rw [Parser.document, Parser.build_ok ((TokenStream.bind_ok run.takes _).trans ((TokenStream.bind_ok looks _).trans
      (TokenStream.bind_ok (TokenStream.discard_ok takes) _)))]
    exact TokenStream.bind_ok closes _
  have outside : r.closed.collectors = [] := around
  have ends : Parser.finish r.closed = .ok run.left.errors r.closed := by
    simp only [Parser.finish, bind, EStateM.bind, TokenStream.get_ok, outside]
    rfl
  have reads : Parser.onStream TokenStream.finish r.closed = .ok run.last.document run.finished := by
    simp only [Parser.onStream, Parser.onEngine, Engine.onStream]
    rw [show r.closed.engine.stream = run.left.stream from rfl, run.finishes, finished, outside]
    rfl
  rw [parse, TokenStream.bind_ok makes, TokenStream.bind_ok ends, TokenStream.bind_ok reads]
  rfl

end Document.Run

/-- Tokens that the dialect defines, the last of which ends the file, are run over. -/
theorem Document.ofTokens?_runs (limits : Limits) {d : Dialect} (options : ParseOptions) {tokens : List Token}
    (defined : ∀ token ∈ tokens, d.defines token.kind) (ended : EndsOnce (tokens.map (·.kind))) :
    ∃ run : Run limits d options tokens, ofTokens? limits d options tokens = .ok run.document := by
  obtain ⟨stream, opens, sound, rests, dialect, whole, behind⟩ :=
    TokenStream.ofTokens_eq 0 options.onDemand defined ended
  obtain ⟨body, left, pieces, takes, moves, ready, -, ends⟩ :=
    Parser.documentBody_takes (Parser.ready_opened options sound rests behind)
  obtain ⟨last, finishes, steps, read⟩ := TokenStream.finish_eq ready.sound
  have held : left.collectors = [(tokensOf pieces).toArray] := by
    rw [moves.collectors]
    simp [Parser.opened, Parser.grow, Parser.ofStream]
  let run : Run limits d options tokens :=
    { stream, body, left, own := (tokensOf pieces).toArray, last, opens, sound, rests, dialect, whole, behind,
      takes, ended := ends, held, finishes, steps, read }
  refine ⟨run, ?_⟩
  have parses := run.parses
  rw [ofTokens?, opens]
  simp only [bind, Except.bind]
  rw [show (run.stream = stream) from rfl] at parses
  rw [parses]
  rfl

/-- What a run has given. -/
theorem Document.Run.gone {d : Dialect} {options : ParseOptions} {tokens : List Token}
    (run : Run limits d options tokens)
    (defined : ∀ token ∈ tokens, d.defines token.kind) (ended : EndsOnce (tokens.map (·.kind))) :
    Gone tokens run.finished run.tree run.last.document := by
  obtain ⟨stream, parser, tree, cells, opens, parses, gone⟩ := parse_ok limits options defined ended
  obtain rfl : run.stream = stream := Except.ok.inj (run.opens.symm.trans opens)
  obtain ⟨same, rfl⟩ := EStateM.Result.ok.inj (run.parses.symm.trans parses)
  obtain ⟨rfl, rest⟩ := Prod.mk.inj same
  exact (Prod.mk.inj rest).2 ▸ gone

/-! ### Tokens by rank -/

/-- How many tokens that are no comments stand in front of a token of the document. -/
def Document.rank (document : Document) (cell : Cell) : Nat :=
  ((document.tokens.take cell.index).filter (·.kind != .comment)).length

/-- Of two tokens that are no comments the later one has the higher rank. -/
theorem Document.rank_lt {document : Document}
    (numbered : document.tokens.map Cell.index = List.range document.tokens.length) {cell other : Cell}
    (listed : cell ∈ document.tokens) (met : cell.kind ≠ .comment) (before : cell.index < other.index) :
    document.rank cell < document.rank other := by
  obtain ⟨place, here⟩ := List.mem_iff_getElem?.1 listed
  have index : cell.index = place := by
    have number := congrArg (·[place]?) numbered
    simp only [List.getElem?_map, here, Option.map_some] at number
    rw [List.getElem?_range (List.getElem?_eq_some_iff.1 here).1] at number
    exact Option.some.inj number
  have reached : (document.tokens.take (place + 1)) = document.tokens.take place ++ [cell] := by
    rw [List.take_succ_eq_append_getElem (List.getElem?_eq_some_iff.1 here).1, (List.getElem?_eq_some_iff.1 here).2]
  have part : document.tokens.take (place + 1) <+: document.tokens.take other.index :=
    List.take_prefix_take_left (by omega)
  have counted := (part.filter (·.kind != .comment)).length_le
  rw [reached, List.filter_append, List.length_append, show [cell].filter (·.kind != .comment) = [cell] by simp [met]]
    at counted
  rw [rank, rank, index]
  exact Nat.lt_of_succ_le counted

/-- No two tokens that are no comments have the same rank. -/
theorem Document.eq_of_rank {document : Document}
    (numbered : document.tokens.map Cell.index = List.range document.tokens.length) {cell other : Cell}
    (listed : cell ∈ document.tokens) (listed' : other ∈ document.tokens) (met : cell.kind ≠ .comment)
    (met' : other.kind ≠ .comment) (same : document.rank cell = document.rank other) : cell = other := by
  have nodup : (document.tokens.map Cell.index).Nodup := numbered ▸ List.nodup_range
  refine List.inj_on_of_nodup_map nodup listed listed' ?_
  rcases Nat.lt_trichotomy cell.index other.index with less | equal | more
  · exact absurd same (Nat.ne_of_lt (rank_lt numbered listed met less))
  · exact equal
  · exact absurd same (Nat.ne_of_gt (rank_lt numbered listed' met' more))

namespace Document.Run

variable {limits : Limits} {d : Dialect} {options : ParseOptions} {tokens : List Token}
  (run : Run limits d options tokens)

/-- What a token has become in the document. -/
def final (cell : Cell) : Cell := (Places.ofDocument run.last.document run.last.size).final cell

theorem tokens_document : run.document.tokens = run.last.document.map run.final :=
  Places.tokens_eq_map_final run.steps.sound.nodup run.steps.sound.below

theorem texts_document : run.document.tokens.map Cell.toToken = run.last.document.map Cell.toToken := by
  rw [run.tokens_document, List.map_map]
  exact List.map_congr_left fun cell member =>
    Places.toToken_final run.steps.sound.nodup run.steps.sound.below member

theorem kinds_document : run.document.tokens.map (·.kind) = run.last.document.map (·.kind) := by
  have texts := congrArg (List.map Token.kind) run.texts_document
  rw [List.map_map, List.map_map] at texts
  exact texts

/-- What can be seen of the tokens of a document, besides the comments. -/
theorem views_document : run.last.views =
    ((run.document.tokens.map Cell.toToken).filter (·.kind != .comment)).map Token.view := by
  rw [TokenStream.views, TokenStream.tokens, run.read, List.append_nil, run.texts_document]

theorem numbered_document : run.document.tokens.map Cell.index = List.range run.document.tokens.length := by
  have numbers := Places.index_tokens run.last.document run.last.size
  rw [run.tokens_document, List.length_map, ← run.tokens_document]
  exact numbers

/-- In the document a token is what its number stands for. -/
theorem final_ranked {cell : Cell} {rank : Nat} (ranked : run.last.Ranked cell.index rank) :
    (run.final cell).kind ≠ .comment ∧ run.document.rank (run.final cell) = rank ∧
      run.last.views[rank]? = some (run.final cell).view ∧ run.final cell ∈ run.document.tokens := by
  obtain ⟨before, found, after, split, same, met, length⟩ := ranked.split
  have here : (found, before.length) ∈ run.last.document.zipIdx := by
    rw [List.mk_mem_zipIdx_iff_getElem?, split]
    simp
  have final : run.final cell = found.renumber before.length := by
    rw [Run.final, Places.final, ← same, Places.found_eq run.steps.sound.nodup run.steps.sound.below here]
    rfl
  have listed : run.final cell ∈ run.document.tokens := by
    rw [final, ← show run.final found = _ from Places.final_eq run.steps.sound.nodup run.steps.sound.below here,
      run.tokens_document]
    exact List.mem_map_of_mem (by simp [split])
  rw [final] at listed ⊢
  refine ⟨met, ?_, ?_, listed⟩
  · have kinds := congrArg (List.take before.length) run.kinds_document
    rw [← List.map_take, ← List.map_take, split, List.take_left] at kinds
    have counted := congrArg (fun kinds => (kinds.filter (· != .comment)).length) kinds
    simp only [List.filter_map, List.length_map] at counted
    exact counted.trans length
  · have comments : ∀ cells : List Cell, ((cells.map Cell.toToken).filter (·.kind != .comment)).map Token.view =
        (significant cells).map fun cell => cell.view := fun cells => by
      rw [List.filter_map, List.map_map]
      rfl
    have kept : (found.kind != .comment) = true := bne_iff_ne.2 met
    have listed : significant (before ++ found :: after) = significant before ++ found :: significant after := by
      simp [significant, kept]
    rw [TokenStream.views, TokenStream.tokens, run.read, List.append_nil, comments, split, listed, List.map_append,
      ← length]
    simp [Cell.renumber]

end Document.Run

end TolerantParser
