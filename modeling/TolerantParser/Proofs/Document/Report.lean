import TolerantParser.Proofs.Document.Charges
import TolerantParser.Proofs.Lexer.HollowBlocks
import TolerantParser.Proofs.Parser.CoreSteps

/-!
What the errors of a document tell. They come out in the order of the tokens they are about: each is found at the
cursor, which no step of the core moves back, and where a statement is given up, the errors that were found in it go
with it. Each of them is told on one line, so the lines of a report are the errors.

A report without errors tells most. The parse of a text records an error before it passes over anything that does not
belong where it stands, before it puts anything in, and before it leaves a value out. That a block lacks statements it
finds where a block is missing, but not where one is begun by a line that nothing comes of.
-/

namespace TolerantParser

/-! ### The order of the errors -/

/-- No step of the core moves the cursor back. -/
theorem Parser.Reached.trail {marks : List Checkpoint} {p : Parser} (reached : Reached marks p) (step : CoreStep) :
    p.stream.trail.Sublist (Parser.after (step.run p)).stream.trail := by
  obtain ⟨sound, rests, -⟩ := reached.sound
  obtain ⟨q, moved, taken, left, course, leaves⟩ := after_course step sound rests
  rw [leaves]
  exact course.trail

/-- Every error is about the token of the document that has its number, and errors about later tokens come later. None
is about a token before that of the first. Until a parse goes back, the tokens up to its cursor stay before it. -/
theorem Document.errors_inOrder (limits : Limits) (d : Dialect) (options : ParseOptions) (text : String) :
    (∃ document, Document.ofText? limits d options text = .ok document ∧
      (∀ error ∈ document.errors, document.tokens[error.cell.index]? = some error.cell) ∧
      document.errors.Pairwise (·.cell.index ≤ ·.cell.index) ∧
      ∀ first ∈ document.errors.head?, ∀ error ∈ document.errors, first.cell.index ≤ error.cell.index) ∧
    ∀ marks p (step : CoreStep), Parser.Reached marks p →
      p.stream.trail.Sublist (Parser.after (step.run p)).stream.trail := by
  obtain ⟨document, parses, parsed⟩ := Document.ofText?_ok limits d options text
  refine ⟨⟨document, parses, fun error listed => ?_, parsed.inOrder, fun first leads error listed => ?_⟩,
    fun marks p step reached => reached.trail step⟩
  · obtain ⟨place, here⟩ := List.mem_iff_getElem?.1 (parsed.located error listed)
    have numbered : (document.tokens.map Cell.index)[place]? = some error.cell.index := by
      rw [List.getElem?_map, here]
      rfl
    rw [parsed.numbered, List.getElem?_eq_some_iff] at numbered
    obtain ⟨within, same⟩ := numbered
    rw [List.getElem_range] at same
    exact same ▸ here
  · obtain ⟨rest, whole⟩ := List.head?_eq_some_iff.1 leads
    have inOrder := parsed.inOrder
    rw [whole] at inOrder listed
    rcases List.mem_cons.1 listed with rfl | later
    · exact le_refl _
    · exact List.rel_of_pairwise_cons inOrder later

/-! ### Their lines -/

theorem ErrorKind.oneLine_code (kind : ErrorKind) : OneLine kind.spec.code.toList :=
  oneLine_append (by decide) (by cases kind <;> decide)

/-- Besides its message an error tells of a place and a code. -/
theorem ParseError.oneLine_describe {error : ParseError} (oneLine : OneLine error.message.toList) :
    OneLine error.describe.toList ∧ error.describe.toList ≠ [] := by
  have place : OneLine s!"{error.cell.first.line}:{error.cell.first.column}".toList :=
    oneLine_append (oneLine_append (oneLine_toString _) (by decide)) (oneLine_toString _)
  have whole : error.describe = s!"{error.cell.first.line}:{error.cell.first.column}" ++ ": " ++ error.code ++ ": " ++
      error.message := rfl
  constructor
  · rw [whole]
    exact oneLine_append (oneLine_append (oneLine_append (oneLine_append place (by decide)) error.kind.oneLine_code)
      (by decide)) oneLine
  · rw [whole]
    simp

/-- The lines of a report are what its errors are told by, if each of them is told on one line. -/
theorem splitLines_reportErrors {errors : List ParseError} (oneLine : ∀ error ∈ errors, OneLine error.message.toList) :
    splitLines (reportErrors errors none).toList = errors.map (·.describe.toList) := by
  have texts : (reportErrors errors none).toList = ['\n'].intercalate (errors.map (·.describe.toList)) := by
    rw [reportErrors, String.toList_intercalate, List.map_map]
    simp [Function.comp_def]
  rw [texts]
  refine splitLines_intercalate fun text member => ?_
  obtain ⟨error, listed, rfl⟩ := List.mem_map.1 member
  exact ParseError.oneLine_describe (oneLine error listed)

/-- Every error of a text is told without a line break of any kind, and the lines of the report without a path are the
errors, one after another. -/
theorem Document.report_lines (limits : Limits) (d : Dialect) (options : ParseOptions) (text : String) :
    ∃ document, ofText? limits d options text = .ok document ∧
      (∀ error ∈ document.errors, OneLine error.describe.toList) ∧
      splitLines (reportErrors document.errors none).toList = document.errors.map (·.describe.toList) := by
  obtain ⟨run, parses⟩ := ofTokens?_runs limits options (fun token member => (genuine_lex d text token member).defined)
    (endsOnce_lex d text)
  have oneLine : ∀ error ∈ run.document.errors, OneLine error.message.toList := fun error member => by
    obtain ⟨found, listed, rfl⟩ := List.mem_map.1 member
    exact (run.onward (worded_lex d text)).steady.oneLine found listed
  exact ⟨run.document, parses, fun error member => (ParseError.oneLine_describe (oneLine error member)).1,
    splitLines_reportErrors oneLine⟩

/-! ### No errors -/

/-- The tokens of a document are those of the text, but for what repair put in. If no error is reported, they are those
of the text as they were, no token is an error or was put in, all brackets are closed by one of their own sort in the
right order, and every key of a dictionary has a value. -/
theorem Document.clean_report (limits : Limits) (d : Dialect) (options : ParseOptions) (text : String) :
    ∃ document, Document.ofText? limits d options text = .ok document ∧ document.lexed = lex d text ∧
      (document.errors = [] →
        document.tokens.map Cell.toToken = lex d text ∧
        (∀ cell ∈ document.tokens, cell.kind ≠ .error ∧ cell.synthetic = false) ∧
        Nests (document.tokens.map (·.kind)) ∧
        ∀ node ∈ document.tree.listed, node.kind = .dict → none ∉ node.entries .values) := by
  obtain ⟨document, parses, parsed⟩ := Document.ofText?_ok limits d options text
  refine ⟨document, parses, parsed.lexed_eq, fun clean => ⟨parsed.quiet clean, fun cell member => ⟨fun error => ?_, ?_⟩,
    ?_, ?_⟩⟩
  · refine error_notMem_of_awaitedAfter (parsed.nested clean) ?_
    rw [← error]
    exact List.mem_map_of_mem member
  · have lexed : cell.toToken ∈ lex d text := parsed.quiet clean ▸ List.mem_map_of_mem member
    exact (genuine_lex d text _ lexed).real
  · exact nests_of_awaitedAfter (parsed.nested clean)
  · exact fun node listed dict => ((parsed.intact clean).listed listed).values dict

/-- If no error is reported, every statement that is to hold a block has one with statements in it. The only exception
is where a block of the text ends as it begins, with the text left off in a line that holds nothing but a hidden line
end. -/
theorem Document.blocks_filled (limits : Limits) (d : Dialect) (options : ParseOptions) (text : String) :
    ∃ document, Document.ofText? limits d options text = .ok document ∧ (document.errors = [] →
      ∀ node ∈ document.tree.listed, node.kind.holdsBlock → node.entries .body = [] →
        [.indent, .dedent] <:+: Scan.met (lex d text) ∧ EndsHollow text.toList) := by
  obtain ⟨document, parses, parsed⟩ := Document.ofText?_ok limits d options text
  refine ⟨document, parses, fun clean node listed holds empty => ?_⟩
  have adjacent : [.indent, .dedent] <:+: Scan.met (lex d text) := by
    by_contra apart
    exact (parsed.intact clean).filled listed ⟨laid_lex d text, apart⟩ holds empty
  exact ⟨adjacent, endsHollow_lex d text adjacent⟩

end TolerantParser
