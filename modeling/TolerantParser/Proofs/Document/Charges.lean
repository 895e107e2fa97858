import TolerantParser.Proofs.Document.Placeholders
import TolerantParser.Proofs.Document.Spacing
import TolerantParser.Proofs.Lexer.Alone
import TolerantParser.Proofs.Statement.ChargesCompound

/-!
What a text costs. The tokens of a text that a parse meets pay for all that it puts in and finds wrong, so there is no
more of either than of the tokens, but for a factor: constructs that are open around one another are not charged again
for the place where all of them break off.
-/

namespace TolerantParser

/-- The words in front of the conditions of a text are keywords, which have no line breaks. -/
theorem worded_lex (d : Dialect) (text : String) : Worded (lex d text) := by
  intro token member either
  have word : token.kind ∈ d.wordKinds := by
    rcases either with same | same <;> rw [same] <;> cases d <;> decide
  have oneLine : ∀ word ∈ d.keywords, OneLine word.1.toList := by
    cases d <;> decide
  exact oneLine _ (mem_keywords_of_mem_lex member word)

namespace Document

/-- Names that were put in are counted among the tokens of a document. -/
theorem puts_tokens (document : Document) :
    Mends.puts (document.tokens.map Cell.toToken) = document.placeholders.length := by
  rw [Mends.puts, List.countP_map, placeholders, ← List.countP_eq_length_filter]
  rfl

namespace Run

variable {limits : Limits} {d : Dialect} {options : ParseOptions} {tokens : List Token}
  (run : Run limits d options tokens)

theorem steady_begun (worded : Worded tokens) : run.begun.Steady d where
  dialect := run.dialect
  sound := run.sound
  rests := run.rests
  worded := by
    show Worded run.stream.tokens
    rw [run.whole]
    exact worded
  oneLine := List.forall_mem_nil _

/-- What all steps keep the whole run keeps. -/
theorem onward (worded : Worded tokens) : Parser.Onward d run.begun run.left :=
  Parser.after_ok run.takes ▸ (Parser.costs_full limits d).onward (run.steady_begun worded) trivial

/-- At its end the run has spent no more than its tokens pay for. -/
theorem bill_left (worded : Worded tokens) (calm : run.left.Calm) : run.left.bill ≤ run.begun.bill :=
  ((Parser.costs_full limits d).pays (run.steady_begun worded) trivial run.takes calm).trans (add_zero _).le

/-- Before the run nothing has been spent. -/
theorem bill_begun (real : ∀ token ∈ tokens, token.synthetic = false) :
    run.begun.bill = (2 * ((Scan.met tokens).length : Int), 6 * ((Scan.met tokens).length : Int)) := by
  have none : Mends.puts run.stream.tokens = 0 :=
    List.countP_eq_zero.2 fun token member => by simp [real token (run.whole ▸ member)]
  have coming : run.begun.kinds = Scan.met tokens := (kinds_eq_met run.behind).trans (congrArg Scan.met run.whole)
  have clean : run.begun.errors.toList = [] := rfl
  rw [Parser.bill, coming, clean, show run.begun.stream.tokens = run.stream.tokens from rfl, none]
  simp

/-- What the run has spent is in the document. -/
theorem bill_document :
    ((run.document.placeholders.length : Int), (run.document.errors.length : Int)) ≤ run.left.bill := by
  have errors : run.document.errors.length = run.left.errors.toList.length := List.length_map _
  have tokens : run.left.stream.tokens = run.last.document.map Cell.toToken := by
    rw [← run.steps.tokens, TokenStream.tokens, run.read, List.append_nil]
  rw [Parser.bill, tokens, ← run.texts_document, puts_tokens, errors]
  simp only [Prod.mk_le_mk]
  omega

end Run

/-- If no statement of a text nests too deeply, at most twice as many names are put in as there are tokens, the end of
the file included and comments left out, and there are at most six times as many errors. -/
theorem repairs_linear (limits : Limits) (d : Dialect) (options : ParseOptions) (text : String) :
    ∃ document, ofText? limits d options text = .ok document ∧ (document.Calm →
      document.placeholders.length ≤ 2 * (significantTokens d text).length ∧
      document.errors.length ≤ 6 * (significantTokens d text).length) := by
  have genuine := genuine_lex d text
  obtain ⟨run, parses⟩ := ofTokens?_runs limits options (fun token member => (genuine token member).defined)
    (endsOnce_lex d text)
  refine ⟨run.document, parses, fun calm => ?_⟩
  have steady : run.left.Calm := fun error member =>
    calm { error with cell := run.final error.cell } (List.mem_map.2 ⟨error, member, rfl⟩)
  have met : (Scan.met (lex d text)).length = (significantTokens d text).length := by
    rw [Scan.met, List.filter_map, List.length_map]
    rfl
  have spent : ((run.document.placeholders.length : Int), (run.document.errors.length : Int)) ≤
      (2 * ((significantTokens d text).length : Int), 6 * ((significantTokens d text).length : Int)) :=
    calc _ ≤ run.left.bill := run.bill_document
      _ ≤ run.begun.bill := run.bill_left (worded_lex d text) steady
      _ = _ := by rw [run.bill_begun fun token member => (genuine token member).real, met]
  rw [Prod.mk_le_mk] at spent
  exact ⟨by omega, by omega⟩

end Document

end TolerantParser
