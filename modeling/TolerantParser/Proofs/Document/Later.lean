import TolerantParser.Proofs.Document.Run
import TolerantParser.Proofs.Lexer.Leaps
import TolerantParser.Proofs.Lexer.Strides
import TolerantParser.Proofs.Statement.Replay

/-!
Later dialects of the 2.x series accept what earlier ones accept. Where two dialects cut a text into tokens of the same
kinds and texts, they cut it into the same tokens; and over the same tokens the later dialect repeats a parse in which
the earlier one finds no error.
-/

namespace TolerantParser

variable {limits : Limits} {later d d' : Dialect} {lines : LineIndex}

/-! ### Texts with the same tokens -/

namespace Scan

/-- Another dialect makes the same stride, but for the lexeme at its end. -/
theorem Stride.recast {s : Scan} {tokens : List Token} {next? : Option Scan} (d' : Dialect)
    (stride : Stride d lines s tokens next?) : Stride d' lines s tokens next? ∨ ∃ layout t,
      (tokens, next?) = (layout ++ [(significant t d lines).1], some (significant t d lines).2) ∧
        Stride d' lines s (layout ++ [(significant t d' lines).1]) (some (significant t d' lines).2) := by
  cases stride with
  | ends blank => exact .inl (.ends blank)
  | comment split blank body => exact .inl (.comment split blank body)
  | passed split blank ends here => exact .inl (.passed split blank ends here)
  | newline split blank ends inside outside => exact .inl (.newline split blank ends inside outside)
  | joined split blank ends => exact .inl (.joined split blank ends)
  | lexeme split blank starts => exact .inr ⟨_, _, rfl, .lexeme split blank starts⟩

/-- A token is cut in the same way if it is to have the same text. -/
theorem cut_congr (s : Scan) (lines : LineIndex) (kind : TokenKind) {count count' : Nat}
    (same : s.rest.take count = s.rest.take count') : s.cut lines kind count = s.cut lines kind count' := by
  have behind : s.rest.drop count = s.rest.drop count' := by
    have whole := (List.take_append_drop count s.rest).trans (List.take_append_drop count' s.rest).symm
    rw [same] at whole
    exact List.append_cancel_left whole
  simp only [cut, same, behind]

/-- A lexeme of the same kind and text leads to the same scan. -/
theorem significant_congr {s : Scan} (same : (s.significant d lines).1.word = (s.significant d' lines).1.word) :
    s.significant d lines = s.significant d' lines := by
  simp only [significant] at same ⊢
  obtain ⟨kind, text⟩ := Prod.mk.inj same
  have kinds : (scanLexeme d s.rest).1 = (scanLexeme d' s.rest).1 := kind
  have taken : s.rest.take (scanLexeme d s.rest).2 = s.rest.take (scanLexeme d' s.rest).2 := String.ofList_inj.1 text
  rw [kinds, s.cut_congr lines _ taken]

/-- Tokens of the same kinds and texts are the same tokens. -/
theorem Strides.agree {s : Scan} {tokens : List Token} (d' : Dialect) (strides : Strides d lines s tokens)
    (same : tokens.map Token.word = (s.collect d' lines #[]).toList.map Token.word) :
    tokens = (s.collect d' lines #[]).toList := by
  induction strides with
  | last stride =>
    rcases stride.recast d' with stride' | ⟨layout, t, ends, -⟩
    · exact (Strides.last stride').collect_eq.symm
    · cases ends
  | step stride _ ih =>
    rcases stride.recast d' with stride' | ⟨layout, t, ends, stride'⟩
    · rw [stride'.collect_eq, List.map_append, List.map_append] at same
      rw [stride'.collect_eq, ih (List.append_cancel_left same)]
    · cases ends
      simp only [stride'.collect_eq, List.append_assoc, List.map_append, List.map_cons, List.cons_append,
        List.nil_append] at same
      obtain ⟨word, rest⟩ := List.cons.inj (List.append_cancel_left same)
      rw [← significant_congr word] at rest
      rw [stride'.collect_eq, ih rest, significant_congr word]

end Scan

theorem lex_congr {text : String} (same : (lex d text).map Token.word = (lex d' text).map Token.word) :
    lex d text = lex d' text :=
  (lex_strides d text).agree d' same

/-! ### Parses in a later dialect -/

namespace TokenStream

/-- Whoever makes a stream has read it from its first token, which the dialect defines. -/
theorem reads_of_ofTokens {serial : Nat} {onDemand : Bool} {tokens : List Token} {s : TokenStream}
    (opens : ofTokens serial d onDemand tokens = .ok s) : ∃ token unread, throughEnd tokens = token :: unread ∧
      d.defines token.kind ∧ (do unless onDemand do readAll
                                 settle : StreamM Unit)
        { serial, dialect := d, behind := [], current := ⟨token, 0⟩, ahead := [], unread, size := 1 } = .ok () s := by
  unfold ofTokens at opens
  split at opens
  next => cases opens
  next token unread whole =>
    cases required : d.require token.kind with
    | error =>
      rw [required] at opens
      cases opens
    | ok =>
      rw [required] at opens
      simp only [bind, Except.bind] at opens
      split at opens
      next reads =>
        cases opens
        exact ⟨token, unread, whole, Dialect.defines_of_require required, reads⟩
      next => cases opens

/-- What the earlier dialect makes a stream of the later one does too. -/
theorem ofTokens_recast {serial : Nat} {onDemand : Bool} {tokens : List Token} {s : TokenStream}
    (newer : later.Extends d) (opens : ofTokens serial d onDemand tokens = .ok s) :
    ofTokens serial later onDemand tokens = .ok (s.recast later) ∧ s.Fits later := by
  have replays : Replays later (do unless onDemand do readAll
                                   settle : StreamM Unit) := by
    cases onDemand with
    | true => exact replays_settle
    | false => exact replays_readAll.bind fun _ => replays_settle
  obtain ⟨token, unread, whole, accepted, reads⟩ := reads_of_ofTokens opens
  have fits : TokenStream.Fits later
      { serial, dialect := d, behind := [], current := ⟨token, 0⟩, ahead := [], unread, size := 1 } := by
    refine ⟨newer, fun cell member => ?_⟩
    obtain rfl : cell = ⟨token, 0⟩ := by simpa [document] using member
    exact accepted
  obtain ⟨again, ends⟩ := replays.runs fits reads
  exact ⟨ofTokens_ok whole (newer.defines accepted) again, ends⟩

end TokenStream

namespace Document

open TolerantParser.Parser (Replays ReplaysTo)

/-- The later dialect repeats the parse of a whole document. -/
theorem replays_parse (limits : Limits) (later : Dialect) : Replays later false false (parse limits) := by
  refine (Parser.replays_document limits later).bind fun tree =>
    ReplaysTo.bind (.seen (fun _ _ => rfl) fun p => ?_) fun errors =>
    (Parser.replays_onStream TokenStream.replays_finish).bind fun cells => .pure id
  exact .ite (.pure id) (.throw _)

/-- A run in which the earlier dialect finds no error is a run of the later one. -/
theorem Run.repeats {options : ParseOptions} {tokens : List Token} (run : Run limits d options tokens)
    (newer : later.Extends d) (clean : run.document.errors = []) : ofTokens? limits later options tokens = .ok
    { run.document with dialect := later } := by
  have quiet : run.finished.Clean := by
    have none : run.left.errors.toList = [] := List.map_eq_nil_iff.1 clean
    exact Array.toList_eq_nil_iff.1 none
  obtain ⟨opens, fits⟩ := TokenStream.ofTokens_recast newer run.opens
  have again := ((replays_parse limits later).runs (p := .ofStream run.stream options) fits run.parses quiet).same nofun
  have same : (Parser.ofStream run.stream options).recast later = .ofStream (run.stream.recast later) options := rfl
  rw [same] at again
  rw [ofTokens?, opens]
  simp only [bind, Except.bind, again]
  rfl

/-- Later dialects of the 2.x series accept what earlier ones do: where a text has the same tokens in both and the
earlier one finds no error, the later one finds none either and gives the same tree. -/
theorem ofText?_later (limits : Limits) {later d : Dialect} (newer : later.Extends d) (options : ParseOptions)
    {text : String} (same : (lex d text).map Token.word = (lex later text).map Token.word) :
    ∃ document document', ofText? limits d options text = .ok document ∧
      ofText? limits later options text = .ok document' ∧
      (document.errors = [] → document'.errors = [] ∧ document'.tree = document.tree ∧
        document'.tokens = document.tokens) := by
  obtain ⟨run, parses⟩ := ofTokens?_runs limits options (fun token member => (genuine_lex d text token member).defined)
    (endsOnce_lex d text)
  obtain ⟨run', parses'⟩ := ofTokens?_runs limits options
    (fun token member => (genuine_lex later text token member).defined) (endsOnce_lex later text)
  refine ⟨run.document, run'.document, parses, parses', fun clean => ?_⟩
  have again := run.repeats newer clean
  simp only [lex_congr same] at again parses ⊢
  rw [parses'] at again
  rw [Except.ok.inj again]
  exact ⟨clean, rfl, rfl⟩

/-- The condition of a comprehension is no conditional expression in the dialect that has them. -/
theorem ofText?_later_condition :
    Dialect.Extends .v26 .v24 ∧
    (lex .v24 "[x for x in y if z]\n").map Token.word = (lex .v26 "[x for x in y if z]\n").map Token.word ∧
    ∃ document document', ofText? .usual .v24 .default "[x for x in y if z]\n" = .ok document ∧
      ofText? .usual .v26 .default "[x for x in y if z]\n" = .ok document' ∧ document.errors = [] ∧
        document'.errors = [] ∧
      document'.tree = document.tree ∧ document'.tokens = document.tokens := by
  have newer : Dialect.Extends .v26 .v24 := by decide
  have same : (lex .v24 "[x for x in y if z]\n").map Token.word =
      (lex .v26 "[x for x in y if z]\n").map Token.word := by
    rw [lex_eq_leaps .v24 rfl, lex_eq_leaps .v26 rfl]
    decide
  obtain ⟨document, document', parses, parses', later⟩ := ofText?_later .usual newer .default same
  have accepted : ((ofText? .usual .v24 .default "[x for x in y if z]\n").toOption.map fun document =>
      document.errors.length) = some 0 := by decide +kernel
  have clean : document.errors = [] := by
    rw [parses] at accepted
    exact List.length_eq_zero_iff.1 (Option.some.inj accepted)
  exact ⟨newer, same, document, document', parses, parses', clean, later clean⟩

end Document

end TolerantParser
