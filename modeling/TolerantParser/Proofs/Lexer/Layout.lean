import TolerantParser.Proofs.Lexer.Cuts
import TolerantParser.Proofs.Parser.Moves

/-!
The layout of a text. The tokens that the lexer gives end with the end of the file and nowhere before it,
and their layout is in order: as many blocks end as begin, and each logical line is closed by its line end.
What carries the induction is that so many blocks are open as the scan has columns besides the outermost
(`Tidy`), and that a statement that has begun goes on or is ended (`Follows`).
-/

namespace TolerantParser

variable {d : Dialect} {lines : LineIndex}

theorem structural_of_isLayout {kind : TokenKind} (layout : kind.isLayout) :
    kind ≠ .endOfFile ∧ kind ≠ .comment := by
  cases kind <;> first | decide | cases layout

theorem structural_of_isInline {kind : TokenKind} (inline : kind.isInline) :
    kind ≠ .endOfFile ∧ kind ≠ .comment := by
  cases kind <;> first | decide | cases inline

/-! ### The end of the file -/

theorem EndsOnce.ne_nil {kinds : List TokenKind} (ended : EndsOnce kinds) : kinds ≠ [] := by
  obtain ⟨before, rfl, -⟩ := ended
  simp

theorem EndsOnce.behind {before rest : List TokenKind} (ended : EndsOnce rest)
    (others : .endOfFile ∉ before) : EndsOnce (before ++ rest) :=
  (endsOnce_append ended.ne_nil).2 ⟨others, ended⟩

theorem Laid.ne_nil {level : Nat} {kinds : List TokenKind} (laid : Laid level kinds) : kinds ≠ [] := by
  cases laid <;> exact List.cons_ne_nil _ _

namespace Scan

theorem endsOnce_finish (s : Scan) : EndsOnce ((s.finish lines).map (·.kind)) := by
  have last : EndsOnce [(s.cut lines .endOfFile 0).1.kind] := endsOnce_single.2 rfl
  rw [finish, List.map_append]
  refine last.behind fun member => ?_
  rw [List.map_append, List.mem_append, List.map_replicate, List.mem_replicate] at member
  rcases member with line | ⟨-, same⟩
  · split at line
    · simp [detached] at line
    · cases line
  · cases same

theorem Cuts.endsOnce {s : Scan} {tokens : List Token} (cuts : Cuts d lines s tokens) :
    EndsOnce (tokens.map (·.kind)) := by
  induction cuts with
  | ends => exact endsOnce_finish _
  | skip _ _ ih => exact ih
  | comment _ _ ih => exact (endsOnce_cons ih.ne_nil).2 ⟨nofun, ih⟩
  | newline _ _ ih => exact (endsOnce_cons ih.ne_nil).2 ⟨nofun, ih⟩
  | @layout s _ column _ _ ih =>
    rw [List.map_append]
    refine ih.behind fun member => ?_
    obtain ⟨token, listed, same⟩ := List.mem_map.1 member
    exact (structural_of_isLayout (genuine_indent (d := d) s column token listed).2).1 same
  | @lexeme s _ _ _ _ ih =>
    exact (endsOnce_cons ih.ne_nil).2 ⟨(structural_of_isInline (isLexeme_scanLexeme s.rest).1).1, ih⟩

/-! ### Blocks -/

/-- The kinds that the parser meets. -/
def met (tokens : List Token) : List TokenKind := (tokens.map (·.kind)).filter (· != .comment)

@[simp] theorem met_append (tokens more : List Token) : met (tokens ++ more) = met tokens ++ met more := by
  simp [met]

theorem met_cons {token : Token} (tokens : List Token) (plain : token.kind ≠ .comment) :
    met (token :: tokens) = token.kind :: met tokens := by
  simp [met, plain]

/-- The outermost block begins at the left, and no statement has begun before the first token of a line. -/
structure Tidy (s : Scan) : Prop where
  outermost : ∃ inner, s.columns = inner ++ [0]
  between : s.atLineStart → s.inStatement = false

/-- What can follow a scan: layout in order, and more of a line that has begun. -/
structure Follows (s : Scan) (kinds : List TokenKind) : Prop where
  laid : Laid (s.columns.length - 1) kinds
  goesOn : s.inStatement → ∀ kind ∈ kinds.head?, Mode.line.Stands kind

theorem laid_replicate {level : Nat} {rest : List TokenKind} (count : Nat) (laid : Laid level rest) :
    Laid (level + count) (List.replicate count .dedent ++ rest) := by
  induction count with
  | zero => exact laid
  | succ count ih => exact .closes ih

theorem follows_finish (s : Scan) : Follows s (met (s.finish lines)) := by
  have dedents : met (List.replicate (s.columns.length - 1) (s.detached lines .dedent)) =
      List.replicate (s.columns.length - 1) .dedent := by
    simp [met, detached]
  have last : met [(s.cut lines .endOfFile 0).1] = [.endOfFile] := rfl
  have closed := laid_replicate (s.columns.length - 1) Laid.last
  rw [Nat.zero_add] at closed
  rw [finish, met_append, met_append, dedents, last, List.append_assoc]
  split
  next => exact ⟨.line closed, fun _ kind head => by simp_all [met, detached, Mode.Stands]⟩
  next outside => exact ⟨closed, fun inside => absurd inside outside⟩

/-- Blocks that end leave the outermost one open. -/
theorem layoutAt_columns (column : Nat) {columns : List Nat} (outermost : ∃ inner, columns = inner ++ [0]) :
    ∃ kept, (∃ inner, kept = inner ++ [0]) ∧ (layoutAt column columns).dedents + kept.length = columns.length ∧
      (layoutAt column columns).columns = if (layoutAt column columns).opens then column :: kept else kept := by
  obtain ⟨inner, rfl⟩ := outermost
  have last : [0].dropWhile (column < ·) = [0] := by simp
  have kept : ∃ rest, (inner ++ [0]).dropWhile (column < ·) = rest ++ [0] := by
    rw [List.dropWhile_append, last]
    split
    · exact ⟨[], rfl⟩
    · exact ⟨_, rfl⟩
  exact ⟨_, kept, dedents_layoutAt column _, columns_layoutAt column _⟩

theorem Tidy.indent {s : Scan} (tidy : s.Tidy) (column : Nat) : (s.indent lines column).2.Tidy := by
  obtain ⟨kept, ⟨inner, rfl⟩, -, columns⟩ := layoutAt_columns column tidy.outermost
  refine ⟨?_, fun here => by cases here⟩
  show ∃ inner, (layoutAt column s.columns).columns = inner ++ [0]
  rw [columns]
  split
  · exact ⟨column :: inner, rfl⟩
  · exact ⟨inner, rfl⟩

theorem follows_indent {s : Scan} (tidy : s.Tidy) (atLineStart : s.atLineStart) (column : Nat)
    {kinds : List TokenKind} (later : Follows (s.indent lines column).2 kinds) :
    Follows s (met (s.indent lines column).1 ++ kinds) := by
  obtain ⟨kept, ⟨inner, whole⟩, count, columns⟩ := layoutAt_columns column tidy.outermost
  have longer : 0 < kept.length := by simp [whole]
  have laid : Laid ((layoutAt column s.columns).columns.length - 1) kinds := later.laid
  have opened : Laid (kept.length - 1)
      (met (if (layoutAt column s.columns).opens then [s.detached lines .indent] else []) ++ kinds) := by
    rw [columns] at laid
    split
    next opens =>
      rw [if_pos opens, List.length_cons, Nat.add_sub_cancel, ← Nat.sub_add_cancel longer] at laid
      exact .opens laid
    next stays =>
      rw [if_neg stays] at laid
      exact laid
  have closed := laid_replicate (layoutAt column s.columns).dedents opened
  have level : kept.length - 1 + (layoutAt column s.columns).dedents = s.columns.length - 1 := by omega
  refine ⟨?_, fun inside => by simp [tidy.between atLineStart] at inside⟩
  rw [level] at closed
  simpa [Scan.indent, met, detached] using closed

theorem Cuts.follows {s : Scan} {tokens : List Token} (cuts : Cuts d lines s tokens) (tidy : s.Tidy) :
    Follows s (met tokens) := by
  induction cuts with
  | ends => exact follows_finish _
  | skip count _ ih =>
    have later := ih ⟨tidy.outermost, tidy.between⟩
    exact ⟨later.laid, later.goesOn⟩
  | comment count _ ih =>
    have later := ih ⟨tidy.outermost, tidy.between⟩
    exact ⟨later.laid, later.goesOn⟩
  | newline count _ ih =>
    have later := ih ⟨tidy.outermost, fun _ => rfl⟩
    rw [met_cons _ (show TokenKind.newline ≠ .comment by decide)]
    exact ⟨.line later.laid, fun _ kind head => .inr (Option.some.inj head).symm⟩
  | @layout s _ column here _ ih =>
    rw [met_append]
    exact follows_indent tidy here column (ih (tidy.indent column))
  | @lexeme s tokens inside _ _ ih =>
    have later := ih ⟨tidy.outermost, fun here => by simp [significant, cut, inside] at here⟩
    have inline : (s.significant d lines).1.kind.isInline := (isLexeme_scanLexeme s.rest).1
    rw [met_cons _ (structural_of_isInline inline).2]
    refine ⟨?_, fun _ kind head => .inl ?_⟩
    · have laid : Laid (s.columns.length - 1) (met tokens) := later.laid
      obtain ⟨next, rest, kinds⟩ := List.exists_cons_of_ne_nil laid.ne_nil
      rw [kinds] at laid ⊢
      exact .inline inline (later.goesOn rfl next (by simp [kinds])) laid
    · obtain rfl := Option.some.inj head
      exact inline

end Scan

theorem endsOnce_lex (d : Dialect) (text : String) : EndsOnce ((lex d text).map (·.kind)) :=
  (lex_cuts d text).endsOnce

theorem laid_lex (d : Dialect) (text : String) : Laid 0 (Scan.met (lex d text)) :=
  ((lex_cuts d text).follows ⟨⟨[], rfl⟩, fun _ => rfl⟩).laid

end TolerantParser
