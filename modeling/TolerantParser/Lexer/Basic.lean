import TolerantParser.Lexeme.Basic
import TolerantParser.Lexer.Layout
import TolerantParser.Token.Basic

/-!
Cutting a text into tokens. Blank lines, lines that hold only a comment, and line ends inside
brackets give no token; they become part of the next token's lead. The tokens that open and close
blocks, and the line end added to a text that lacks one, are empty and leave the pending lead to the
token after them.

Embeds `_scan` with `_measure_indent`, `_skip_spaces` and `_lex_comment`, `_emit`, `_emit_detached`, `_finish` and
`lex`. What `_scan` puts into its queue is the list that one `step` gives.
-/

namespace TolerantParser

/-- How far a text has been cut. `gap` is the text since the last token that took its lead,
`columns` are the open blocks, `depth` counts open brackets, `atLineStart` tells that no token of
the logical line has been seen, `inStatement` that a logical line waits for its end, and `lastLine`
is the line on which the last token ended. -/
structure Scan where
  rest : List Char
  offset : Nat
  gap : List Char
  columns : List Nat
  depth : Nat
  atLineStart : Bool
  inStatement : Bool
  lastLine : Option Nat
  deriving Repr

namespace Scan

def start (text : List Char) : Scan :=
  { rest := text, offset := 0, gap := [], columns := [0], depth := 0, atLineStart := true,
    inStatement := false, lastLine := none }

/-- Passes over characters that belong to the next token's lead. -/
def skip (s : Scan) (count : Nat) : Scan :=
  let taken := s.rest.take count
  { s with rest := s.rest.drop count, offset := s.offset + taken.length, gap := s.gap ++ taken }

/-- Cuts off a token of `count` characters. -/
def cut (s : Scan) (lines : LineIndex) (kind : TokenKind) (count : Nat) : Token × Scan :=
  let taken := s.rest.take count
  let stop := s.offset + taken.length
  let first := lines.position s.offset
  ({ kind, text := String.ofList taken, lead := String.ofList s.gap, range := ⟨s.offset, stop, by omega⟩,
     first, last := lines.position stop, startsLine := s.lastLine.all (· < first.line),
     synthetic := false },
   { s with
     rest := s.rest.drop count, offset := stop, gap := [],
     lastLine := some (if taken.isEmpty then first.line else (lines.position (stop - 1)).line) })

/-- An empty token that leaves the pending lead alone. -/
def detached (s : Scan) (lines : LineIndex) (kind : TokenKind) : Token :=
  let place := lines.position s.offset
  { kind, text := "", lead := "", range := ⟨s.offset, s.offset, by omega⟩, first := place,
    last := place, startsLine := false, synthetic := false }

/-- The tokens for a line that starts at a column. -/
def indent (s : Scan) (lines : LineIndex) (column : Nat) : List Token × Scan :=
  let change := layoutAt column s.columns
  (List.replicate change.dedents (s.detached lines .dedent) ++
    (if change.opens then [s.detached lines .indent] else []),
   { s with columns := change.columns, atLineStart := false })

/-- The tokens at the end of the text: a line end if a statement waits for one, the ends of the open
blocks, and the end itself, which takes the pending lead. -/
def finish (s : Scan) (lines : LineIndex) : List Token :=
  (if s.inStatement then [s.detached lines .newline] else []) ++
  List.replicate (s.columns.length - 1) (s.detached lines .dedent) ++
  [(s.cut lines .endOfFile 0).1]

/-- The bracket depth after a token. -/
def depthAfter (depth : Nat) (kind : TokenKind) : Nat :=
  if kind.isOpening then depth + 1 else if kind.isClosing then depth - 1 else depth

/-- Cuts off the significant token at the front. -/
def significant (s : Scan) (d : Dialect) (lines : LineIndex) : Token × Scan :=
  let (kind, count) := scanLexeme d s.rest
  let (token, s) := s.cut lines kind count
  (token, { s with depth := depthAfter s.depth kind, inStatement := true })

/-- One stride: the tokens it gives, and the scan after it unless the text has ended. -/
def step (s : Scan) (d : Dialect) (lines : LineIndex) : List Token × Option Scan :=
  let blanks := s.rest.takeWhile isBlank
  let s := s.skip blanks.length
  match s.rest with
  | [] => (s.finish lines, none)
  | c :: tail =>
    if c == '#' then
      let (token, s) := s.cut lines .comment (s.rest.takeWhile (!isLineEndChar ·)).length
      ([token], some s)
    else if isLineEndChar c then
      if s.atLineStart || 0 < s.depth then ([], some (s.skip (lineEndLength s.rest)))
      else
        let (token, s) := s.cut lines .newline (lineEndLength s.rest)
        ([token], some { s with atLineStart := true, inStatement := false })
    else
      let (layout, s) := if s.atLineStart then s.indent lines (columnAfter blanks) else ([], s)
      if c == '\\' && tail.head?.any isLineEndChar then
        (layout, some (s.skip (1 + lineEndLength tail)))
      else
        let (token, s) := s.significant d lines
        (layout ++ [token], some s)

@[simp] theorem rest_skip (s : Scan) (count : Nat) : (s.skip count).rest = s.rest.drop count := rfl

@[simp] theorem rest_cut (s : Scan) (lines : LineIndex) (kind : TokenKind) (count : Nat) :
    (s.cut lines kind count).2.rest = s.rest.drop count := rfl

@[simp] theorem rest_indent (s : Scan) (lines : LineIndex) (column : Nat) :
    (s.indent lines column).2.rest = s.rest := rfl

@[simp] theorem rest_significant (s : Scan) (d : Dialect) (lines : LineIndex) :
    (s.significant d lines).2.rest = s.rest.drop (scanLexeme d s.rest).2 := rfl

/-- Every stride takes at least one character. -/
theorem step_shorter {s next : Scan} {d : Dialect} {lines : LineIndex} {tokens : List Token}
    (stepped : s.step d lines = (tokens, some next)) : next.rest.length < s.rest.length := by
  have unblanked : (s.skip (s.rest.takeWhile isBlank).length).rest.length ≤ s.rest.length := by
    simp
  unfold step at stepped
  dsimp only at stepped
  generalize s.skip (s.rest.takeWhile isBlank).length = t at *
  split at stepped
  · simp at stepped
  next c tail split =>
    have nonempty : t.rest ≠ [] := by simp [split]
    have longer : 0 < t.rest.length := List.length_pos_iff.2 nonempty
    have lineEnd := lineEndLength_pos t.rest
    have lexeme := scanLexeme_pos d nonempty
    split at stepped
    next hash =>
      obtain ⟨-, rfl⟩ := by simpa using stepped
      have : 0 < (t.rest.takeWhile (!isLineEndChar ·)).length := by
        have := eq_of_beq hash
        subst this
        simp [split, isLineEndChar]
      simp only [rest_cut, List.length_drop]
      omega
    · split at stepped
      · split at stepped
        · obtain ⟨-, rfl⟩ := by simpa using stepped
          simp only [rest_skip, List.length_drop]
          omega
        · obtain ⟨-, rfl⟩ := by simpa using stepped
          simp only [List.length_drop]
          omega
      · split at stepped <;> split at stepped <;>
          (obtain ⟨-, rfl⟩ := by simpa using stepped
           simp only [rest_skip, rest_significant, rest_indent, List.length_drop]
           omega)

/-- The tokens given by a scan, behind those already cut. -/
def collect (s : Scan) (d : Dialect) (lines : LineIndex) (tokens : Array Token) : Array Token :=
  match _stepped : s.step d lines with
  | (more, none) => tokens ++ more.toArray
  | (more, some next) => next.collect d lines (tokens ++ more.toArray)
  termination_by s.rest.length
  decreasing_by exact step_shorter _stepped

theorem collect_of_step_none {s : Scan} {d : Dialect} {lines : LineIndex} {more : List Token}
    (tokens : Array Token) (stepped : s.step d lines = (more, none)) :
    s.collect d lines tokens = tokens ++ more.toArray := by
  rw [collect]
  split <;> simp_all

theorem collect_of_step_some {s next : Scan} {d : Dialect} {lines : LineIndex} {more : List Token}
    (tokens : Array Token) (stepped : s.step d lines = (more, some next)) :
    s.collect d lines tokens = next.collect d lines (tokens ++ more.toArray) := by
  rw [collect]
  split <;> simp_all

/-- Tokens cut before do not change those to come. -/
theorem collect_append (s : Scan) (d : Dialect) (lines : LineIndex) (tokens : Array Token) :
    s.collect d lines tokens = tokens ++ s.collect d lines #[] := by
  rcases stepped : s.step d lines with ⟨more, _ | next⟩
  · simp [collect_of_step_none _ stepped]
  · rw [collect_of_step_some _ stepped, collect_of_step_some _ stepped,
      collect_append next d lines (tokens ++ _), collect_append next d lines (#[] ++ _)]
    simp [Array.append_assoc]
  termination_by s.rest.length
  decreasing_by all_goals exact step_shorter stepped

theorem toList_collect_none {s : Scan} {d : Dialect} {lines : LineIndex} {more : List Token}
    (stepped : s.step d lines = (more, none)) : (s.collect d lines #[]).toList = more := by
  simp [collect_of_step_none _ stepped]

theorem toList_collect_some {s next : Scan} {d : Dialect} {lines : LineIndex} {more : List Token}
    (stepped : s.step d lines = (more, some next)) :
    (s.collect d lines #[]).toList = more ++ (next.collect d lines #[]).toList := by
  rw [collect_of_step_some _ stepped, collect_append]
  simp

end Scan

/-- The tokens of a text, the last of them the end of the text. -/
def lex (d : Dialect) (text : String) : List Token :=
  let chars := text.toList
  ((Scan.start chars).collect d (LineIndex.ofChars chars) #[]).toList

end TolerantParser
