import Mathlib.Data.List.TakeWhile
import TolerantParser.Proofs.Lexer.Cuts

/-!
What one stride of the lexer can be. Behind the blanks at the front there is the end of the text, a comment,
a line end that counts or one that does not, a line end that is hidden, or a lexeme (`Stride`). Each form
fixes the stride and every stride has one of the forms, so a run over a text is a list of strides
(`Strides`), and another text that can be cut into strides of the same forms is lexed in the same way.
-/

namespace TolerantParser

variable {d : Dialect} {lines : LineIndex}

/-! ### What stands at the front of a text -/

/-- Blanks of a line. -/
def Blanks (text : List Char) : Prop := ∀ c ∈ text, isBlank c

/-- A line end with the text behind it: a carriage return alone has no line feed behind it. -/
inductive IsLineEnd : List Char → List Char → Prop
  | lf (rest : List Char) : IsLineEnd ['\n'] rest
  | crlf (rest : List Char) : IsLineEnd ['\r', '\n'] rest
  | cr {rest : List Char} : rest.head? ≠ some '\n' → IsLineEnd ['\r'] rest

/-- A comment up to the end of its line. -/
structure IsComment (body rest : List Char) : Prop where
  marked : body.head? = some '#'
  inline : ∀ c ∈ body, isLineEndChar c = false
  ended : ∀ c ∈ rest.head?, isLineEndChar c

/-- A lexeme starts here. -/
structure StartsLexeme (c : Char) (tail : List Char) : Prop where
  notBlank : isBlank c = false
  notComment : c ≠ '#'
  notLineEnd : isLineEndChar c = false
  notJoined : c = '\\' → ∀ next ∈ tail.head?, isLineEndChar next = false

theorem IsLineEnd.length {ending rest : List Char} (ends : IsLineEnd ending rest) :
    lineEndLength (ending ++ rest) = ending.length := by
  cases ends with
  | lf | crlf => rfl
  | @cr _ alone =>
    cases rest with
    | nil => rfl
    | cons c tail =>
      have other : c ≠ '\n' := by simpa using alone
      unfold lineEndLength
      split
      next same => simp_all
      next => rfl

theorem IsLineEnd.head {ending rest : List Char} (ends : IsLineEnd ending rest) :
    ∃ c tail, ending ++ rest = c :: tail ∧ isLineEndChar c ∧ isBlank c = false := by
  cases ends <;> exact ⟨_, _, rfl, by decide, by decide⟩

theorem exists_isLineEnd {c : Char} (tail : List Char) (ends : isLineEndChar c) :
    ∃ ending rest, c :: tail = ending ++ rest ∧ IsLineEnd ending rest := by
  simp only [isLineEndChar, Bool.or_eq_true, beq_iff_eq] at ends
  rcases ends with rfl | rfl
  · exact ⟨_, _, rfl, .lf tail⟩
  · by_cases pair : tail.head? = some '\n'
    · obtain ⟨rest, rfl⟩ := List.head?_eq_some_iff.1 pair
      exact ⟨_, _, rfl, .crlf rest⟩
    · exact ⟨_, _, rfl, .cr pair⟩

theorem takeWhile_blanks {blanks front : List Char} (blank : Blanks blanks)
    (ended : ∀ c ∈ front.head?, isBlank c = false) : (blanks ++ front).takeWhile isBlank = blanks := by
  rw [List.takeWhile_append_of_pos blank]
  cases front with
  | nil => simp
  | cons c tail => simp [ended c rfl]

theorem exists_blanks (text : List Char) :
    ∃ blanks front, text = blanks ++ front ∧ Blanks blanks ∧ ∀ c ∈ front.head?, isBlank c = false := by
  refine ⟨text.takeWhile isBlank, text.dropWhile isBlank, List.takeWhile_append_dropWhile.symm,
    fun c member => List.mem_takeWhile_imp member, fun c first => ?_⟩
  have stopped := List.head?_dropWhile_not isBlank text
  rw [Option.mem_def.1 first] at stopped
  simpa using stopped

theorem IsComment.length {body rest : List Char} (comment : IsComment body rest) :
    ((body ++ rest).takeWhile (!isLineEndChar ·)).length = body.length := by
  rw [List.takeWhile_append_of_pos fun c member => by simp [comment.inline c member]]
  cases rest with
  | nil => simp
  | cons c tail => simp [comment.ended c rfl]

theorem exists_isComment (tail : List Char) :
    ∃ body rest, '#' :: tail = body ++ rest ∧ IsComment body rest := by
  refine ⟨'#' :: tail.takeWhile (!isLineEndChar ·), tail.dropWhile (!isLineEndChar ·), ?_, rfl, ?_, ?_⟩
  · rw [List.cons_append, List.takeWhile_append_dropWhile]
  · refine List.forall_mem_cons.2 ⟨by decide, fun c member => ?_⟩
    simpa using List.mem_takeWhile_imp member
  · intro c first
    have stopped := List.head?_dropWhile_not (!isLineEndChar ·) tail
    rw [Option.mem_def.1 first] at stopped
    simpa using stopped

/-! ### Strides -/

namespace Scan

/-- The tokens of the layout in front of what the blanks lead to, and the scan behind it. -/
def layout (s : Scan) (lines : LineIndex) (blanks : List Char) : List Token × Scan :=
  if s.atLineStart then (s.skip blanks.length).indent lines (columnAfter blanks)
  else ([], s.skip blanks.length)

/-- A stride: the form of the text at its front, the tokens it gives, and the scan after it. -/
inductive Stride (d : Dialect) (lines : LineIndex) (s : Scan) : List Token → Option Scan → Prop
  | ends : Blanks s.rest → Stride d lines s ((s.skip s.rest.length).finish lines) none
  | comment {blanks body rest : List Char} : s.rest = blanks ++ (body ++ rest) → Blanks blanks →
      IsComment body rest →
      Stride d lines s [((s.skip blanks.length).cut lines .comment body.length).1]
        (some ((s.skip blanks.length).cut lines .comment body.length).2)
  | passed {blanks ending rest : List Char} : s.rest = blanks ++ (ending ++ rest) → Blanks blanks →
      IsLineEnd ending rest → s.atLineStart ∨ 0 < s.depth →
      Stride d lines s [] (some ((s.skip blanks.length).skip ending.length))
  | newline {blanks ending rest : List Char} : s.rest = blanks ++ (ending ++ rest) → Blanks blanks →
      IsLineEnd ending rest → s.atLineStart = false → s.depth = 0 →
      Stride d lines s [((s.skip blanks.length).cut lines .newline ending.length).1]
        (some ((s.skip blanks.length).cut lines .newline ending.length).2.lineEnded)
  | joined {blanks ending rest : List Char} : s.rest = blanks ++ '\\' :: (ending ++ rest) →
      Blanks blanks → IsLineEnd ending rest →
      Stride d lines s (s.layout lines blanks).1
        (some ((s.layout lines blanks).2.skip (1 + ending.length)))
  | lexeme {blanks : List Char} {c : Char} {tail : List Char} : s.rest = blanks ++ c :: tail →
      Blanks blanks → StartsLexeme c tail →
      Stride d lines s ((s.layout lines blanks).1 ++ [((s.layout lines blanks).2.significant d lines).1])
        (some ((s.layout lines blanks).2.significant d lines).2)

theorem rest_past {s : Scan} {blanks front : List Char} (split : s.rest = blanks ++ front) :
    (s.skip blanks.length).rest = front := by
  rw [rest_skip, split, List.drop_left]

/-- Behind the layout a logical line has begun. -/
theorem inLine_layout (s : Scan) (lines : LineIndex) (blanks : List Char) :
    (s.layout lines blanks).2.atLineStart = false := by
  unfold layout
  split
  next => rfl
  next inside => exact Bool.eq_false_iff.2 inside

theorem inStatement_layout (s : Scan) (lines : LineIndex) (blanks : List Char) :
    (s.layout lines blanks).2.inStatement = s.inStatement := by
  unfold layout
  split <;> rfl

theorem depth_layout (s : Scan) (lines : LineIndex) (blanks : List Char) :
    (s.layout lines blanks).2.depth = s.depth := by
  unfold layout
  split <;> rfl

theorem rest_behindLayout (s : Scan) (lines : LineIndex) (blanks : List Char) :
    (s.layout lines blanks).2.rest = s.rest.drop blanks.length := by
  unfold layout
  split <;> rfl

theorem rest_pastLayout {s : Scan} {blanks front : List Char} (split : s.rest = blanks ++ front) :
    (s.layout lines blanks).2.rest = front := by
  rw [rest_behindLayout, ← rest_skip, rest_past split]

theorem step_behind {s : Scan} {blanks : List Char} {c : Char} {tail : List Char}
    (split : s.rest = blanks ++ c :: tail) (blank : Blanks blanks) (stopped : isBlank c = false) :
    s.step d lines =
      if c == '#' then
        let cut := (s.skip blanks.length).cut lines .comment
          ((c :: tail).takeWhile (!isLineEndChar ·)).length
        ([cut.1], some cut.2)
      else if isLineEndChar c then
        if s.atLineStart || 0 < s.depth then
          ([], some ((s.skip blanks.length).skip (lineEndLength (c :: tail))))
        else
          let cut := (s.skip blanks.length).cut lines .newline (lineEndLength (c :: tail))
          ([cut.1], some cut.2.lineEnded)
      else if c == '\\' && tail.head?.any isLineEndChar then
        ((s.layout lines blanks).1,
          some ((s.layout lines blanks).2.skip (1 + lineEndLength tail)))
      else
        let cut := (s.layout lines blanks).2.significant d lines
        ((s.layout lines blanks).1 ++ [cut.1], some cut.2) := by
  have blanks' : s.rest.takeWhile isBlank = blanks := by
    rw [split]
    exact takeWhile_blanks blank (by simpa using stopped)
  have front := rest_past split
  unfold step
  simp only [blanks', front]
  rfl

/-- A stride is fixed by its form. -/
theorem Stride.step_eq {s : Scan} {tokens : List Token} {next? : Option Scan}
    (stride : Stride d lines s tokens next?) : s.step d lines = (tokens, next?) := by
  cases stride with
  | ends blank =>
    have all : s.rest.takeWhile isBlank = s.rest := List.takeWhile_eq_self_iff.2 blank
    unfold step
    simp only [all, rest_skip, List.drop_length]
  | @comment blanks body rest split blank comment =>
    have length := comment.length
    obtain ⟨tail, marked⟩ := List.head?_eq_some_iff.1 comment.marked
    have front : body ++ rest = '#' :: (tail ++ rest) := by rw [marked, List.cons_append]
    rw [front] at split length
    rw [step_behind split blank (by decide), if_pos (by decide)]
    simp only [length]
  | @passed blanks ending rest split blank ends here =>
    obtain ⟨c, tail, front, lineEnd, stopped⟩ := ends.head
    have length := ends.length
    rw [front] at split length
    rw [step_behind split blank stopped, if_neg (by rintro hash; simp_all [isLineEndChar]), if_pos lineEnd,
      if_pos (by simpa using here), length]
  | @newline blanks ending rest split blank ends inside outside =>
    obtain ⟨c, tail, front, lineEnd, stopped⟩ := ends.head
    have length := ends.length
    rw [front] at split length
    rw [step_behind split blank stopped, if_neg (by rintro hash; simp_all [isLineEndChar]), if_pos lineEnd,
      if_neg (by simp [inside, outside]), length]
  | @joined blanks ending rest split blank ends =>
    obtain ⟨c, tail, front, lineEnd, -⟩ := ends.head
    have length := ends.length
    rw [front] at split length
    rw [step_behind split blank (by decide), if_neg (by decide), if_neg (by decide),
      if_pos (by simp [lineEnd]), length]
  | @lexeme blanks c tail split blank starts =>
    have joined : ¬ (c == '\\' && tail.head?.any isLineEndChar) = true := by
      rw [Bool.and_eq_true, beq_iff_eq, Option.any_eq_true]
      rintro ⟨backslash, next, first, lineEnd⟩
      simp [starts.notJoined backslash next first] at lineEnd
    rw [step_behind split blank starts.notBlank, if_neg (by simpa using starts.notComment),
      if_neg (by simp [starts.notLineEnd]), if_neg joined]

/-- Every scan is in front of a stride of one of the forms. -/
theorem stride_step (d : Dialect) (lines : LineIndex) (s : Scan) :
    ∃ tokens next?, Stride d lines s tokens next? := by
  obtain ⟨blanks, front, split, blank, stopped⟩ := exists_blanks s.rest
  cases front with
  | nil =>
    rw [List.append_nil] at split
    exact ⟨_, _, .ends (split ▸ blank)⟩
  | cons c tail =>
    have notBlank := stopped c rfl
    by_cases hash : c = '#'
    · subst hash
      obtain ⟨body, rest, parts, comment⟩ := exists_isComment tail
      exact ⟨_, _, .comment (parts ▸ split) blank comment⟩
    by_cases lineEnd : isLineEndChar c
    · obtain ⟨ending, rest, parts, ends⟩ := exists_isLineEnd tail lineEnd
      rw [parts] at split
      by_cases here : s.atLineStart ∨ 0 < s.depth
      · exact ⟨_, _, .passed split blank ends here⟩
      · rw [not_or, Bool.not_eq_true, Nat.not_lt, Nat.le_zero] at here
        exact ⟨_, _, .newline split blank ends here.1 here.2⟩
    by_cases joined : c = '\\' ∧ ∃ next ∈ tail.head?, isLineEndChar next
    · obtain ⟨rfl, next, first, ends⟩ := joined
      obtain ⟨rest, rfl⟩ := List.head?_eq_some_iff.1 first
      obtain ⟨ending, rest, parts, ends⟩ := exists_isLineEnd rest ends
      rw [parts] at split
      exact ⟨_, _, .joined split blank ends⟩
    · refine ⟨_, _, .lexeme split blank ⟨notBlank, hash, by simpa using lineEnd, fun backslash next first => ?_⟩⟩
      rw [← Bool.not_eq_true]
      exact fun ends => joined ⟨backslash, next, first, ends⟩

/-! ### Runs -/

/-- A token of two lists is in the first or in the second. -/
theorem split_append {tokens more front back : List Token} {token : Token}
    (split : tokens ++ more = front ++ token :: back) :
    (∃ rest, tokens = front ++ token :: rest) ∨ ∃ later, front = tokens ++ later ∧ more = later ++ token :: back := by
  rcases List.append_eq_append_iff.1 split with ⟨later, rfl, behind⟩ | ⟨rest, within, behind⟩
  · exact .inr ⟨later, rfl, behind⟩
  · cases rest with
    | nil => exact .inr ⟨[], by simpa using within.symm, behind.symm⟩
    | cons first rest =>
      obtain ⟨rfl, -⟩ := List.cons.inj behind
      exact .inl ⟨rest, within⟩

/-- The strides of a scan to the end of its text, with the tokens they give. -/
inductive Strides (d : Dialect) (lines : LineIndex) : Scan → List Token → Prop
  | last {s : Scan} {tokens : List Token} : Stride d lines s tokens none → Strides d lines s tokens
  | step {s next : Scan} {tokens more : List Token} : Stride d lines s tokens (some next) →
      Strides d lines next more → Strides d lines s (tokens ++ more)

theorem strides_collect (s : Scan) (d : Dialect) (lines : LineIndex) :
    Strides d lines s (s.collect d lines #[]).toList := by
  obtain ⟨tokens, next?, stride⟩ := stride_step d lines s
  cases next? with
  | none =>
    rw [toList_collect_none stride.step_eq]
    exact .last stride
  | some next =>
    have later := strides_collect next d lines
    rw [toList_collect_some stride.step_eq]
    exact .step stride later
  termination_by s.rest.length
  decreasing_by exact step_shorter stride.step_eq

/-- What is behind a stride, in the tokens of a scan. -/
theorem Stride.collect_eq {s next : Scan} {tokens : List Token} (stride : Stride d lines s tokens (some next)) :
    (s.collect d lines #[]).toList = tokens ++ (next.collect d lines #[]).toList :=
  toList_collect_some stride.step_eq

/-- A scan that can be taken apart into strides gives their tokens. -/
theorem Strides.collect_eq {s : Scan} {tokens : List Token} (strides : Strides d lines s tokens) :
    (s.collect d lines #[]).toList = tokens := by
  induction strides with
  | last stride => exact toList_collect_none stride.step_eq
  | step stride _ ih => rw [stride.collect_eq, ih]

end Scan

theorem lex_strides (d : Dialect) (text : String) :
    Scan.Strides d (.ofChars text.toList) (.start text.toList) (lex d text) :=
  Scan.strides_collect _ d _

end TolerantParser
