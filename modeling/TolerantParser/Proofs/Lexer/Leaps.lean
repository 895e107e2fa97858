import TolerantParser.Lexer.Basic

/-!
The scan with a bound on its strides. It goes by recursion on the bound, so the tokens of a text that is given can be
worked out in a proof (`lex_eq_leaps`), and a text has no more strides than characters. Where an opening parenthesis
stands the operators are not looked up, so that very many of them can be passed.
-/

namespace TolerantParser

/-! ### Opening parentheses -/

theorem operatorKind?_leftParen (d : Dialect) {spelling : List Char} (first : spelling.head? = some '(')
    (more : 1 < spelling.length) : d.operatorKind? (String.ofList spelling) = none := by
  have alone : ∀ pair ∈ d.operators, pair.1.toList.head? = some '(' → pair.1.toList.length = 1 := by
    cases d <;> decide
  cases found : d.operatorKind? (String.ofList spelling) with
  | none => rfl
  | some kind =>
    obtain ⟨before, after, split, -⟩ := List.lookup_eq_some_iff.1 found
    have single := alone (String.ofList spelling, kind) (by simp [split])
    rw [String.toList_ofList] at single
    have one := single first
    omega

/-- No operator goes on behind an opening parenthesis. -/
theorem scanLexeme_leftParen (d : Dialect) (rest : List Char) : scanLexeme d ('(' :: rest) = (.leftParen, 1) := by
  have here : d.operatorKind? "(" = some .leftParen := by cases d <;> decide
  have longer : ∀ length, 1 < length → (if (('(' :: rest).take length).length == length then
      (d.operatorKind? (String.ofList (('(' :: rest).take length))).map fun kind => (kind, length) else none) =
        none := fun length more => by
    split
    next whole =>
      rw [operatorKind?_leftParen d ?_ (by simpa [eq_of_beq whole] using more)]
      · rfl
      · cases length with
        | zero => cases more
        | succ => rfl
    next => rfl
  have operator : longestOperator? d ('(' :: rest) = some (.leftParen, 1) := by
    rw [longestOperator?, List.findSome?_cons, List.findSome?_cons, List.findSome?_cons]
    dsimp only
    rw [longer 3 (by omega), longer 2 (by omega)]
    exact congrArg (Option.map fun kind => (kind, 1)) here
  have notString : stringMarkLength? d ('(' :: rest) = none := rfl
  have notName : startsName d.features '(' = false := by cases d <;> decide
  rw [scanLexeme, notString]
  dsimp only
  rw [List.head?_cons, Option.any_some, notName, operator]
  rfl

namespace Scan

/-- One stride, without a look at the operators where an opening parenthesis stands. -/
def leap (s : Scan) (d : Dialect) (lines : LineIndex) : List Token × Option Scan :=
  match s.rest, s.atLineStart with
  | '(' :: _, false =>
    let (token, next) := s.cut lines .leftParen 1
    ([token], some { next with depth := next.depth + 1, inStatement := true })
  | _, _ => s.step d lines

theorem leap_eq (s : Scan) (d : Dialect) (lines : LineIndex) : s.leap d lines = s.step d lines := by
  unfold leap
  split
  next rest split inside =>
    obtain ⟨_, offset, gap, columns, depth, _, inStatement, lastLine⟩ := s
    obtain rfl : _ = '(' :: rest := split
    obtain rfl : _ = false := inside
    have bare : skip ⟨'(' :: rest, offset, gap, columns, depth, false, inStatement, lastLine⟩ 0 =
        ⟨'(' :: rest, offset, gap, columns, depth, false, inStatement, lastLine⟩ := by simp [skip]
    rw [step, show ('(' :: rest).takeWhile isBlank = [] from rfl, List.length_nil, bare]
    dsimp only
    simp only [if_neg (show ¬ ('(' == '#') = true by decide), if_neg (show ¬ isLineEndChar '(' = true by decide),
      show ('(' == '\\') = false from rfl, Bool.false_and, Bool.false_eq_true, if_false, significant]
    rw [scanLexeme_leftParen]
    rfl
  next => rfl

/-- The tokens of so many strides. -/
def leaps (d : Dialect) (lines : LineIndex) : Nat → Scan → List Token
  | 0, _ => []
  | count + 1, s =>
    match s.leap d lines with
    | (more, none) => more
    | (more, some next) => more ++ next.leaps d lines count

theorem leaps_eq {d : Dialect} {lines : LineIndex} {count : Nat} {s : Scan} (enough : s.rest.length < count) :
    s.leaps d lines count = (s.collect d lines #[]).toList := by
  induction count generalizing s with
  | zero => cases enough
  | succ count ih =>
    rw [leaps, leap_eq]
    rcases stepped : s.step d lines with ⟨more, _ | next⟩
    · rw [toList_collect_none stepped]
    · have shorter := step_shorter stepped
      rw [toList_collect_some stepped]
      dsimp only
      rw [ih (by omega)]

end Scan

theorem lex_eq_leaps (d : Dialect) {text : String} {chars : List Char} (same : text.toList = chars) :
    lex d text = (Scan.start chars).leaps d (.ofChars chars) (chars.length + 1) := by
  subst same
  exact (Scan.leaps_eq (s := .start text.toList) (Nat.lt_succ_self _)).symm

end TolerantParser
