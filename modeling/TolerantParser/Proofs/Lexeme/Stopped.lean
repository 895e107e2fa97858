import Mathlib.Data.List.TakeWhile
import TolerantParser.Lexeme.Basic

/-!
Where lexemes stop. A blank, a line end, the mark of a comment and a comma belong to a lexeme only inside of a string
literal. So what a lexeme is does not depend on the text behind such a character: not on what comes after it, nor on
which of them it is, unless a literal is not closed.
-/

namespace TolerantParser

variable {d : Dialect} {f : Features} {p : Char → Bool} {text rest rest' : List Char}

/-! ### Characters that stop a lexeme -/

def isStopper (c : Char) : Bool := isBlank c || isLineEndChar c || c == '#' || c == ','

/-- Nothing of the text belongs to a lexeme in front of it. -/
def Stopped (rest : List Char) : Prop := ∀ c ∈ rest.head?, isStopper c

/-- A property that no stopper has. -/
def Passes (p : Char → Bool) : Prop := ∀ c, isStopper c → p c = false

theorem mem_of_isStopper {c : Char} (stops : isStopper c) : c ∈ [' ', '\t', '\x0c', '\n', '\r', '#', ','] := by
  simpa [isStopper, isBlank, isLineEndChar, or_assoc] using stops

theorem passes_of_all (none : [' ', '\t', '\x0c', '\n', '\r', '#', ','].all (!p ·)) : Passes p := fun c stops => by
  simpa using List.all_eq_true.1 none c (mem_of_isStopper stops)

theorem passes_isDigit : Passes Char.isDigit := passes_of_all (by decide)

theorem passes_isStringMark : Passes isStringMark := passes_of_all (by decide)

theorem passes_isQuote : Passes isQuote := passes_of_all (by decide)

theorem passes_startsName : Passes (startsName f) := fun c stops => by
  have plain : c ≠ '_' := by
    rintro rfl
    cases stops
  have other : isLetter c = false := passes_of_all (p := isLetter) (by decide) c stops
  simp [startsName, plain, other]

theorem passes_continuesName : Passes (continuesName f) := fun c stops => by
  have plain : c ≠ '_' := by
    rintro rfl
    cases stops
  have other : isAlphanumeric c = false := passes_of_all (p := isAlphanumeric) (by decide) c stops
  simp [continuesName, plain, other]

theorem passes_radixDigit {mark : Char} {isDigit : Char → Bool} (radix : radixDigit? f mark = some isDigit) :
    Passes isDigit := by
  unfold radixDigit? at radix
  split at radix
  · cases radix
    exact passes_of_all (by decide)
  split at radix
  · cases radix
    exact passes_of_all (by decide)
  split at radix
  · cases radix
    exact passes_of_all (by decide)
  · cases radix

namespace Stopped

theorem takeWhile (stopped : Stopped rest) (passes : Passes p) :
    (text ++ rest).takeWhile p = text.takeWhile p := by
  rw [List.takeWhile_append]
  split
  next all =>
    have whole : text.takeWhile p = text := (List.takeWhile_prefix p).eq_of_length all
    cases rest with
    | nil => simpa using whole.symm
    | cons c rest => simpa [passes c (stopped c rfl)] using whole.symm
  next => rfl

theorem head (stopped : Stopped rest) (passes : Passes p) : (text ++ rest).head?.any p = text.head?.any p := by
  cases text with
  | cons => rfl
  | nil =>
    cases rest with
    | nil => rfl
    | cons c rest => simpa using passes c (stopped c rfl)

end Stopped

/-! ### Numbers -/

theorem fractionLength_stopped (stopped : Stopped rest) (text : List Char) :
    fractionLength (text ++ rest) = fractionLength text ∧ fractionLength text ≤ text.length := by
  cases text with
  | nil =>
    cases rest with
    | nil => exact ⟨rfl, Nat.le_refl _⟩
    | cons c rest =>
      have plain : c ≠ '.' := by
        rintro rfl
        cases stopped _ rfl
      simp [fractionLength, plain]
  | cons c text =>
    unfold fractionLength
    split
    next same =>
      obtain ⟨rfl, rfl⟩ := List.cons.inj same
      simp [stopped.takeWhile passes_isDigit, Nat.add_comm, (List.takeWhile_prefix _).length_le]
    next other =>
      split
      next same => simp_all
      next => simp

/-- The length of the sign at the front of the digits of an exponent. -/
def signLength : List Char → Nat
  | s :: _ => if s == '+' || s == '-' then 1 else 0
  | [] => 0

theorem exponentLength_cons (c : Char) (text : List Char) : exponentLength (c :: text) =
    if c == 'e' || c == 'E' then
      if ((text.drop (signLength text)).takeWhile Char.isDigit).length = 0 then 0
      else 1 + signLength text + ((text.drop (signLength text)).takeWhile Char.isDigit).length
    else 0 := by
  cases text <;> rfl

theorem signLength_stopped (stopped : Stopped rest) (text : List Char) :
    signLength (text ++ rest) = signLength text ∧ signLength text ≤ text.length := by
  cases text with
  | cons c text =>
    refine ⟨rfl, ?_⟩
    rw [signLength, List.length_cons]
    split <;> omega
  | nil =>
    cases rest with
    | nil => exact ⟨rfl, Nat.le_refl _⟩
    | cons c rest =>
      have plain := passes_of_all (p := fun s => s == '+' || s == '-') (by decide) c (stopped c rfl)
      simp only [List.nil_append, signLength, plain]
      exact ⟨rfl, Nat.le_refl _⟩

theorem exponentLength_stopped (stopped : Stopped rest) (text : List Char) :
    exponentLength (text ++ rest) = exponentLength text ∧ exponentLength text ≤ text.length := by
  cases text with
  | nil =>
    cases rest with
    | nil => exact ⟨rfl, Nat.le_refl _⟩
    | cons c rest =>
      have plain := passes_of_all (p := fun c => c == 'e' || c == 'E') (by decide) c (stopped c rfl)
      rw [List.nil_append, exponentLength_cons, if_neg (Bool.eq_false_iff.1 plain)]
      exact ⟨rfl, Nat.le_refl _⟩
  | cons c text =>
    obtain ⟨sign, within⟩ := signLength_stopped stopped text
    have shorter := (List.takeWhile_prefix Char.isDigit (l := text.drop (signLength text))).length_le
    rw [List.length_drop] at shorter
    rw [List.cons_append, exponentLength_cons, exponentLength_cons, sign, List.drop_append_of_le_length within,
      stopped.takeWhile passes_isDigit, List.length_cons]
    refine ⟨rfl, ?_⟩
    split
    · split <;> omega
    · exact Nat.zero_le _

theorem longSuffixLength_stopped (stopped : Stopped rest) (text : List Char) :
    longSuffixLength f (text ++ rest) = longSuffixLength f text := by
  cases text with
  | cons => rfl
  | nil =>
    cases rest with
    | nil => rfl
    | cons c rest =>
      have plain := passes_of_all (p := fun c => c == 'l' || c == 'L') (by decide) c (stopped c rfl)
      simp [longSuffixLength, plain]

theorem scanDecimal_stopped (stopped : Stopped rest) (text : List Char) :
    scanDecimal f (text ++ rest) = scanDecimal f text := by
  unfold scanDecimal
  simp only [stopped.takeWhile passes_isDigit,
    List.drop_append_of_le_length (List.takeWhile_prefix Char.isDigit (l := text)).length_le]
  generalize text.takeWhile Char.isDigit = whole
  generalize text.drop whole.length = text
  obtain ⟨fraction, within⟩ := fractionLength_stopped stopped text
  simp only [fraction, List.drop_append_of_le_length within]
  generalize text.drop (fractionLength text) = behind
  obtain ⟨power, within⟩ := exponentLength_stopped stopped behind
  simp only [power, List.drop_append_of_le_length within]
  generalize behind.drop (exponentLength behind) = last
  rw [longSuffixLength_stopped stopped last]
  cases last with
  | cons c last => by_cases small : c = 'j' <;> by_cases great : c = 'J' <;> simp_all
  | nil =>
    cases rest with
    | nil => rfl
    | cons c rest =>
      have plain := passes_of_all (p := fun c => c == 'j' || c == 'J') (by decide) c (stopped c rfl)
      simp_all

theorem startsNumber_stopped (stopped : Stopped rest) (text : List Char) :
    startsNumber (text ++ rest) = startsNumber text := by
  match text with
  | [] =>
    cases rest with
    | nil => rfl
    | cons c rest =>
      have plain : c ≠ '.' := by
        rintro rfl
        cases stopped _ rfl
      simp [startsNumber, passes_isDigit c (stopped c rfl), plain]
  | [c] =>
    cases rest with
    | nil => rfl
    | cons other rest =>
      by_cases point : c = '.'
      · subst point
        simpa [startsNumber] using passes_isDigit other (stopped other rfl)
      · simp [startsNumber, point]
  | c :: other :: text =>
    by_cases point : c = '.'
    · subst point
      rfl
    · simp [startsNumber, point]

theorem scanNumber_stopped (stopped : Stopped rest) (text : List Char) :
    scanNumber f (text ++ rest) = scanNumber f text := by
  match text with
  | [] =>
    cases rest with
    | nil => rfl
    | cons c rest =>
      have plain : c ≠ '0' := by
        rintro rfl
        cases stopped _ rfl
      simpa [scanNumber, plain] using scanDecimal_stopped (f := f) stopped []
  | [c] =>
    cases rest with
    | nil => rfl
    | cons mark rest =>
      have unmarked : radixDigit? f mark = none := by
        have plain := passes_of_all (p := fun c => ['x', 'X', 'o', 'O', 'b', 'B'].contains c) (by decide) mark
          (stopped mark rfl)
        simp at plain
        simp [radixDigit?, plain]
      by_cases zero : c = '0'
      · subst zero
        simpa [scanNumber, unmarked] using scanDecimal_stopped (f := f) stopped ['0']
      · simpa [scanNumber, zero] using scanDecimal_stopped (f := f) stopped [c]
  | c :: mark :: text =>
    by_cases zero : c = '0'
    · subst zero
      cases radix : radixDigit? f mark with
      | none => simpa [scanNumber, radix] using scanDecimal_stopped (f := f) stopped ('0' :: mark :: text)
      | some isDigit =>
        have passes := passes_radixDigit radix
        simp only [List.cons_append, scanNumber, radix, stopped.takeWhile passes,
          List.drop_append_of_le_length (List.takeWhile_prefix isDigit (l := text)).length_le,
          longSuffixLength_stopped stopped]
    · simpa [scanNumber, zero] using scanDecimal_stopped (f := f) stopped (c :: mark :: text)

/-! ### Names and operators -/

theorem nameLength_stopped (stopped : Stopped rest) (nonempty : text ≠ []) :
    nameLength f (text ++ rest) = nameLength f text ∧ nameLength f text ≤ text.length := by
  obtain ⟨c, text, rfl⟩ := List.exists_cons_of_ne_nil nonempty
  have within := (List.takeWhile_prefix (continuesName f) (l := text)).length_le
  simp only [List.cons_append, nameLength, List.tail_cons, stopped.takeWhile passes_continuesName, List.length_cons]
  exact ⟨trivial, by omega⟩

theorem plain_of_mem_operators {operator : String × TokenKind} (listed : operator ∈ d.operators) :
    operator.1 = "," ∨ operator.1.toList.all (!isStopper ·) := by
  revert operator
  cases d <;> decide

/-- No operator reaches to a stopper. -/
theorem operatorKind?_stopped {c : Char} (stops : isStopper c) {front : List Char} (nonempty : front ≠ [])
    (back : List Char) : d.operatorKind? (String.ofList (front ++ c :: back)) = none := by
  rw [Option.eq_none_iff_forall_ne_some]
  intro kind found
  obtain ⟨before, after, split, -⟩ := List.lookup_eq_some_iff.1 found
  have listed : (String.ofList (front ++ c :: back), kind) ∈ d.operators := by simp [split]
  rcases plain_of_mem_operators listed with comma | plain
  · have single : front ++ c :: back = [','] := String.ofList_inj.1 comma
    obtain ⟨first, front, rfl⟩ := List.exists_cons_of_ne_nil nonempty
    cases front <;> cases (List.cons.inj single).2
  · have here := List.all_eq_true.1 plain c (by simp)
    simp [stops] at here

theorem longestOperator?_stopped (stopped : Stopped rest) (nonempty : text ≠ []) :
    longestOperator? d (text ++ rest) = longestOperator? d text := by
  rw [longestOperator?, longestOperator?]
  refine congrArg ([3, 2, 1].findSome? ·) (funext fun length => ?_)
  dsimp only
  by_cases within : length ≤ text.length
  · rw [List.take_append_of_le_length within]
  have short : ¬ ((text.take length).length == length) = true := by
    rw [beq_iff_eq, List.length_take]
    omega
  rw [if_neg short]
  cases rest with
  | nil => rw [List.append_nil, if_neg short]
  | cons c rest =>
    have reaches : (text ++ c :: rest).take length = text ++ c :: rest.take (length - text.length - 1) := by
      obtain ⟨more, rfl⟩ := Nat.exists_eq_add_of_lt (Nat.lt_of_not_le within)
      rw [List.take_append, List.take_of_length_le (by omega)]
      simp [Nat.add_assoc]
    rw [reaches, operatorKind?_stopped (stopped c rfl) nonempty]
    simp

/-! ### String literals -/

theorem stringMarkLength?_stopped (stopped : Stopped rest) (text : List Char) :
    stringMarkLength? d (text ++ rest) = stringMarkLength? d text := by
  have marks : ((text ++ rest).take 2).takeWhile isStringMark = (text.take 2).takeWhile isStringMark := by
    rw [List.take_append]
    refine Stopped.takeWhile (fun c first => stopped c ?_) passes_isStringMark
    cases rest with
    | nil => simp at first
    | cons other rest =>
      rw [List.head?_take] at first
      split at first
      · cases first
      · exact first
  have within : ((text.take 2).takeWhile isStringMark).length ≤ text.length :=
    Nat.le_trans (List.takeWhile_prefix _).length_le (List.take_prefix 2 text).length_le
  unfold stringMarkLength?
  simp only [marks, List.drop_append_of_le_length within]
  generalize (text.take 2).takeWhile isStringMark = marks
  cases text.drop marks.length with
  | cons => rfl
  | nil =>
    cases rest with
    | nil => rfl
    | cons c rest => simp [passes_isQuote c (stopped c rfl)]

/-- A character that is no backslash with another behind it, nor one at the end, is no backslash. -/
theorem ne_backslash {c : Char} {rest : List Char} (alone : c = '\\' → rest = [] → False)
    (hidden : ∀ next tail, c = '\\' → rest = next :: tail → False) : c ≠ '\\' := fun backslash => by
  cases rest with
  | nil => exact alone backslash rfl
  | cons next tail => exact hidden next tail backslash rfl

theorem closeTriple_plain {quote c : Char} (plain : c ≠ '\\') (rest : List Char) : closeTriple quote (c :: rest) =
    if c == quote && [quote, quote].isPrefixOf rest then some 3 else (closeTriple quote rest).map (· + 1) := by
  cases rest <;> simp [closeTriple, plain]

/-- Three closing quotes are found in what stands in front of them. -/
theorem closeTriple_some {quote : Char} {text : List Char} {length : Nat}
    (closed : closeTriple quote text = some length) :
    ∃ front back, text = front ++ back ∧ front.length = length ∧ 3 ≤ length ∧
      ∀ other, closeTriple quote (front ++ other) = some length := by
  fun_induction closeTriple quote text generalizing length with
  | case1 => cases closed
  | case2 => cases closed
  | case3 c rest ih =>
    obtain ⟨inner, found, rfl⟩ := Option.map_eq_some_iff.1 closed
    obtain ⟨front, back, rfl, rfl, longer, same⟩ := ih found
    exact ⟨'\\' :: c :: front, back, rfl, rfl, by omega, fun other => by simp [closeTriple, same other]⟩
  | case4 c rest alone hidden here =>
    cases closed
    simp only [Bool.and_eq_true, beq_iff_eq, List.isPrefixOf_iff_prefix] at here
    obtain ⟨rfl, back, rfl⟩ := here
    have plain : c ≠ '\\' := fun backslash => hidden c (c :: back) backslash rfl
    exact ⟨[c, c, c], back, rfl, rfl, Nat.le_refl 3, fun other => by simp [closeTriple_plain plain]⟩
  | case5 c rest alone hidden notHere ih =>
    obtain ⟨inner, found, rfl⟩ := Option.map_eq_some_iff.1 closed
    obtain ⟨front, back, rfl, rfl, longer, same⟩ := ih found
    refine ⟨c :: front, back, rfl, rfl, by omega, fun other => ?_⟩
    match front, longer with
    | first :: second :: front, _ =>
      have plain : c ≠ '\\' := fun backslash => hidden first _ backslash rfl
      have missing : ¬ (c == quote && [quote, quote].isPrefixOf (first :: second :: front ++ other)) = true := by
        simpa [List.isPrefixOf] using notHere
      rw [List.cons_append, closeTriple_plain plain, if_neg missing, same other]
      rfl

theorem closeSingle_plain {quote c : Char} (plain : c ≠ '\\') (rest : List Char) : closeSingle quote (c :: rest) =
    if c == quote then (true, 1)
    else if isLineEndChar c then (false, 0)
    else (closeSingle quote rest).map id (· + 1) := by
  cases rest <;> simp [closeSingle, plain]

theorem closeSingle_hidden {quote c : Char} {rest : List Char} (single : c = '\r' → rest.head? ≠ some '\n') :
    closeSingle quote ('\\' :: c :: rest) = (closeSingle quote rest).map id (· + 2) := by
  cases rest with
  | nil => simp [closeSingle]
  | cons other rest =>
    by_cases return' : c = '\r'
    · have plain : other ≠ '\n' := by simpa using single return'
      simp [closeSingle, plain]
    · simp [closeSingle, return']

theorem counted {found : Bool × Nat} {closed : Bool} {more length : Nat}
    (ends : found.map id (· + more) = (closed, length)) : ∃ fewer, found = (closed, fewer) ∧ fewer + more = length := by
  obtain ⟨same, count⟩ := Prod.mk.inj ends
  exact ⟨found.2, Prod.ext same rfl, count⟩

/-- A literal within a line is closed, or left open, by what stands in front of its end and what comes first there. -/
theorem closeSingle_eq {quote : Char} {text : List Char} {closed : Bool} {length : Nat}
    (ends : closeSingle quote text = (closed, length)) :
    ∃ front back, text = front ++ back ∧ front.length = length ∧ (closed = true → front ≠ []) ∧
      ∀ other, (closed = false → other.head? = back.head?) → closeSingle quote (front ++ other) = (closed, length) := by
  fun_induction closeSingle quote text generalizing closed length with
  | case1 =>
    cases ends
    refine ⟨[], [], rfl, rfl, nofun, fun other same => ?_⟩
    rw [List.head?_eq_none_iff.1 (same rfl)]
    rfl
  | case2 =>
    cases ends
    refine ⟨['\\'], [], rfl, rfl, nofun, fun other same => ?_⟩
    rw [List.head?_eq_none_iff.1 (same rfl)]
    rfl
  | case3 rest ih =>
    obtain ⟨fewer, inner, rfl⟩ := counted ends
    obtain ⟨front, back, rfl, rfl, -, same⟩ := ih inner
    refine ⟨'\\' :: '\r' :: '\n' :: front, back, rfl, rfl, fun _ => List.cons_ne_nil _ _, fun other follows => ?_⟩
    simp [closeSingle, same other follows]
  | case4 c rest pair ih =>
    obtain ⟨fewer, inner, rfl⟩ := counted ends
    obtain ⟨front, back, rfl, rfl, filled, same⟩ := ih inner
    refine ⟨'\\' :: c :: front, back, rfl, rfl, fun _ => List.cons_ne_nil _ _, fun other follows => ?_⟩
    -- what comes first behind the return is the same: it is of the literal, or what the literal is left open by
    have first : (front ++ other).head? = (front ++ back).head? := by
      cases front with
      | cons => rfl
      | nil =>
        cases closed with
        | true => exact absurd rfl (filled rfl)
        | false => exact follows rfl
    have single : c = '\r' → (front ++ other).head? ≠ some '\n' := fun return' feed => by
      rw [first] at feed
      obtain ⟨rest, split⟩ := List.head?_eq_some_iff.1 feed
      exact pair rest return' split
    rw [List.cons_append, List.cons_append, closeSingle_hidden single, same other follows]
    rfl
  | case5 c rest alone pair hidden here =>
    cases ends
    have plain := ne_backslash alone hidden
    refine ⟨[c], rest, rfl, rfl, fun _ => List.cons_ne_nil _ _, fun other _ => ?_⟩
    rw [List.singleton_append, closeSingle_plain plain, if_pos here]
  | case6 c rest alone pair hidden notHere stops =>
    cases ends
    have plain : c ≠ '\\' := fun backslash => by
      rw [backslash] at stops
      cases stops
    refine ⟨[], c :: rest, rfl, rfl, nofun, fun other follows => ?_⟩
    obtain ⟨more, rfl⟩ := List.head?_eq_some_iff.1 (follows rfl)
    rw [List.nil_append, closeSingle_plain plain, if_neg notHere, if_pos stops]
  | case7 c rest alone pair hidden notHere goesOn ih =>
    obtain ⟨fewer, inner, rfl⟩ := counted ends
    obtain ⟨front, back, rfl, rfl, filled, same⟩ := ih inner
    have plain := ne_backslash alone hidden
    refine ⟨c :: front, back, rfl, rfl, fun _ => List.cons_ne_nil _ _, fun other follows => ?_⟩
    rw [List.cons_append, closeSingle_plain plain, if_neg notHere, if_neg goesOn, same other follows]
    rfl

theorem isQuote_of_stringMarkLength? {marks : Nat} (found : stringMarkLength? d text = some marks) :
    ∀ c ∈ (text.drop marks).head?, isQuote c := by
  unfold stringMarkLength? at found
  dsimp only at found
  split at found
  next c rest behind =>
    split at found
    next here =>
      cases found
      rw [behind]
      rintro _ ⟨⟩
      exact (Bool.and_eq_true_iff.1 here).1
    next => cases found
  next => cases found

theorem isPrefixOf_stopped {quote : Char} (quotes : isQuote quote) (stopped : Stopped rest) (text : List Char) :
    [quote, quote].isPrefixOf (text ++ rest) = [quote, quote].isPrefixOf text := by
  have never : ∀ {text rest : List Char}, Stopped rest → text = [] → [quote].isPrefixOf (text ++ rest) = false ∧
      [quote, quote].isPrefixOf (text ++ rest) = false := by
    rintro _ rest stopped rfl
    cases rest with
    | nil => exact ⟨rfl, rfl⟩
    | cons c rest =>
      have other : (quote == c) = false := beq_false_of_ne fun same => by
        have none := passes_isQuote c (stopped c rfl)
        rw [← same, quotes] at none
        cases none
      simp [List.isPrefixOf, other]
  match text with
  | [] => exact (never stopped rfl).2
  | [c] => simp [List.isPrefixOf, show [quote].isPrefixOf rest = false from (@never [] rest stopped rfl).1]
  | c :: other :: text => rfl

/-- A string literal does not depend on what stands behind a stopper, if it is closed, and otherwise on nothing but the
first character there. -/
theorem scanString_stopped {marks : Nat} {word more : List Char} {kind : TokenKind}
    (cut : scanString marks (word ++ (more ++ rest)) = (kind, word.length))
    (quoted : ∀ c ∈ ((word ++ (more ++ rest)).drop marks).head?, isQuote c) (stopped : Stopped rest)
    (stopped' : Stopped rest') (same : kind = .error → rest.head? = rest'.head?) :
    scanString marks (word ++ (more ++ rest')) = (kind, word.length) := by
  -- an open literal may take in the whole text
  have through : kind = .error → (word ++ (more ++ rest)).length = word.length → more ++ rest' = more ++ rest :=
    fun error all => by
      have nothing : more = [] ∧ rest = [] := by
        rw [← List.append_eq_nil_iff, ← List.length_eq_zero_iff]
        rw [List.length_append] at all
        omega
      have none := same error
      rw [nothing.2, List.head?_nil] at none
      rw [nothing.1, nothing.2, List.head?_eq_none_iff.1 none.symm]
  have front := List.take_append_drop marks (word ++ (more ++ rest))
  generalize whole : word ++ (more ++ rest) = text at cut front quoted through
  unfold scanString at cut
  split at cut
  next quote tail behind =>
    have marked : (text.take marks).length = marks := by
      have nonempty := congrArg List.length behind
      rw [List.length_drop, List.length_cons] at nonempty
      rw [List.length_take]
      omega
    have quotes : isQuote quote := quoted quote (by rw [behind]; rfl)
    rw [behind] at front
    generalize text.take marks = letters at front marked
    subst marked
    subst front
    have again : ∀ opening inner back : List Char, tail = opening ++ inner ++ back →
        word.length = letters.length + 1 + opening.length + inner.length →
          word ++ (more ++ rest') = letters ++ quote :: (opening ++ (inner ++ (more ++ rest'))) ∧
            back = more ++ rest := by
      rintro opening inner back rfl length
      have parts : word ++ (more ++ rest) = (letters ++ quote :: (opening ++ inner)) ++ back := by
        rw [whole]
        simp
      obtain ⟨rfl, rfl⟩ := List.append_inj parts (by rw [length]; simp; omega)
      exact ⟨by simp, rfl⟩
    split at cut
    next triple =>
      obtain ⟨tail, rfl⟩ := List.isPrefixOf_iff_prefix.1 triple
      cases closes : closeTriple quote tail with
      | none =>
        rw [show ([quote, quote] ++ tail).drop 2 = tail from rfl, closes] at cut
        obtain ⟨error, length⟩ := Prod.mk.inj cut
        have behind := through error.symm length
        rw [behind, whole]
        unfold scanString
        simp [closes, ← error, ← length]
      | some length =>
        rw [show ([quote, quote] ++ tail).drop 2 = tail from rfl, closes] at cut
        obtain ⟨rfl, total⟩ := Prod.mk.inj cut
        obtain ⟨inner, back, rfl, rfl, -, closed⟩ := closeTriple_some closes
        obtain ⟨split, -⟩ := again [quote, quote] inner back (by simp) (by simp; omega)
        rw [split]
        unfold scanString
        simp [closed, total]
    next single =>
      cases closes : closeSingle quote tail with
      | mk closed length =>
      rw [closes] at cut
      obtain ⟨rfl, total⟩ := Prod.mk.inj cut
      obtain ⟨inner, back, rfl, rfl, -, closed'⟩ := closeSingle_eq closes
      obtain ⟨split, rfl⟩ := again [] inner back rfl (by simp; omega)
      have single' : ¬ [quote, quote].isPrefixOf (inner ++ (more ++ rest')) = true := by
        rw [← List.append_assoc, isPrefixOf_stopped quotes stopped']
        rwa [← List.append_assoc, isPrefixOf_stopped quotes stopped] at single
      have follows : closed = false → (more ++ rest').head? = (more ++ rest).head? := by
        rintro rfl
        have heads := same rfl
        cases more with
        | nil => exact heads.symm
        | cons => rfl
      rw [split]
      unfold scanString
      simp [single', closed' _ follows, total]
  next behind =>
    obtain ⟨error, length⟩ := Prod.mk.inj cut
    rw [through error.symm length, whole]
    unfold scanString
    rw [behind]
    simp [error, length]

/-- A lexeme does not depend on what stands behind a stopper, nor on which stopper it is, unless it is an error. -/
theorem scanLexeme_stopped {word more : List Char} {kind : TokenKind} (nonempty : word ≠ [])
    (cut : scanLexeme d (word ++ (more ++ rest)) = (kind, word.length)) (stopped : Stopped rest)
    (stopped' : Stopped rest') (same : kind = .error → rest.head? = rest'.head?) :
    scanLexeme d (word ++ (more ++ rest')) = (kind, word.length) := by
  have filled : word ++ more ≠ [] := List.append_ne_nil_of_left_ne_nil nonempty _
  have marks : stringMarkLength? d (word ++ (more ++ rest')) = stringMarkLength? d (word ++ (more ++ rest)) := by
    rw [← List.append_assoc, ← List.append_assoc, stringMarkLength?_stopped stopped, stringMarkLength?_stopped stopped']
  obtain ⟨name, within⟩ := nameLength_stopped (f := d.features) stopped filled
  obtain ⟨name', -⟩ := nameLength_stopped (f := d.features) stopped' filled
  unfold scanLexeme at cut ⊢
  rw [marks]
  cases found : stringMarkLength? d (word ++ (more ++ rest)) with
  | some marks =>
    rw [found] at cut
    exact scanString_stopped cut (isQuote_of_stringMarkLength? found) stopped stopped' same
  | none =>
    rw [found] at cut
    simp only [← List.append_assoc, stopped.head passes_startsName, name, startsNumber_stopped stopped,
      scanNumber_stopped stopped, longestOperator?_stopped stopped filled, List.take_append_of_le_length within] at cut
    simpa only [← List.append_assoc, stopped'.head passes_startsName, name', startsNumber_stopped stopped',
      scanNumber_stopped stopped', longestOperator?_stopped stopped' filled,
      List.take_append_of_le_length within] using cut

end TolerantParser
