import TolerantParser.Proofs.Lexeme.Ended

/-!
Lexemes by themselves. What looks ahead of a lexeme finds nothing there that the lexeme depends on: cut off behind its
last character, the text begins with the same lexeme. So each part of a lexeme is found again where the text ends behind
it (`_take`).
-/

namespace TolerantParser

variable {d : Dialect} {f : Features} {text : List Char} {count : Nat}

/-! ### Numbers -/

theorem takeWhile_take {p : Char → Bool} (enough : (text.takeWhile p).length ≤ count) :
    (text.take count).takeWhile p = text.takeWhile p := by
  rw [← List.take_takeWhile, List.take_of_length_le enough]

theorem fractionLength_take (enough : fractionLength text ≤ count) :
    fractionLength (text.take count) = fractionLength text := by
  cases text with
  | nil => simp
  | cons c rest =>
    by_cases point : c = '.'
    · subst point
      rw [fractionLength] at enough
      obtain ⟨fewer, rfl⟩ := Nat.exists_eq_add_of_le enough
      rw [Nat.add_assoc, Nat.add_comm, List.take_succ_cons, fractionLength, fractionLength,
        takeWhile_take (Nat.le_add_right ..)]
    · have none : ∀ rest, fractionLength (c :: rest) = 0 := fun rest => by simp [fractionLength, point]
      cases count with
      | zero => rw [none]; rfl
      | succ count => rw [List.take_succ_cons, none, none]

theorem signLength_take (filled : 0 < count) : signLength (text.take count) = signLength text := by
  obtain ⟨fewer, rfl⟩ := Nat.exists_eq_add_of_lt filled
  cases text <;> rfl

/-- The digits of an exponent, of which there may be none. -/
theorem exponentDigits_take (filled : 0 < count)
    (enough : ((text.drop (signLength text)).takeWhile Char.isDigit).length ≤ count - signLength text) :
    ((text.take count).drop (signLength (text.take count))).takeWhile Char.isDigit =
      (text.drop (signLength text)).takeWhile Char.isDigit := by
  rw [signLength_take filled, List.drop_take, takeWhile_take enough]

theorem exponentLength_take (enough : exponentLength text ≤ count) :
    exponentLength (text.take count) = exponentLength text := by
  cases text with
  | nil => simp
  | cons c rest =>
    cases count with
    | zero => exact (Nat.le_zero.1 enough).symm
    | succ count =>
      rw [List.take_succ_cons]
      rw [exponentLength_cons] at enough ⊢
      rw [exponentLength_cons]
      by_cases letter : (c == 'e' || c == 'E') = true
      · rw [if_pos letter] at enough ⊢
        rw [if_pos letter]
        cases count with
        | zero =>
          have none : ((rest.drop (signLength rest)).takeWhile Char.isDigit).length = 0 := by
            split at enough <;> omega
          rw [if_pos none]
          rfl
        | succ count =>
          rw [exponentDigits_take (Nat.succ_pos count) (by split at enough <;> omega),
            signLength_take (Nat.succ_pos count)]
      · rw [if_neg letter, if_neg letter]

theorem longSuffixLength_take (enough : longSuffixLength f text ≤ count) :
    longSuffixLength f (text.take count) = longSuffixLength f text := by
  cases text with
  | nil => simp
  | cons c rest =>
    cases count with
    | zero => exact (Nat.le_zero.1 enough).symm
    | succ => rfl

/-- What is made of a number without a radix mark, of which the whole part and the lengths of the fraction and of the
exponent are known, by what is behind these. -/
def decimalEnd (f : Features) (whole : List Char) (fraction power : Nat) (behind : List Char) : TokenKind × Nat :=
  match behind with
  | 'j' :: _ => (.number, whole.length + fraction + power + 1)
  | 'J' :: _ => (.number, whole.length + fraction + power + 1)
  | _ =>
    if 0 < fraction + power then (.number, whole.length + fraction + power)
    else if hasLeadingZero whole && !f.zeroOctal then (.error, whole.length + fraction + power)
    else (.number, whole.length + fraction + power + longSuffixLength f behind)

theorem decimalEnd_le (f : Features) (whole : List Char) (fraction power : Nat) (behind : List Char) :
    whole.length + fraction + power ≤ (decimalEnd f whole fraction power behind).2 := by
  unfold decimalEnd
  split
  · exact Nat.le_add_right ..
  · exact Nat.le_add_right ..
  · split
    · exact Nat.le_refl _
    · split
      · exact Nat.le_refl _
      · exact Nat.le_add_right ..

theorem decimalEnd_plain {c : Char} (plain : c ≠ 'j' ∧ c ≠ 'J') (whole : List Char) (fraction power : Nat)
    (rest : List Char) : decimalEnd f whole fraction power (c :: rest) =
      if 0 < fraction + power then (.number, whole.length + fraction + power)
      else if hasLeadingZero whole && !f.zeroOctal then (.error, whole.length + fraction + power)
      else (.number, whole.length + fraction + power + longSuffixLength f (c :: rest)) := by
  unfold decimalEnd
  split
  · simp_all
  · simp_all
  · rfl

theorem decimalEnd_take {whole behind : List Char} {fraction power : Nat}
    (reaches : (decimalEnd f whole fraction power behind).2 = whole.length + fraction + power + count) :
    decimalEnd f whole fraction power (behind.take count) = decimalEnd f whole fraction power behind := by
  cases behind with
  | nil => simp
  | cons c rest =>
    by_cases small : c = 'j'
    · subst small
      obtain rfl : 1 = count := Nat.add_left_cancel (show _ + 1 = _ from reaches)
      rfl
    by_cases great : c = 'J'
    · subst great
      obtain rfl : 1 = count := Nat.add_left_cancel (show _ + 1 = _ from reaches)
      rfl
    rw [decimalEnd_plain ⟨small, great⟩] at reaches ⊢
    cases count with
    | succ count =>
      rw [List.take_succ_cons, decimalEnd_plain ⟨small, great⟩]
      rfl
    | zero =>
      show (if _ then _ else _) = _
      split
      next => rfl
      next more =>
        rw [if_neg more] at reaches
        split
        next => rfl
        next proper =>
          rw [if_neg proper] at reaches
          rw [show longSuffixLength f (c :: rest) = 0 from Nat.add_left_cancel reaches]
          rfl

theorem scanDecimal_of_parts {whole : List Char} {fraction power : Nat} (digits : text.takeWhile Char.isDigit = whole)
    (point : fractionLength (text.drop whole.length) = fraction)
    (letter : exponentLength ((text.drop whole.length).drop fraction) = power) :
    scanDecimal f text = decimalEnd f whole fraction power (((text.drop whole.length).drop fraction).drop power) := by
  subst digits point letter
  rfl

/-- The parts of a number are found again with any piece of what is behind them. -/
theorem scanDecimal_parts (f : Features) (text : List Char) : ∃ whole fraction power behind,
    scanDecimal f text = decimalEnd f whole fraction power behind ∧
    ∀ count, scanDecimal f (text.take (whole.length + fraction + power + count)) =
      decimalEnd f whole fraction power (behind.take count) := by
  obtain ⟨whole, digits⟩ : ∃ whole, text.takeWhile Char.isDigit = whole := ⟨_, rfl⟩
  obtain ⟨fraction, point⟩ : ∃ fraction, fractionLength (text.drop whole.length) = fraction := ⟨_, rfl⟩
  obtain ⟨power, letter⟩ : ∃ power, exponentLength ((text.drop whole.length).drop fraction) = power := ⟨_, rfl⟩
  refine ⟨whole, fraction, power, _, scanDecimal_of_parts digits point letter, fun count => ?_⟩
  have behindWhole : (text.take (whole.length + fraction + power + count)).drop whole.length =
      (text.drop whole.length).take (fraction + (power + count)) := by
    rw [List.drop_take]
    congr 1
    omega
  have behindFraction : ((text.take (whole.length + fraction + power + count)).drop whole.length).drop fraction =
      ((text.drop whole.length).drop fraction).take (power + count) := by
    rw [behindWhole, List.drop_take, Nat.add_sub_cancel_left]
  have digits' : (text.take (whole.length + fraction + power + count)).takeWhile Char.isDigit = whole := by
    rw [takeWhile_take (by rw [digits]; omega), digits]
  have point' : fractionLength ((text.take (whole.length + fraction + power + count)).drop whole.length) =
    fraction := by
    rw [behindWhole, fractionLength_take (by omega), point]
  have letter' : exponentLength
      (((text.take (whole.length + fraction + power + count)).drop whole.length).drop fraction) = power := by
    rw [behindFraction, exponentLength_take (by omega), letter]
  rw [scanDecimal_of_parts digits' point' letter', behindFraction, List.drop_take, Nat.add_sub_cancel_left]

theorem scanDecimal_take (text : List Char) :
    scanDecimal f (text.take (scanDecimal f text).2) = scanDecimal f text := by
  obtain ⟨whole, fraction, power, behind, parts, again⟩ := scanDecimal_parts f text
  obtain ⟨count, reaches⟩ := Nat.exists_eq_add_of_le (decimalEnd_le f whole fraction power behind)
  rw [parts, reaches, again, decimalEnd_take reaches]

/-- A number without a radix mark. -/
theorem scanNumber_plain (plain : ∀ mark rest, text = '0' :: mark :: rest → radixDigit? f mark = none) :
    scanNumber f text = scanDecimal f text := by
  unfold scanNumber
  split
  next mark rest => rw [plain mark rest rfl]
  next => rfl

theorem scanNumber_take (text : List Char) : scanNumber f (text.take (scanNumber f text).2) = scanNumber f text := by
  by_cases marked : ∃ mark rest isDigit, text = '0' :: mark :: rest ∧ radixDigit? f mark = some isDigit
  · obtain ⟨mark, rest, isDigit, rfl, radix⟩ := marked
    have scanned : ∀ rest, scanNumber f ('0' :: mark :: rest) = (.number, 2 + ((rest.takeWhile isDigit).length +
        longSuffixLength f (rest.drop (rest.takeWhile isDigit).length))) := fun rest => by
      simp [scanNumber, radix, Nat.add_assoc]
    rw [scanned, Nat.add_comm 2, List.take_succ_cons, List.take_succ_cons, scanned,
      takeWhile_take (Nat.le_add_right ..),
      List.drop_take, Nat.add_sub_cancel_left, longSuffixLength_take (Nat.le_refl _), Nat.add_comm 2]
  · have plain : ∀ mark rest, text = '0' :: mark :: rest → radixDigit? f mark = none := fun mark rest split => by
      rw [Option.eq_none_iff_forall_ne_some]
      exact fun isDigit radix => marked ⟨mark, rest, isDigit, split, radix⟩
    rw [scanNumber_plain plain, scanNumber_plain, scanDecimal_take]
    intro mark rest split
    refine plain mark (rest ++ text.drop (scanDecimal f text).2) ?_
    rw [← List.cons_append, ← List.cons_append, ← split, List.take_append_drop]

theorem startsNumber_plain {c : Char} (plain : c ≠ '.') (rest : List Char) : startsNumber (c :: rest) = c.isDigit := by
  cases rest <;> simp [startsNumber, plain]

theorem startsNumber_front {front : List Char} (starts : startsNumber front) (back : List Char) :
    startsNumber (front ++ back) := by
  cases front with
  | nil => cases starts
  | cons c front =>
    by_cases point : c = '.'
    · subst point
      cases front with
      | nil => cases starts
      | cons => exact starts
    · rw [startsNumber_plain point] at starts
      rw [List.cons_append, startsNumber_plain point]
      exact starts

theorem fractionLength_le_scanDecimal (f : Features) (text : List Char) :
    fractionLength (text.drop (text.takeWhile Char.isDigit).length) ≤ (scanDecimal f text).2 := by
  rw [scanDecimal_of_parts rfl rfl rfl]
  refine Nat.le_trans ?_ (decimalEnd_le f _ _ _ _)
  omega

theorem startsNumber_take (starts : startsNumber text) : startsNumber (text.take (scanNumber f text).2) := by
  obtain ⟨fewer, filled⟩ := Nat.exists_eq_add_of_lt (scanNumber_pos starts (f := f))
  rw [Nat.zero_add] at filled
  cases text with
  | nil => cases starts
  | cons c rest =>
    by_cases point : c = '.'
    · subst point
      cases rest with
      | nil => cases starts
      | cons digit rest =>
        -- the point does not stand alone: its digit is of the number
        have here : digit.isDigit := starts
        have within := fractionLength_le_scanDecimal f ('.' :: digit :: rest)
        rw [show ('.' :: digit :: rest).takeWhile Char.isDigit = [] from rfl, List.length_nil, List.drop_zero,
          fractionLength, List.takeWhile_cons_of_pos here, List.length_cons, ← scanNumber_plain (by simp),
            filled] at within
        obtain ⟨less, rfl⟩ := Nat.exists_eq_add_of_le' (show 1 ≤ fewer by omega)
        rw [filled]
        exact starts
    · rw [startsNumber_plain point] at starts
      rw [filled, List.take_succ_cons, startsNumber_plain point]
      exact starts

/-! ### String literals -/

theorem closeSingle_take (quote : Char) (text : List Char) :
    closeSingle quote (text.take (closeSingle quote text).2) = closeSingle quote text := by
  fun_induction closeSingle quote text with
  | case1 => rfl
  | case2 => rfl
  | case3 rest ih => simp only [Prod.map_snd, List.take_succ_cons, closeSingle, ih]
  | case4 c rest pair ih =>
    have single : c = '\r' → (rest.take (closeSingle quote rest).2).head? ≠ some '\n' := fun return' feed => by
      obtain ⟨tail, split⟩ := List.head?_eq_some_iff.1 feed
      refine pair (tail ++ rest.drop (closeSingle quote rest).2) return' ?_
      rw [← List.cons_append, ← split, List.take_append_drop]
    rw [Prod.map_snd, List.take_succ_cons, List.take_succ_cons, closeSingle_hidden single, ih]
  | case5 c rest alone pair hidden here =>
    have plain := ne_backslash alone hidden
    rw [List.take_succ_cons, closeSingle_plain plain, if_pos here]
  | case6 c rest alone pair hidden notHere stops => rfl
  | case7 c rest alone pair hidden notHere goesOn ih =>
    have plain := ne_backslash alone hidden
    rw [Prod.map_snd, List.take_succ_cons, closeSingle_plain plain, if_neg notHere, if_neg goesOn, ih]

theorem plain_of_isQuote {c : Char} (quotes : isQuote c) : isStringMark c = false := by
  simp only [isQuote, Bool.or_eq_true, beq_iff_eq] at quotes
  rcases quotes with rfl | rfl <;> rfl

/-- A literal starts with a quote behind letters that the dialect marks literals with. -/
theorem stringMarkLength?_eq_some {marks : Nat} : stringMarkLength? d text = some marks ↔
    ∃ letters quote rest, text = letters ++ quote :: rest ∧ letters.length = marks ∧ letters.length ≤ 2 ∧
      (∀ c ∈ letters, isStringMark c) ∧ isQuote quote ∧ String.ofList (letters.map Char.toLower) ∈ d.stringMarks := by
  unfold stringMarkLength?
  constructor
  · intro found
    dsimp only at found
    split at found
    next quote rest behind =>
      split at found
      next here =>
        rw [Bool.and_eq_true, List.contains_iff_mem] at here
        have letters : (text.take 2).takeWhile isStringMark <+: text :=
          (List.takeWhile_prefix _).trans (List.take_prefix 2 text)
        refine ⟨_, quote, rest, ?_, Option.some.inj found, ?_, fun c member => List.mem_takeWhile_imp member,
          here.1, here.2⟩
        · rw [← behind, List.prefix_iff_eq_append.1 letters]
        · exact Nat.le_trans (List.takeWhile_prefix _).length_le (List.length_take_le 2 text)
      next => cases found
    next => cases found
  · rintro ⟨letters, quote, rest, rfl, rfl, short, marked, quotes, listed⟩
    have front : ((letters ++ quote :: rest).take 2).takeWhile isStringMark = letters := by
      rw [← List.take_takeWhile, List.takeWhile_append_of_pos marked,
        List.takeWhile_cons_of_neg (by simp [plain_of_isQuote quotes]), List.append_nil, List.take_of_length_le short]
    simp [front, quotes, listed]

theorem stringMarkLength?_front {front : List Char} {marks : Nat} (found : stringMarkLength? d front = some marks)
    (back : List Char) : stringMarkLength? d (front ++ back) = some marks := by
  obtain ⟨letters, quote, rest, rfl, starts⟩ := stringMarkLength?_eq_some.1 found
  exact stringMarkLength?_eq_some.2 ⟨letters, quote, rest ++ back, by simp, starts⟩

/-- A literal with the letters in front of it. -/
theorem scanString_eq (letters : List Char) (quote : Char) (rest : List Char) :
    scanString letters.length (letters ++ quote :: rest) =
      if [quote, quote].isPrefixOf rest then
        match closeTriple quote (rest.drop 2) with
        | some length => (.string, letters.length + 3 + length)
        | none => (.error, letters.length + 1 + rest.length)
      else (if (closeSingle quote rest).1 then .string else .error,
        letters.length + 1 + (closeSingle quote rest).2) := by
  have whole : (letters ++ quote :: rest).length = letters.length + 1 + rest.length := by
    rw [List.length_append, List.length_cons]
    omega
  by_cases triple : [quote, quote].isPrefixOf rest
  · cases closed : closeTriple quote (rest.drop 2) <;>
      simp only [scanString, List.drop_left, whole, if_pos triple, closed]
  · simp only [scanString, List.drop_left, if_neg triple]

theorem take_literal (letters : List Char) (quote : Char) (rest : List Char) (count : Nat) :
    (letters ++ quote :: rest).take (letters.length + 1 + count) = letters ++ quote :: rest.take count := by
  rw [Nat.add_assoc, List.take_length_add_append, Nat.add_comm 1, List.take_succ_cons]

theorem scanString_take (letters : List Char) (quote : Char) (rest : List Char) :
    letters.length < (scanString letters.length (letters ++ quote :: rest)).2 ∧
      scanString letters.length
          ((letters ++ quote :: rest).take (scanString letters.length (letters ++ quote :: rest)).2) =
        scanString letters.length (letters ++ quote :: rest) := by
  by_cases triple : [quote, quote].isPrefixOf rest
  · rw [scanString_eq, if_pos triple]
    cases closes : closeTriple quote (rest.drop 2) with
    | none =>
      refine ⟨by dsimp only; omega, ?_⟩
      dsimp only
      rw [take_literal, List.take_length, scanString_eq, if_pos triple, closes]
    | some length =>
      refine ⟨by dsimp only; omega, ?_⟩
      obtain ⟨tail, rfl⟩ := List.isPrefixOf_iff_prefix.1 triple
      obtain ⟨inner, back, rfl, rfl, -, again⟩ :=
        closeTriple_some (show closeTriple quote tail = some length from closes)
      have inside := again []
      rw [List.append_nil] at inside
      have within : ([quote, quote] ++ (inner ++ back)).take (2 + inner.length) = [quote, quote] ++ inner := by
        simp [Nat.add_comm 2]
      dsimp only
      rw [show letters.length + 3 + inner.length = letters.length + 1 +
        (2 + inner.length) by omega, take_literal, within,
        scanString_eq, if_pos (List.isPrefixOf_iff_prefix.2 (List.prefix_append _ inner)),
        show ([quote, quote] ++ inner).drop 2 = inner from rfl, inside]
      dsimp only
      congr 1
      omega
  · have single : ¬ [quote, quote].isPrefixOf (rest.take (closeSingle quote rest).2) = true := fun within =>
      triple (List.isPrefixOf_iff_prefix.2 ((List.isPrefixOf_iff_prefix.1 within).trans (List.take_prefix _ rest)))
    rw [scanString_eq, if_neg triple]
    refine ⟨by dsimp only; omega, ?_⟩
    dsimp only
    rw [take_literal, scanString_eq, if_neg single, closeSingle_take]

/-! ### Operators and all lexemes -/

/-- The operator of a length at the front of a text. -/
def operatorOf? (d : Dialect) (text : List Char) (length : Nat) : Option (TokenKind × Nat) :=
  if (text.take length).length == length then
    (d.operatorKind? (String.ofList (text.take length))).map fun kind => (kind, length)
  else none

theorem longestOperator?_eq (d : Dialect) (text : List Char) :
    longestOperator? d text = [3, 2, 1].findSome? (operatorOf? d text) :=
  rfl

theorem operatorOf?_some {length : Nat} {found : TokenKind × Nat} (here : operatorOf? d text length = some found) :
    found.2 = length := by
  unfold operatorOf? at here
  split at here
  · obtain ⟨kind, -, rfl⟩ := Option.map_eq_some_iff.1 here
    rfl
  · cases here

theorem operatorOf?_take (length : Nat) :
    operatorOf? d (text.take count) length = if length ≤ count then operatorOf? d text length else none := by
  unfold operatorOf?
  by_cases within : length ≤ count
  · rw [if_pos within, List.take_take, Nat.min_eq_left within]
  · have short : ¬ (((text.take count).take length).length == length) = true := by
      rw [beq_iff_eq, List.length_take, List.length_take]
      omega
    rw [if_neg within, if_neg short]

theorem longestOperator?_take {found : TokenKind × Nat} (longest : longestOperator? d text = some found) :
    longestOperator? d (text.take found.2) = some found := by
  rw [longestOperator?_eq] at longest ⊢
  generalize [3, 2, 1] = lengths at longest ⊢
  induction lengths with
  | nil => cases longest
  | cons length lengths ih =>
    rw [List.findSome?_cons] at longest ⊢
    rw [operatorOf?_take]
    cases here : operatorOf? d text length with
    | some other =>
      rw [here] at longest
      obtain rfl := Option.some.inj longest
      rw [operatorOf?_some here, if_pos (Nat.le_refl _)]
    | none =>
      rw [here] at longest
      rw [ite_self]
      exact ih longest

theorem longestOperator?_take_none (none : longestOperator? d text = none) :
    longestOperator? d (text.take count) = .none := by
  rw [longestOperator?_eq, List.findSome?_eq_none_iff] at none ⊢
  intro length listed
  rw [operatorOf?_take, none length listed, ite_self]

theorem nameLength_take (f : Features) (text : List Char) :
    nameLength f (text.take (nameLength f text)) = nameLength f text := by
  cases text with
  | nil => simp
  | cons c rest =>
    have length : nameLength f (c :: rest) = (rest.takeWhile (continuesName f)).length + 1 := Nat.add_comm ..
    rw [length, List.take_succ_cons, nameLength, List.tail_cons, takeWhile_take (Nat.le_refl _), Nat.add_comm]

/-- Cut off behind a lexeme, a text begins with the same lexeme. -/
theorem scanLexeme_take (nonempty : text ≠ []) : scanLexeme d
    (text.take (scanLexeme d text).2) = scanLexeme d text := by
  have filled := scanLexeme_pos d nonempty
  cases found : stringMarkLength? d text with
  | some marks =>
    obtain ⟨letters, quote, behind, rfl, rfl, starts⟩ := stringMarkLength?_eq_some.1 found
    have scanned : scanLexeme d (letters ++ quote :: behind) = scanString letters.length
      (letters ++ quote :: behind) := by
      rw [scanLexeme, found]
    obtain ⟨inside, again⟩ := scanString_take letters quote behind
    obtain ⟨count, length⟩ := Nat.exists_eq_add_of_lt inside
    rw [scanned, scanLexeme]
    have marked : stringMarkLength? d ((letters ++ quote :: behind).take
        (scanString letters.length (letters ++ quote :: behind)).2) = some letters.length := by
      rw [length, Nat.add_right_comm, take_literal]
      exact stringMarkLength?_eq_some.2 ⟨letters, quote, _, rfl, rfl, starts⟩
    rw [marked]
    exact again
  | none =>
    have plain : ∀ count, stringMarkLength? d (text.take count) = none := fun count => by
      rw [Option.eq_none_iff_forall_ne_some]
      intro marks alone
      have whole := stringMarkLength?_front alone (text.drop count)
      rw [List.take_append_drop, found] at whole
      cases whole
    have head : ∀ {count}, 0 < count → (text.take count).head? = text.head? := fun filled => by
      rw [List.head?_take, if_neg (Nat.ne_of_gt filled)]
    unfold scanLexeme at filled ⊢
    rw [found] at filled ⊢
    rw [plain]
    dsimp only at filled ⊢
    rw [head filled]
    by_cases name : text.head?.any (startsName d.features) = true
    · simp only [if_pos name, nameLength_take, List.take_take, Nat.min_self]
    · simp only [if_neg name]
      by_cases number : startsNumber text = true
      · simp only [if_pos number, if_pos (startsNumber_take number), scanNumber_take]
      · have notNumber : ∀ count, ¬ startsNumber (text.take count) = true := fun count starts => by
          have whole := startsNumber_front starts (text.drop count)
          rw [List.take_append_drop] at whole
          exact number whole
        simp only [if_neg number, if_neg (notNumber _)]
        cases longest : longestOperator? d text with
        | some operator => exact congrArg (·.getD (.error, 1)) (longestOperator?_take longest)
        | none => exact congrArg (·.getD (.error, 1)) (longestOperator?_take_none longest)

end TolerantParser
