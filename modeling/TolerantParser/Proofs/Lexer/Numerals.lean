import TolerantParser.Proofs.Lexer.Alone

/-!
What the text of a number is. The forms of numerals are said of whole texts, without a look at how they are scanned.
The scan asks for a digit in a fraction and in an exponent, and does not ask for one behind a radix mark: what it takes
for a number is a numeral or a radix mark alone (`isNumeral_or_bareMark`), and no text is both.
-/

namespace TolerantParser

variable {d : Dialect} {f : Features} {text whole fraction exponent digits suffix : List Char} {mark : Char}
  {isDigit : Char → Bool}

/-! ### Forms -/

/-- The radix marks of a dialect, with the digits that may stand behind them. -/
inductive IsRadix (f : Features) : Char → (Char → Bool) → Prop
  | hexadecimal {mark : Char} : mark = 'x' ∨ mark = 'X' → IsRadix f mark isHexDigit
  | octal {mark : Char} : mark = 'o' ∨ mark = 'O' → f.letterOctal → IsRadix f mark isOctalDigit
  | binary {mark : Char} : mark = 'b' ∨ mark = 'B' → f.binaryLiterals → IsRadix f mark isBinaryDigit

/-- The letter of a long integer, where there are long integers, or nothing. -/
def IsLongSuffix (f : Features) (suffix : List Char) : Prop :=
  suffix = [] ∨ f.longSuffix ∧ (suffix = ['l'] ∨ suffix = ['L'])

/-- A point with the digits behind it, of which there may be none, or nothing. -/
def IsFraction (fraction : List Char) : Prop :=
  fraction = [] ∨ ∃ digits, fraction = '.' :: digits ∧ ∀ c ∈ digits, c.isDigit

/-- A letter with the digits behind it and behind a sign, or nothing. -/
def IsExponent (exponent : List Char) : Prop :=
  exponent = [] ∨ ∃ letter sign digits, exponent = letter :: (sign ++ digits) ∧ (letter = 'e' ∨ letter = 'E') ∧
    (sign = [] ∨ sign = ['+'] ∨ sign = ['-']) ∧ digits ≠ [] ∧ ∀ c ∈ digits, c.isDigit

/-- The letter of an imaginary number, or nothing. -/
def IsImaginarySuffix (suffix : List Char) : Prop := suffix = [] ∨ suffix = ['j'] ∨ suffix = ['J']

/-- A number of a dialect, written out. -/
inductive IsNumeral (f : Features) : List Char → Prop
  | marked {mark : Char} {isDigit : Char → Bool} {digits suffix : List Char} : IsRadix f mark isDigit → digits ≠ [] →
      (∀ c ∈ digits, isDigit c) → IsLongSuffix f suffix → IsNumeral f ('0' :: mark :: (digits ++ suffix))
  | integer {digits suffix : List Char} : digits ≠ [] → (∀ c ∈ digits, c.isDigit) →
      (digits.head? = some '0' → f.zeroOctal ∨ ∀ c ∈ digits, c = '0') → IsLongSuffix f suffix →
      IsNumeral f (digits ++ suffix)
  | imaginary {digits suffix : List Char} : digits ≠ [] → (∀ c ∈ digits, c.isDigit) → IsImaginarySuffix suffix →
      suffix ≠ [] → IsNumeral f (digits ++ suffix)
  | float {whole fraction exponent suffix : List Char} : (∀ c ∈ whole, c.isDigit) → IsFraction fraction →
      IsExponent exponent → (∃ c ∈ whole ++ fraction, c.isDigit) → fraction ++ exponent ≠ [] →
        IsImaginarySuffix suffix →
      IsNumeral f (whole ++ (fraction ++ (exponent ++ suffix)))

/-- A radix mark with no digit behind it. -/
def IsBareMark (f : Features) (text : List Char) : Prop :=
  ∃ mark isDigit suffix, IsRadix f mark isDigit ∧ IsLongSuffix f suffix ∧ text = '0' :: mark :: suffix

/-! ### A radix mark alone is no numeral -/

theorem IsRadix.letter (radix : IsRadix f mark isDigit) : mark ∈ ['x', 'X', 'o', 'O', 'b', 'B'] := by
  cases radix with
  | hexadecimal letter => rcases letter with rfl | rfl <;> decide
  | octal letter => rcases letter with rfl | rfl <;> decide
  | binary letter => rcases letter with rfl | rfl <;> decide

/-- The letter of a long integer is no digit. -/
theorem IsRadix.not_long (radix : IsRadix f mark isDigit) : isDigit 'l' = false ∧ isDigit 'L' = false := by
  cases radix <;> decide

/-- A character of a numeral that has no radix mark. -/
def isPlainNumeral (c : Char) : Bool := c.isDigit || ['.', 'e', 'E', '+', '-', 'j', 'J', 'l', 'L'].contains c

theorem isPlainNumeral_of_isDigit {c : Char} (digit : c.isDigit) : isPlainNumeral c := by
  rw [isPlainNumeral, digit, Bool.true_or]

theorem IsLongSuffix.plain (long : IsLongSuffix f suffix) : ∀ c ∈ suffix, isPlainNumeral c := by
  rcases long with rfl | ⟨-, rfl | rfl⟩ <;> simp [isPlainNumeral]

theorem IsImaginarySuffix.plain (imaginary : IsImaginarySuffix suffix) : ∀ c ∈ suffix, isPlainNumeral c := by
  rcases imaginary with rfl | rfl | rfl <;> simp [isPlainNumeral]

theorem IsFraction.plain (point : IsFraction fraction) : ∀ c ∈ fraction, isPlainNumeral c := by
  rcases point with rfl | ⟨digits, rfl, within⟩
  · exact List.forall_mem_nil _
  · exact List.forall_mem_cons.2 ⟨rfl, fun c member => isPlainNumeral_of_isDigit (within c member)⟩

theorem IsExponent.plain (power : IsExponent exponent) : ∀ c ∈ exponent, isPlainNumeral c := by
  rcases power with rfl | ⟨letter, sign, digits, rfl, letters, signs, -, within⟩
  · exact List.forall_mem_nil _
  · refine List.forall_mem_cons.2 ⟨?_, List.forall_mem_append.2 ⟨?_, fun c member => ?_⟩⟩
    · rcases letters with rfl | rfl <;> rfl
    · rcases signs with rfl | rfl | rfl <;> simp [isPlainNumeral]
    · exact isPlainNumeral_of_isDigit (within c member)

theorem IsNumeral.marked_or_plain (numeral : IsNumeral f text) :
    (∃ mark isDigit digits suffix, IsRadix f mark isDigit ∧ digits ≠ [] ∧ (∀ c ∈ digits, isDigit c) ∧
      text = '0' :: mark :: (digits ++ suffix)) ∨ ∀ c ∈ text, isPlainNumeral c := by
  cases numeral with
  | marked radix some within long => exact .inl ⟨_, _, _, _, radix, some, within, rfl⟩
  | integer some within leads long =>
    exact .inr (List.forall_mem_append.2 ⟨fun c member => isPlainNumeral_of_isDigit (within c member), long.plain⟩)
  | imaginary some within imaginary =>
    exact .inr (List.forall_mem_append.2 ⟨fun c member => isPlainNumeral_of_isDigit (within c member), imaginary.plain⟩)
  | float within point power _ _ imaginary =>
    exact .inr (List.forall_mem_append.2 ⟨fun c member => isPlainNumeral_of_isDigit (within c member),
      List.forall_mem_append.2 ⟨point.plain, List.forall_mem_append.2 ⟨power.plain, imaginary.plain⟩⟩⟩)

theorem IsNumeral.not_bareMark (numeral : IsNumeral f text) : ¬ IsBareMark f text := by
  rintro ⟨mark, isDigit, suffix, radix, long, rfl⟩
  rcases numeral.marked_or_plain with ⟨mark', isDigit', digits, suffix', radix', some, within, same⟩ | plain
  · obtain ⟨-, rfl⟩ : _ ∧ suffix = digits ++ suffix' := by simpa using same
    obtain ⟨c, rest, rfl⟩ := List.exists_cons_of_ne_nil some
    have digit : isDigit' c := within c List.mem_cons_self
    -- the only thing behind the mark is the letter of a long integer
    rcases long with none | ⟨-, small | great⟩
    · cases none
    · obtain rfl : c = 'l' := (List.cons.inj small).1
      simp [radix'.not_long] at digit
    · obtain rfl : c = 'L' := (List.cons.inj great).1
      simp [radix'.not_long] at digit
  · have other : ∀ mark ∈ ['x', 'X', 'o', 'O', 'b', 'B'], isPlainNumeral mark = false := by simp [isPlainNumeral]
    have here := plain mark (by simp)
    rw [other mark radix.letter] at here
    cases here

/-! ### What the parts of a scan are -/

theorem radixDigit?_eq_some : radixDigit? f mark = some isDigit ↔ IsRadix f mark isDigit := by
  constructor
  · intro found
    unfold radixDigit? at found
    split at found
    next hexadecimal =>
      obtain rfl := Option.some.inj found
      exact .hexadecimal (by simpa using hexadecimal)
    split at found
    next octal =>
      obtain rfl := Option.some.inj found
      rw [Bool.and_eq_true] at octal
      exact .octal (by simpa using octal.1) octal.2
    split at found
    next binary =>
      obtain rfl := Option.some.inj found
      rw [Bool.and_eq_true] at binary
      exact .binary (by simpa using binary.1) binary.2
    next => cases found
  · intro radix
    cases radix with
    | hexadecimal letter => rcases letter with rfl | rfl <;> rfl
    | octal letter octal => rcases letter with rfl | rfl <;> simp [radixDigit?, octal]
    | binary letter binary => rcases letter with rfl | rfl <;> simp [radixDigit?, binary]

theorem isLongSuffix_of_length (alone : longSuffixLength f text = text.length) : IsLongSuffix f text := by
  cases text with
  | nil => exact .inl rfl
  | cons c rest =>
    rw [longSuffixLength, List.length_cons] at alone
    split at alone
    next long =>
      obtain rfl := List.length_eq_zero_iff.1 (Nat.succ_inj.1 alone.symm)
      rw [Bool.and_eq_true, Bool.or_eq_true, beq_iff_eq, beq_iff_eq] at long
      exact .inr ⟨long.1, long.2.imp (congrArg ([·])) (congrArg ([·]))⟩
    next => cases alone

theorem fraction_split (text : List Char) : ∃ fraction behind,
    text = fraction ++ behind ∧ fractionLength text = fraction.length ∧ IsFraction fraction := by
  cases text with
  | nil => exact ⟨[], [], rfl, rfl, .inl rfl⟩
  | cons c rest =>
    by_cases point : c = '.'
    · subst point
      refine ⟨'.' :: rest.takeWhile Char.isDigit, rest.dropWhile Char.isDigit, ?_, Nat.add_comm .., .inr ⟨_, rfl, ?_⟩⟩
      · rw [List.cons_append, List.takeWhile_append_dropWhile]
      · exact fun c member => List.mem_takeWhile_imp member
    · exact ⟨[], c :: rest, rfl, by simp [fractionLength, point], .inl rfl⟩

theorem sign_split (text : List Char) : ∃ sign behind,
    text = sign ++ behind ∧ signLength text = sign.length ∧ (sign = [] ∨ sign = ['+'] ∨ sign = ['-']) := by
  cases text with
  | nil => exact ⟨[], [], rfl, rfl, .inl rfl⟩
  | cons c rest =>
    rw [signLength]
    split
    next signed =>
      rw [Bool.or_eq_true, beq_iff_eq, beq_iff_eq] at signed
      exact ⟨[c], rest, rfl, rfl, .inr (signed.imp (congrArg ([·])) (congrArg ([·])))⟩
    next => exact ⟨[], c :: rest, rfl, rfl, .inl rfl⟩

theorem exponent_split (text : List Char) : ∃ exponent behind,
    text = exponent ++ behind ∧ exponentLength text = exponent.length ∧ IsExponent exponent := by
  cases text with
  | nil => exact ⟨[], [], rfl, rfl, .inl rfl⟩
  | cons letter rest =>
    obtain ⟨sign, behind, rfl, signed, isSign⟩ := sign_split rest
    rw [exponentLength_cons, signed, List.drop_left]
    split
    next power =>
      rw [Bool.or_eq_true, beq_iff_eq, beq_iff_eq] at power
      split
      next => exact ⟨[], letter :: (sign ++ behind), rfl, rfl, .inl rfl⟩
      next digits =>
        refine ⟨letter :: (sign ++ behind.takeWhile Char.isDigit), behind.dropWhile Char.isDigit, ?_, ?_,
          .inr ⟨letter, sign, _, rfl, power, isSign, List.ne_nil_of_length_pos (Nat.pos_of_ne_zero digits), ?_⟩⟩
        · rw [List.cons_append, List.append_assoc, List.takeWhile_append_dropWhile]
        · rw [List.length_cons, List.length_append]
          omega
        · exact fun c member => List.mem_takeWhile_imp member
    next => exact ⟨[], letter :: (sign ++ behind), rfl, rfl, .inl rfl⟩

/-- A number has a digit in front of its exponent. -/
theorem exists_digit {behind : List Char} (starts : startsNumber (whole ++ (fraction ++ behind)))
    (within : ∀ c ∈ whole, c.isDigit) (longest : whole = (whole ++ (fraction ++ behind)).takeWhile Char.isDigit)
    (point : fractionLength (fraction ++ behind) = fraction.length) : ∃ c ∈ whole ++ fraction, c.isDigit := by
  cases whole with
  | cons c rest => exact ⟨c, List.mem_cons_self, within c List.mem_cons_self⟩
  | nil =>
    rw [List.nil_append] at starts longest ⊢
    generalize text : fraction ++ behind = text at starts longest point
    unfold startsNumber at starts
    split at starts
    next c rest =>
      -- the point has digits behind it, so it does not stand alone
      rw [fractionLength, List.takeWhile_cons_of_pos starts, List.length_cons] at point
      cases fraction with
      | nil => cases point
      | cons first others =>
        cases others with
        | nil =>
          rw [List.length_singleton] at point
          omega
        | cons c' _ =>
          obtain ⟨-, rfl, -⟩ : _ ∧ c' = c ∧ _ := by simpa using text
          exact ⟨c', by simp, starts⟩
    next c rest _ =>
      rw [List.takeWhile_cons_of_pos starts] at longest
      cases longest
    next => cases starts

/-- The parts of a number without a radix mark, and what is made of it by what is behind them. -/
theorem scanDecimal_split (starts : startsNumber text) (f : Features) : ∃ whole fraction exponent behind,
    text = whole ++ (fraction ++ (exponent ++ behind)) ∧ (∀ c ∈ whole, c.isDigit) ∧ IsFraction fraction ∧
      IsExponent exponent ∧ (∃ c ∈ whole ++ fraction, c.isDigit) ∧
      scanDecimal f text = decimalEnd f whole fraction.length exponent.length behind := by
  obtain ⟨whole, digits⟩ : ∃ whole, text.takeWhile Char.isDigit = whole := ⟨_, rfl⟩
  obtain ⟨fraction, rest, split, point, isFraction⟩ := fraction_split (text.drop whole.length)
  obtain ⟨exponent, behind, rfl, letter, isExponent⟩ := exponent_split rest
  have front : text = whole ++ (fraction ++ (exponent ++ behind)) := by
    rw [← split, ← digits]
    exact List.prefix_iff_eq_append.1 (List.takeWhile_prefix _) |>.symm
  have within : ∀ c ∈ whole, c.isDigit := fun c member => List.mem_takeWhile_imp (digits ▸ member)
  refine ⟨whole, fraction, exponent, behind, front, within, isFraction, isExponent, ?_, ?_⟩
  · exact exists_digit (front ▸ starts) within (front ▸ digits.symm) (split ▸ point)
  · rw [scanDecimal_of_parts digits point (by rw [split, List.drop_left, letter]), split, List.drop_left,
      List.drop_left]

/-- What is behind the parts of a number that goes to the end of its text. -/
theorem suffix_of_decimalEnd {behind : List Char} {fraction power : Nat}
    (alone : decimalEnd f whole fraction power behind =
      (.number, whole.length + fraction + power + behind.length)) :
    (IsImaginarySuffix behind ∧ (behind ≠ [] ∨ 0 < fraction + power)) ∨
      (fraction + power = 0 ∧ (hasLeadingZero whole → f.zeroOctal) ∧ IsLongSuffix f behind) := by
  unfold decimalEnd at alone
  split at alone
  next rest =>
    obtain rfl : rest = [] := by simpa using alone
    exact .inl ⟨.inr (.inl rfl), .inl (List.cons_ne_nil _ _)⟩
  next rest =>
    obtain rfl : rest = [] := by simpa using alone
    exact .inl ⟨.inr (.inr rfl), .inl (List.cons_ne_nil _ _)⟩
  next =>
    split at alone
    next proper =>
      obtain rfl : behind = [] := by simpa using alone
      exact .inl ⟨.inl rfl, .inr proper⟩
    next integer =>
      split at alone
      next => cases alone
      next allowed =>
        refine .inr ⟨Nat.eq_zero_of_not_pos integer, fun leads => ?_, isLongSuffix_of_length ?_⟩
        · simpa [leads] using allowed
        · simpa using alone

theorem zeros_of_not_hasLeadingZero (digits : hasLeadingZero text = false) (leads : text.head? = some '0') :
    ∀ c ∈ text, c = '0' := by
  cases text with
  | nil => exact List.forall_mem_nil _
  | cons c rest =>
    obtain rfl : c = '0' := Option.some.inj leads
    cases rest with
    | nil => exact List.forall_mem_singleton.2 rfl
    | cons => simpa [hasLeadingZero] using digits

/-! ### Numbers -/

theorem isNumeral_of_scanDecimal (starts : startsNumber text) (alone : scanDecimal f text = (.number, text.length)) :
    IsNumeral f text := by
  obtain ⟨whole, fraction, exponent, behind, rfl, within, point, power, mantissa, scanned⟩ := scanDecimal_split starts f
  have counted : (whole ++ (fraction ++ (exponent ++ behind))).length =
      whole.length + fraction.length + exponent.length + behind.length := by
    simp only [List.length_append, Nat.add_assoc]
  rw [scanned, counted] at alone
  have proper : 0 < fraction.length + exponent.length ↔ fraction ++ exponent ≠ [] := by
    rw [← List.length_append, List.length_pos_iff]
  by_cases integer : fraction ++ exponent = []
  · obtain ⟨rfl, rfl⟩ := List.append_eq_nil_iff.1 integer
    obtain ⟨c, member, -⟩ := mantissa
    have some : whole ≠ [] := List.ne_nil_of_mem (List.append_nil whole ▸ member)
    rw [List.nil_append, List.nil_append]
    rcases suffix_of_decimalEnd alone with ⟨imaginary, letter⟩ | ⟨-, leading, long⟩
    · exact .imaginary some within imaginary (letter.resolve_right (Nat.lt_irrefl 0))
    · refine .integer some within (fun leads => ?_) long
      cases zeros : hasLeadingZero whole with
      | true => exact .inl (leading zeros)
      | false => exact .inr (zeros_of_not_hasLeadingZero zeros leads)
  · rcases suffix_of_decimalEnd alone with ⟨imaginary, -⟩ | ⟨none, -, -⟩
    · exact .float within point power mantissa integer imaginary
    · exact absurd none (Nat.ne_of_gt (proper.2 integer))

/-- What is scanned for a number is a numeral, unless it is a radix mark alone. -/
theorem isNumeral_or_bareMark (starts : startsNumber text) (alone : scanNumber f text = (.number, text.length)) :
    IsNumeral f text ∨ IsBareMark f text := by
  by_cases marked : ∃ mark rest isDigit, text = '0' :: mark :: rest ∧ radixDigit? f mark = some isDigit
  · obtain ⟨mark, rest, isDigit, rfl, radix⟩ := marked
    have split : rest.takeWhile isDigit ++ rest.dropWhile isDigit = rest := List.takeWhile_append_dropWhile
    generalize front : rest.takeWhile isDigit = digits at split
    generalize rest.dropWhile isDigit = suffix at split
    have within : ∀ c ∈ digits, isDigit c := fun c member => List.mem_takeWhile_imp (front ▸ member)
    have long : IsLongSuffix f suffix := by
      refine isLongSuffix_of_length ?_
      simp only [scanNumber, radix, front] at alone
      rw [← split, List.drop_left, List.length_cons, List.length_cons, List.length_append] at alone
      have counted := congrArg Prod.snd alone
      dsimp only at counted
      omega
    rw [radixDigit?_eq_some] at radix
    subst split
    by_cases bare : digits = []
    · subst bare
      exact .inr ⟨mark, isDigit, suffix, radix, long, rfl⟩
    · exact .inl (.marked radix bare within long)
  · have plain : ∀ mark rest, text = '0' :: mark :: rest → radixDigit? f mark = none := fun mark rest split => by
      rw [Option.eq_none_iff_forall_ne_some]
      exact fun isDigit radix => marked ⟨mark, rest, isDigit, split, radix⟩
    exact .inl (isNumeral_of_scanDecimal starts (scanNumber_plain plain ▸ alone))

/-! ### Numbers of a text -/

/-- Only what starts a number is read as one. -/
theorem scanNumber_of_number (number : (scanLexeme d text).1 = .number) :
    startsNumber text ∧ scanLexeme d text = scanNumber d.features text := by
  unfold scanLexeme at number ⊢
  split at number
  next marks _ => rcases scanString_kind marks text with kind | kind <;> (rw [kind] at number; cases number)
  next =>
    split at number
    next =>
      rcases d.wordKind_eq_name_or_mem (String.ofList (text.take (nameLength d.features text))) with named | listed
      · cases named.symm.trans number
      · exact absurd number (ne_of_mem_keywords listed (by decide))
    next named =>
      split at number
      next starts => exact ⟨starts, by rw [if_neg named, if_pos starts]⟩
      next =>
        cases longest : longestOperator? d text with
        | none => simp [longest] at number
        | some operator =>
          obtain ⟨spelling, rest, -, -, listed⟩ := longestOperator?_some longest
          rw [longest] at number
          exact absurd number (ne_of_mem_operators listed (by decide))

/-- A number of a text is a numeral of the dialect, except for a radix mark alone, which is none. -/
theorem isNumeral_lex {d : Dialect} {text : String} {token : Token} (member : token ∈ lex d text)
    (number : token.kind = .number) :
    IsNumeral d.features token.text.toList ↔ ¬ IsBareMark d.features token.text.toList := by
  have within : token.kind ∉ [.newline, .indent, .dedent, .endOfFile] := by simp [number]
  cases (lex_strides d text).isPiece member within with
  | comment comment =>
    rw [number] at comment
    cases comment
  | @lexeme c tail _ kind piece =>
    obtain ⟨starts, scanned⟩ := scanNumber_of_number (kind.symm.trans number)
    rw [scanned] at piece kind
    have length : token.text.toList.length = (scanNumber d.features (c :: tail)).2 := by
      rw [piece, List.length_take, Nat.min_eq_left (scanNumber_le _ _)]
    have alone : scanNumber d.features token.text.toList = (.number, token.text.toList.length) := by
      rw [length, piece, scanNumber_take]
      exact Prod.ext (kind.symm.trans number) rfl
    exact ⟨IsNumeral.not_bareMark, (isNumeral_or_bareMark (piece ▸ startsNumber_take starts) alone).resolve_right⟩

/-- A radix mark without a digit is taken for a number. -/
theorem lex_bareMark : ∃ token more, lex .v26 "0x" = token :: more ∧ token.kind = .number ∧
    IsBareMark (Dialect.features .v26) token.text.toList ∧ ¬ IsNumeral (Dialect.features .v26) token.text.toList := by
  have split : "0x".toList = '0' :: ['x'] := rfl
  obtain ⟨token, more, first, kind, text, -⟩ := lex_lexeme (d := .v26) split ⟨by decide, by decide, by decide, nofun⟩
  have number : token.kind = .number := kind.trans (by decide)
  have mark : IsBareMark (Dialect.features .v26) token.text.toList :=
    ⟨'x', isHexDigit, [], .hexadecimal (.inl rfl), .inl rfl, by rw [text]; decide⟩
  exact ⟨token, more, first, number, mark, fun numeral =>
    (isNumeral_lex (first ▸ List.mem_cons_self) number).1 numeral mark⟩

end TolerantParser
