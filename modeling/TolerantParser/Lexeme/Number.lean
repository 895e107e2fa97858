import TolerantParser.Dialect.Features
import TolerantParser.Token.Kind

/-!
Numbers: integers in four radices, decimal fractions with exponents, and imaginary numbers.

Embeds `_lex_number` with `_take` and `_take_long_suffix`.
-/

namespace TolerantParser

def isHexDigit (c : Char) : Bool :=
  c.isDigit || ('a' ≤ c && c ≤ 'f') || ('A' ≤ c && c ≤ 'F')

def isOctalDigit (c : Char) : Bool := '0' ≤ c && c ≤ '7'

def isBinaryDigit (c : Char) : Bool := c == '0' || c == '1'

/-- The digits that may follow a zero and this letter, if the dialect has such numbers. -/
def radixDigit? (f : Features) (mark : Char) : Option (Char → Bool) :=
  if mark == 'x' || mark == 'X' then some isHexDigit
  else if (mark == 'o' || mark == 'O') && f.letterOctal then some isOctalDigit
  else if (mark == 'b' || mark == 'B') && f.binaryLiterals then some isBinaryDigit
  else none

/-- The length of the suffix of a long integer at the front. -/
def longSuffixLength (f : Features) : List Char → Nat
  | c :: _ => if f.longSuffix && (c == 'l' || c == 'L') then 1 else 0
  | [] => 0

/-- The length of the fraction at the front, its point included. -/
def fractionLength : List Char → Nat
  | '.' :: rest => 1 + (rest.takeWhile Char.isDigit).length
  | _ => 0

/-- The length of the exponent at the front. A letter without a digit after it and its sign is no
exponent. -/
def exponentLength : List Char → Nat
  | c :: rest =>
    if c == 'e' || c == 'E' then
      let sign := match rest with
        | s :: _ => if s == '+' || s == '-' then 1 else 0
        | [] => 0
      let digits := ((rest.drop sign).takeWhile Char.isDigit).length
      if digits = 0 then 0 else 1 + sign + digits
    else 0
  | [] => 0

/-- A decimal integer that starts with a zero although it is not zero. -/
def hasLeadingZero (digits : List Char) : Bool :=
  1 < digits.length && digits.head? == some '0' && digits.any (· != '0')

/-- The kind and length of the number at the front when it has no radix mark. -/
def scanDecimal (f : Features) (text : List Char) : TokenKind × Nat :=
  let whole := text.takeWhile Char.isDigit
  let afterWhole := text.drop whole.length
  let fraction := fractionLength afterWhole
  let afterFraction := afterWhole.drop fraction
  let power := exponentLength afterFraction
  let afterPower := afterFraction.drop power
  let length := whole.length + fraction + power
  match afterPower with
  | 'j' :: _ => (.number, length + 1)
  | 'J' :: _ => (.number, length + 1)
  | _ =>
    if 0 < fraction + power then (.number, length)
    else if hasLeadingZero whole && !f.zeroOctal then (.error, length)
    else (.number, length + longSuffixLength f afterPower)

/-- The kind and length of the number at the front. -/
def scanNumber (f : Features) (text : List Char) : TokenKind × Nat :=
  match text with
  | '0' :: mark :: rest =>
    match radixDigit? f mark with
    | some isDigit =>
      let digits := (rest.takeWhile isDigit).length
      (.number, 2 + digits + longSuffixLength f (rest.drop digits))
    | none => scanDecimal f text
  | _ => scanDecimal f text

/-- A number starts with a digit, or with a point and a digit. -/
def startsNumber : List Char → Bool
  | '.' :: c :: _ => c.isDigit
  | c :: _ => c.isDigit
  | [] => false

theorem scanDecimal_pos {f : Features} {text : List Char} (starts : startsNumber text = true) :
    0 < (scanDecimal f text).2 := by
  have counted : 0 < (text.takeWhile Char.isDigit).length +
      fractionLength (text.drop (text.takeWhile Char.isDigit).length) := by
    match text, starts with
    | [], starts => simp [startsNumber] at starts
    | c :: rest, starts =>
      by_cases digit : c.isDigit = true
      · rw [List.takeWhile_cons_of_pos digit, List.length_cons]
        omega
      · by_cases point : c = '.'
        · subst point
          rw [List.takeWhile_cons_of_neg digit]
          simp only [List.length_nil, List.drop_zero, fractionLength]
          omega
        · cases rest <;> simp_all [startsNumber]
  unfold scanDecimal
  dsimp only
  split <;> try (dsimp only; omega)
  split <;> try (dsimp only; omega)
  split <;> (dsimp only; omega)

theorem scanNumber_pos {f : Features} {text : List Char} (starts : startsNumber text = true) :
    0 < (scanNumber f text).2 := by
  unfold scanNumber
  split
  · split
    · dsimp only
      omega
    · exact scanDecimal_pos starts
  · exact scanDecimal_pos starts

end TolerantParser
