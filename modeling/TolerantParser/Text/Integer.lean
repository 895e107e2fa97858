import TolerantParser.Text.Quoted

/-!
Reading whole numbers. Blanks may stand around the number; a sign comes directly before the digits;
one underscore may stand between two digits; digits of any script count: the code points of general
category Nd (Unicode version 15). They come in runs of ten, from zero to nine.

Embeds the reading of the numbers that `from_environ` and `build_parser` ask for.
-/

namespace TolerantParser

/-- The code points of the zeros. -/
def digitZeros : List Nat := [
  0x30, 0x660, 0x6f0, 0x7c0, 0x966, 0x9e6, 0xa66, 0xae6, 0xb66, 0xbe6, 0xc66, 0xce6, 0xd66, 0xde6,
  0xe50, 0xed0, 0xf20, 0x1040, 0x1090, 0x17e0, 0x1810, 0x1946, 0x19d0, 0x1a80, 0x1a90, 0x1b50,
  0x1bb0, 0x1c40, 0x1c50, 0xa620, 0xa8d0, 0xa900, 0xa9d0, 0xa9f0, 0xaa50, 0xabf0, 0xff10, 0x104a0,
  0x10d30, 0x11066, 0x110f0, 0x11136, 0x111d0, 0x112f0, 0x11450, 0x114d0, 0x11650, 0x116c0, 0x11730,
  0x118e0, 0x11950, 0x11c50, 0x11d50, 0x11da0, 0x11f50, 0x16a60, 0x16ac0, 0x16b50, 0x1d7ce, 0x1d7d8,
  0x1d7e2, 0x1d7ec, 0x1d7f6, 0x1e140, 0x1e2f0, 0x1e4f0, 0x1e950, 0x1fbf0]

/-- The value of a decimal digit of any script. -/
def digitValue? (c : Char) : Option Nat :=
  (digitZeros.find? fun first => first ≤ c.toNat && c.toNat < first + 10).map (c.toNat - ·)

/-- Why a text is not a whole number. -/
inductive IntegerError where
  | malformed (text : String)
  | tooManyDigits (count : Nat)
  deriving DecidableEq, Repr

/-- The most digits a number may be written with. -/
def maxIntegerDigits : Nat := 4300

/-- The text is shown in quotes, cut after 200 characters. -/
def IntegerError.message : IntegerError → String
  | .malformed text =>
    "invalid literal for int() with base 10: " ++ String.ofList ((quoteChars text.toList).take 200)
  | .tooManyDigits count =>
    s!"Exceeds the limit ({maxIntegerDigits} digits) for integer string conversion: " ++
    s!"value has {count} digits; use sys.set_int_max_str_digits() to increase the limit"

/-- A blank that may stand around a number: the ASCII blanks, and the spaces of Unicode. -/
def isNumberBlank (c : Char) : Bool :=
  [0x20, 0x9, 0xa, 0xb, 0xc, 0xd, 0x85, 0xa0, 0x1680, 0x2028, 0x2029, 0x202f, 0x205f, 0x3000].contains
    c.toNat || (0x2000 ≤ c.toNat && c.toNat ≤ 0x200a)

/-- The digits at the front, and the text after them. An underscore is passed over if a digit comes
before it, which `afterDigit` tells, and after it; any other underscore makes the number malformed. -/
def spanDigits (afterDigit : Bool) : List Char → Option (List Nat × List Char)
  | [] => some ([], [])
  | c :: rest =>
    if c == '_' then
      if afterDigit && rest.head?.any fun next => (digitValue? next).isSome then spanDigits false rest
      else none
    else match digitValue? c with
      | none => some ([], c :: rest)
      | some digit => (spanDigits true rest).map fun (digits, tail) => (digit :: digits, tail)

/-- The number written by decimal digits, the most significant first. -/
def ofDigits (digits : List Nat) : Nat := digits.foldl (fun n d => 10 * n + d) 0

/-- Reads a whole number. -/
def readInteger (text : String) : Except IntegerError Int :=
  let body := text.toList.dropWhile isNumberBlank
  let (negative, body) := match body with
    | '-' :: rest => (true, rest)
    | '+' :: rest => (false, rest)
    | _ => (false, body)
  match spanDigits false body with
  | none => .error (.malformed text)
  | some (digits, tail) =>
    if digits.length > maxIntegerDigits then .error (.tooManyDigits digits.length)
    else if digits.isEmpty || !tail.all isNumberBlank then .error (.malformed text)
    else
      let value : Int := ofDigits digits
      .ok (if negative then -value else value)

end TolerantParser
