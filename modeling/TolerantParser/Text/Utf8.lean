/-!
Decoding of UTF-8. Each maximal piece that cannot be part of a well-formed sequence becomes one
replacement character, as the Unicode standard recommends.

Embeds the decoding of `_read_source`.
-/

namespace TolerantParser

/-- The bytes that may follow a lead byte: how many, and the range of the first of them. Overlong
forms, surrogates and code points beyond the last one are shut out by that range. -/
def continuation? (lead : Nat) : Option (Nat × Nat × Nat) :=
  if 0xc2 ≤ lead ∧ lead ≤ 0xdf then some (1, 0x80, 0xbf)
  else if lead = 0xe0 then some (2, 0xa0, 0xbf)
  else if lead = 0xed then some (2, 0x80, 0x9f)
  else if 0xe1 ≤ lead ∧ lead ≤ 0xef then some (2, 0x80, 0xbf)
  else if lead = 0xf0 then some (3, 0x90, 0xbf)
  else if 0xf1 ≤ lead ∧ lead ≤ 0xf3 then some (3, 0x80, 0xbf)
  else if lead = 0xf4 then some (3, 0x80, 0x8f)
  else none

def replacementChar : Char := Char.ofNat 0xfffd

/-- A sequence that has been begun: the bits so far, the bytes still to come, and the range of the
next one. -/
structure PartialChar where
  bits : Nat
  missing : Nat
  low : Nat
  high : Nat
  deriving DecidableEq, Repr

/-- The bits that a lead byte contributes to a sequence of `missing` further bytes. -/
def leadBits (lead missing : Nat) : Nat := lead % Nat.pow 2 (6 - missing)

/-- Starts a sequence: the characters completed by `byte`, and the sequence it begins. -/
def beginChar (byte : Nat) : List Char × Option PartialChar :=
  if byte < 0x80 then ([Char.ofNat byte], none)
  else match continuation? byte with
    | some (missing, low, high) => ([], some ⟨leadBits byte missing, missing, low, high⟩)
    | none => ([replacementChar], none)

/-- Decodes bytes behind a sequence that may have been begun. A byte that does not continue the
sequence ends it as a replacement character and is read afresh. -/
def decodeUtf8 : Option PartialChar → List Nat → List Char
  | none, [] => []
  | some _, [] => [replacementChar]
  | none, byte :: rest =>
    let (done, next) := beginChar byte
    done ++ decodeUtf8 next rest
  | some p, byte :: rest =>
    if p.low ≤ byte ∧ byte ≤ p.high then
      let bits := p.bits * 64 + byte % 64
      if p.missing ≤ 1 then Char.ofNat bits :: decodeUtf8 none rest
      else decodeUtf8 (some ⟨bits, p.missing - 1, 0x80, 0xbf⟩) rest
    else
      let (done, next) := beginChar byte
      replacementChar :: done ++ decodeUtf8 next rest

end TolerantParser
