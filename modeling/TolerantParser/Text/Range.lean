/-!
Sizes and half-open ranges of text, counted in characters.

Embeds `TextSize` and `TextRange`.
-/

namespace TolerantParser

/-- Why a size or a range could not be made. -/
inductive RangeError where
  | negativeSize
  | negativePosition
  | startAfterEnd
  deriving DecidableEq, Repr

def RangeError.message : RangeError → String
  | .negativeSize => "TextSize cannot be negative"
  | .negativePosition => "TextRange positions cannot be negative"
  | .startAfterEnd => "TextRange invariant violated: start > end"

/-- A length of text, or an index into it. -/
structure TextSize where
  value : Nat
  deriving DecidableEq, Repr

namespace TextSize

def ofInt? (value : Int) : Except RangeError TextSize :=
  if value < 0 then .error .negativeSize else .ok ⟨value.toNat⟩

def describe (size : TextSize) : String := s!"TextSize({size.value})"

end TextSize

/-- The characters from `start` up to, and without, `stop`. -/
structure TextRange where
  start : Nat
  stop : Nat
  ordered : start ≤ stop := by omega
  deriving DecidableEq, Repr

namespace TextRange

/-- A negative end is reported before ends in the wrong order. -/
def ofInts? (start stop : Int) : Except RangeError TextRange :=
  if start < 0 ∨ stop < 0 then .error .negativePosition
  else if h : start ≤ stop then .ok ⟨start.toNat, stop.toNat, by omega⟩
  else .error .startAfterEnd

def isEmpty (r : TextRange) : Bool := r.start == r.stop

def describe (r : TextRange) : String := s!"TextRange({r.start}, {r.stop})"

/-- Ranges are ordered by start, and ranges with one start by end. -/
protected def lt (r s : TextRange) : Bool :=
  r.start < s.start || (r.start == s.start && r.stop < s.stop)

protected def le (r s : TextRange) : Bool :=
  r.start < s.start || (r.start == s.start && r.stop ≤ s.stop)

end TextRange

end TolerantParser
