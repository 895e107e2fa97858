/-!
Times on a benchmark's report. Durations are whole numbers of nanoseconds.

Embeds the lines of `_cmd_bench` that show a time.
-/

namespace TolerantParser

/-- A quotient with a number of decimals, rounded to the nearest; a half is rounded up. -/
def decimalText (decimals numerator denominator : Nat) : String :=
  let scale := Nat.pow 10 decimals
  let units := (2 * numerator * scale + denominator) / (2 * denominator)
  let fraction := toString (units % scale)
  let zeros := String.ofList (List.replicate (decimals - fraction.length) '0')
  toString (units / scale) ++ "." ++ zeros ++ fraction

/-- Milliseconds with two decimals. -/
def millisecondsText (nanoseconds : Nat) : String := decimalText 2 nanoseconds 1000000

/-- The median of durations, twice over: the sum of the two in the middle. -/
def twiceMedian (durations : List Nat) : Nat :=
  let sorted := durations.mergeSort
  let last := sorted.length - 1
  sorted.getD (last / 2) 0 + sorted.getD (last - last / 2) 0

/-- The lines about durations, of which there must be some, over a number of files. -/
def timingLines (files : Nat) (durations : List Nat) : List String :=
  let second := 1000000000
  let total := durations.foldl (· + ·) 0
  let seconds (numerator parts : Nat) : String := decimalText 4 numerator (parts * second) ++ "s"
  [ "Best:   " ++ seconds (durations.foldl min total) 1,
    "Median: " ++ seconds (twiceMedian durations) 2,
    "Mean:   " ++ seconds total durations.length,
    "Worst:  " ++ seconds (durations.foldl max 0) 1,
    "Files/s (mean): " ++ decimalText 1 (files * durations.length * second) (max total 1) ]

end TolerantParser
