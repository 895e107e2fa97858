import TolerantParser.Text.Quoted

/-!
Preferences for printing. Each may be left open, and then the text keeps what it has.

Embeds `PrettyPrinterPrefs`.
-/

namespace TolerantParser

/-- The ways to end a line. -/
inductive LineEnding where
  | lf
  | crlf
  | cr
  deriving DecidableEq, Repr

namespace LineEnding

def text : LineEnding → String
  | .lf => "\n"
  | .crlf => "\r\n"
  | .cr => "\r"

def ofText? (text : String) : Option LineEnding := [.lf, .crlf, .cr].find? (·.text == text)

end LineEnding

/-- Blanks behind a comma, blanks in front of a comment on a line, and the way to end lines. -/
structure Prefs where
  afterComma : Option Nat
  beforeComment : Option Nat
  lineEnding : Option LineEnding
  deriving DecidableEq, Repr

/-- Why preferences were refused. -/
inductive PrefsError where
  | negativeAfterComma (count : Int)
  | negativeBeforeComment (count : Int)
  | unknownLineEnding (text : String)
  deriving DecidableEq, Repr

def PrefsError.message : PrefsError → String
  | .negativeAfterComma count => s!"spaces_after_comma must be non-negative, got {count}"
  | .negativeBeforeComment count => s!"spaces_before_comment must be non-negative, got {count}"
  | .unknownLineEnding text => s!"Unsupported line ending {quoted text}"

namespace Prefs

/-- Everything left open. -/
def keep : Prefs := { afterComma := none, beforeComment := none, lineEnding := none }

/-- A count that must not be negative. -/
def count? (refuse : Int → PrefsError) : Option Int → Except PrefsError (Option Nat)
  | none => .ok none
  | some count => if count < 0 then .error (refuse count) else .ok (some count.toNat)

/-- Counts are looked at before the line ending, the one for commas first. -/
def make? (afterComma beforeComment : Option Int) (lineEnding : Option String) :
    Except PrefsError Prefs := do
  let afterComma ← count? .negativeAfterComma afterComma
  let beforeComment ← count? .negativeBeforeComment beforeComment
  match lineEnding with
  | none => return { afterComma, beforeComment, lineEnding := none }
  | some text =>
    match LineEnding.ofText? text with
    | some ending => return { afterComma, beforeComment, lineEnding := some ending }
    | none => throw (.unknownLineEnding text)

end Prefs

end TolerantParser
