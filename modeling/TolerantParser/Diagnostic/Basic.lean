import TolerantParser.Diagnostic.Kind
import TolerantParser.Token.Cell

/-!
Errors at their tokens, and reports of them.

Embeds `ParseError` with `new`, `code` and `hint` and the line that shows it, `has_errors` and `format_errors`.
-/

namespace TolerantParser

/-- An error that was repaired, at the token where it was found. -/
structure ParseError where
  kind : ErrorKind
  cell : Cell
  message : String
  deriving DecidableEq, Repr

namespace ParseError

/-- An error with a message of its own, or with that of its kind if there is none or an empty one. -/
def ofMessage (kind : ErrorKind) (cell : Cell) (message : Option String) : ParseError :=
  { kind, cell, message := match message with
      | some text => if text.isEmpty then kind.spec.message else text
      | none => kind.spec.message }

def code (e : ParseError) : String := e.kind.spec.code

def hint (e : ParseError) : Option String := e.kind.spec.hint

/-- An error on one line: where it is, its code and its message. -/
def describe (e : ParseError) : String :=
  s!"{e.cell.first.line}:{e.cell.first.column}: {e.code}: {e.message}"

end ParseError

/-- Some diagnostic is an error and not a warning. -/
def hasErrors (errors : List ParseError) : Bool := errors.any (·.kind.spec.severity == .error)

/-- One line for each error, each behind the path if one is given. -/
def reportErrors (errors : List ParseError) (path : Option String) : String :=
  let origin := match path with
    | some text => if text.isEmpty then "" else text ++ ":"
    | none => ""
  "\n".intercalate (errors.map fun e => origin ++ e.describe)

end TolerantParser
