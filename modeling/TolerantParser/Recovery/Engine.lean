import TolerantParser.Diagnostic.Basic
import TolerantParser.Options
import TolerantParser.Stream.Basic

/-!
The recovery engine: a token stream together with the errors found in it and a log of the repairs.

Embeds `RecoveryEngine` with `record`, `truncate`, `errors` and `first_error`.
-/

namespace TolerantParser

/-- A token stream, the errors recorded so far, and one line in `log` for each repair, if the
options ask for a trace. -/
structure Engine where
  stream : TokenStream
  options : ParseOptions
  errors : Array ParseError
  log : Array String
  deriving Repr

/-- Steps of the engine. A refused step keeps what was done before. -/
abbrev EngineM := EStateM Fault Engine

namespace Engine

/-- An engine over a fresh stream. -/
def ofStream (stream : TokenStream) (options : ParseOptions) : Engine :=
  { stream, options, errors := #[], log := #[] }

/-- Takes steps on the stream. -/
def onStream {α : Type} (steps : StreamM α) : EngineM α := fun e =>
  match steps e.stream with
  | .ok value stream => .ok value { e with stream }
  | .error fault stream => .error fault { e with stream }

/-- Records an error at the cursor, or at a token given. -/
def record (kind : ErrorKind) (message : Option String) (cell? : Option Cell) :
    EngineM ParseError := do
  let e ← get
  let error := ParseError.ofMessage kind (cell?.getD e.stream.current) message
  set { e with errors := e.errors.push error }
  return error

/-- Drops the errors recorded after the first `length`. -/
def truncate (length : Nat) : EngineM Unit :=
  modify fun e => { e with errors := e.errors.take length }

end Engine

end TolerantParser
