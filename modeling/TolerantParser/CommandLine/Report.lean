import TolerantParser.CommandLine.Path
import TolerantParser.Document
import TolerantParser.Printer.Prefs

/-!
What a run of a command leaves behind.

Embeds what `main` prints and how it ends, and the log entry of `ParseSession._parse`.
-/

namespace TolerantParser

/-- An entry of the log: a repair, or the end of a parse. -/
inductive LogEntry where
  | repair (line : String)
  | parsed (chars : Nat) (dialect : Dialect) (statements errors : Nat)
  deriving DecidableEq, Repr

/-- The entry on one line. `elapsed` is the time that the parse took, in milliseconds. -/
def LogEntry.text (elapsed : String) : LogEntry → String
  | .repair line => "DEBUG lenientpy.parser.recovery: " ++ line
  | .parsed chars dialect statements errors =>
    s!"DEBUG lenientpy.parser.session: parsed {chars} chars with grammar {dialect.label}: " ++
    s!"{statements} statements, {errors} errors in {elapsed}ms"

/-- The log of a parse: the repairs, if they were traced, and its end. -/
def Document.logEntries (document : Document) (source : String) : List LogEntry :=
  document.trace.map .repair ++
    [.parsed source.length document.dialect document.statements.length document.errors.length]

/-- Why a run was given up. -/
inductive RunError where
  | options (cause : OptionsError)
  | prefs (cause : PrefsError)
  | fault (cause : Fault)
  | blankSetting
  | unusablePath
  | noFile (path : Path)
  | notAFile (path : Path)
  deriving DecidableEq, Repr

def RunError.message : RunError → String
  | .options cause => cause.message
  | .prefs cause => cause.message
  | .fault cause => cause.message
  | .blankSetting => "a setting was left blank"
  | .unusablePath => "embedded null byte"
  | .noFile path => s!"[Errno 2] No such file or directory: {quoted path.text}"
  | .notAFile path => s!"[Errno 21] Is a directory: {quoted path.text}"

/-- How a run ends: with an exit code, with a complaint about what it was asked, or given up. -/
inductive Ending where
  | code (code : Nat)
  | complaint (text : String)
  | failed (cause : RunError)
  deriving DecidableEq, Repr

/-- What a run leaves: its output, its log, its report of errors, and how it ends. -/
structure Report where
  output : String := ""
  log : List LogEntry := []
  errorOutput : String := ""
  ending : Ending
  deriving DecidableEq, Repr

namespace Report

def ofError (cause : RunError) : Report := { ending := .failed cause }

/-- The log, one entry on a line, and the report of errors behind it. -/
def diagnostics (report : Report) (elapsed : String) : String :=
  String.join (report.log.map fun entry => entry.text elapsed ++ "\n") ++ report.errorOutput

end Report

end TolerantParser
