import TolerantParser.CommandLine.Benchmark
import TolerantParser.Printer.Basic
import TolerantParser.Token.Dump

/-!
Running commands on what stands at their paths. Files and the environment are given; nothing is
read from elsewhere.

Embeds `_session`, `_grammar_version`, `_cmd_tokens`, `_cmd_parse`, `_cmd_format` and `main`.
-/

namespace TolerantParser

namespace Settings

/-- The preferences that settings ask for. A blank line ending is none, and no count may be blank;
the one for commas is looked at first. -/
def prefs? (settings : Settings) : Except RunError Prefs := do
  if settings.afterComma.isBlank then throw .blankSetting
  let prefs ← (Prefs.make? settings.afterComma.value? settings.beforeComment.value?
    (settings.lineEnding.value?.map (·.text))).mapError .prefs
  if settings.beforeComment.isBlank then throw .blankSetting
  return prefs

/-- Runs in the session that settings and the environment ask for. -/
def withSession (settings : Settings) (environment : String → Option String)
    (go : Session → Report) : Report :=
  match settings.session? environment with
  | .error cause => .ofError cause
  | .ok session => go session

end Settings

/-- Counts what a benchmark parses. -/
def Benchmark.report (benchmark : Benchmark) : Report :=
  match benchmark.run with
  | .error cause => .ofError (.fault cause)
  | .ok tally => { output := benchmark.summary tally, ending := .code 0 }

namespace Invocation

/-- The log of a parse, if the command line asks for it. -/
def logOf (invocation : Invocation) (document : Document) (source : String) : List LogEntry :=
  if invocation.settings.trace then document.logEntries source else []

/-- Lists the tokens of a text. -/
def listing (invocation : Invocation) (source : String) : Report :=
  match invocation.settings.dialect? with
  | .error cause => .ofError cause
  | .ok dialect => { output := listTokens (lex dialect source) ++ "\n", ending := .code 0 }

/-- Reports the errors of a text. -/
def check (invocation : Invocation) (session : Session) (source : String) : Report :=
  match session.parse source with
  | .error cause => .ofError (.fault cause)
  | .ok document =>
    let log := invocation.logOf document source
    let path := invocation.path.text
    if document.hasErrors then
      { output := reportErrors document.errors (some path) ++ "\n", log, ending := .code 1 }
    else
      { output := s!"{path}: ok ({document.statements.length} statements, " ++
          s!"grammar {document.dialect.label})\n"
        log, ending := .code 0 }

/-- Prints a text back, or only tells whether that changes it. -/
def format (invocation : Invocation) (session : Session) (source : String) : Report :=
  match session.parse source with
  | .error cause => .ofError (.fault cause)
  | .ok document =>
    let log := invocation.logOf document source
    match invocation.settings.prefs? with
    | .error cause => { log, ending := .failed cause }
    | .ok prefs =>
      match document.tree.print? session.limits prefs with
      | .error cause => { log, ending := .failed (.fault cause) }
      | .ok formatted =>
        let errorOutput :=
          if document.hasErrors then
            reportErrors document.errors (some invocation.path.text) ++ "\n"
          else ""
        if invocation.settings.check then
          { log, errorOutput, ending := .code (if formatted == source then 0 else 1) }
        else { output := formatted, log, errorOutput, ending := .code 0 }

/-- The text of the file at the path of the command. -/
def source? (invocation : Invocation) (place : Place) : Except RunError String :=
  if !invocation.path.isUsable then .error .unusablePath
  else match place with
    | .missing => .error (.noFile invocation.path)
    | .directory _ => .error (.notAFile invocation.path)
    | .file bytes => .ok (decodeFile bytes)

/-- Runs a command on the file at its path. -/
def withSource (invocation : Invocation) (place : Place) (go : String → Report) : Report :=
  match invocation.source? place with
  | .error cause => .ofError cause
  | .ok source => go source

/-- Runs a command. The environment is looked at before the file to report on, and after the file to
print. -/
def run (invocation : Invocation) (environment : String → Option String) (place : Place) :
    Report :=
  match invocation.command with
  | .tokens => invocation.withSource place invocation.listing
  | .parse =>
    invocation.settings.withSession environment fun session =>
      invocation.withSource place fun source => invocation.check session source
  | .format =>
    invocation.withSource place fun source =>
      invocation.settings.withSession environment fun session => invocation.format session source
  | .bench =>
    match Benchmark.prepare? invocation.settings environment invocation.path place with
    | .error ending => { ending }
    | .ok benchmark => benchmark.report

end Invocation

end TolerantParser
