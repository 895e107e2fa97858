import TolerantParser.Printer.Prefs
import TolerantParser.Text.Integer

/-!
The commands, and the settings that a command line can make.

Embeds the commands and switches that `build_parser` declares.
-/

namespace TolerantParser

/-- The commands: list the tokens of a file, report its errors, print it back, or measure parsing. -/
inductive Command where
  | tokens
  | parse
  | format
  | bench
  deriving DecidableEq, Repr

namespace Command

def all : List Command := [.tokens, .parse, .format, .bench]

def name : Command → String
  | .tokens => "tokens"
  | .parse => "parse"
  | .format => "format"
  | .bench => "bench"

def ofName? (name : String) : Option Command := all.find? (·.name == name)

end Command

/-- What was given for a setting: nothing, two minuses in place of a value, or a value. -/
inductive Given (α : Type) where
  | nothing
  | blank
  | value (value : α)
  deriving DecidableEq, Repr

namespace Given

/-- Two minuses are never read as a value. -/
def ofText? {α : Type} (read? : String → Option α) (text : String) : Option (Given α) :=
  if text == "--" then some .blank else (read? text).map .value

def value? {α : Type} : Given α → Option α
  | value a => some a
  | _ => none

def isBlank {α : Type} : Given α → Bool
  | blank => true
  | _ => false

end Given

/-- One setting made on the command line. -/
inductive Setting where
  | version (text : Given String)
  | trace
  | onDemand
  | afterComma (count : Given Int)
  | beforeComment (count : Given Int)
  | lineEnding (ending : Given LineEnding)
  | check
  | runs (count : Given Int)
  | warmups (count : Given Int)
  | threads (count : Given Int)
  | fileLimit (count : Given Int)
  | quiet
  deriving DecidableEq, Repr

/-- All settings. One that is not made, or that the command does not have, is as usual. -/
structure Settings where
  version : Given String := .nothing
  trace : Bool := false
  onDemand : Bool := false
  afterComma : Given Int := .nothing
  beforeComment : Given Int := .nothing
  lineEnding : Given LineEnding := .nothing
  check : Bool := false
  runs : Given Int := .nothing
  warmups : Given Int := .nothing
  threads : Given Int := .nothing
  fileLimit : Given Int := .nothing
  quiet : Bool := false
  deriving DecidableEq, Repr

/-- A setting that is made again replaces the one before. -/
def Settings.apply (s : Settings) : Setting → Settings
  | .version text => { s with version := text }
  | .trace => { s with trace := true }
  | .onDemand => { s with onDemand := true }
  | .afterComma count => { s with afterComma := count }
  | .beforeComment count => { s with beforeComment := count }
  | .lineEnding ending => { s with lineEnding := ending }
  | .check => { s with check := true }
  | .runs count => { s with runs := count }
  | .warmups count => { s with warmups := count }
  | .threads count => { s with threads := count }
  | .fileLimit count => { s with fileLimit := count }
  | .quiet => { s with quiet := true }

/-- What a switch does: it asks for help, makes a setting, or reads one from a value. -/
inductive SwitchAction where
  | help
  | sets (setting : Setting)
  | takes (read? : String → Option Setting)

/-- A switch of a command. -/
structure Switch where
  name : String
  action : SwitchAction

namespace Switch

/-- A switch of one letter behind a single minus. -/
def isLetter (s : Switch) : Bool := s.name.length == 2

/-- A switch with a value. -/
def ofValue {α : Type} (name : String) (read? : String → Option α) (setting : Given α → Setting) :
    Switch :=
  { name, action := .takes fun text => (Given.ofText? read? text).map setting }

def ofNumber (name : String) (setting : Given Int → Setting) : Switch :=
  ofValue name (fun text => (readInteger text).toOption) setting

def ofFlag (name : String) (setting : Setting) : Switch := { name, action := .sets setting }

/-- The switches that stand before the command. -/
def general : List Switch := [⟨"-h", .help⟩, ⟨"--help", .help⟩]

/-- The names of the ways to end a line. -/
def lineEndings : List (String × LineEnding) := [("cr", .cr), ("crlf", .crlf), ("lf", .lf)]

/-- The switches that every command has. -/
def shared : List Switch :=
  general ++ [
    .ofValue "--grammar" some .version,
    .ofFlag "--trace" .trace,
    .ofFlag "--naive-stream" .onDemand]

/-- The switches of a command. -/
def ofCommand : Command → List Switch
  | .tokens => shared
  | .parse => shared
  | .format =>
    shared ++ [
      .ofNumber "--spaces-after-comma" .afterComma,
      .ofNumber "--spaces-before-comment" .beforeComment,
      .ofValue "--line-ending" (fun text => lineEndings.lookup text) .lineEnding,
      .ofFlag "--check" .check]
  | .bench =>
    shared ++ [
      .ofNumber "--runs" .runs,
      .ofNumber "--warmups" .warmups,
      .ofNumber "--threads" .threads,
      .ofFlag "--no-progress" .quiet,
      .ofNumber "--limit-files" .fileLimit]

end Switch

end TolerantParser
