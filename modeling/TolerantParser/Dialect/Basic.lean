import TolerantParser.Text.Quoted

/-!
The dialects of the language that can be parsed, and how a version text selects one.

Embeds `GrammarVersion` and `grammar_version_from_str`.
-/

namespace TolerantParser

/-- A dialect, named for the release that its grammar describes. -/
inductive Dialect where
  | v24
  | v25
  | v26
  | v30
  deriving DecidableEq, Repr, Inhabited

namespace Dialect

def all : List Dialect := [.v24, .v25, .v26, .v30]

/-- The version number of a dialect. -/
def label : Dialect → String
  | .v24 => "2.4"
  | .v25 => "2.5"
  | .v26 => "2.6"
  | .v30 => "3.0"

def name : Dialect → String
  | .v24 => "PYTHON_2_4"
  | .v25 => "PYTHON_2_5"
  | .v26 => "PYTHON_2_6"
  | .v30 => "PYTHON_3_0"

/-- Dialects are ordered by these numbers; a gap keeps the 2.x series apart. -/
def code : Dialect → Nat
  | .v24 => 10
  | .v25 => 11
  | .v26 => 12
  | .v30 => 99

/-- The dialect of a request that names none: the latest of the 2.x series. -/
def latest : Dialect := .v26

/-- `d` has all that `e` introduced, if it is not older. -/
def since (d e : Dialect) : Bool := e.code ≤ d.code

/-- A dialect chosen for a version text, and whether the text named a series at all. -/
structure Choice where
  dialect : Dialect
  recognized : Bool
  deriving DecidableEq, Repr

/-- Releases before 2.4 use its grammar; any other 2.x the latest of the series, any 3.x that of
3.0. A text that names neither series falls back on the latest 2.x. -/
def choose : Option String → Choice
  | none => ⟨latest, false⟩
  | some version =>
    if ["2.1", "2.2", "2.3", "2.4"].contains version then ⟨.v24, true⟩
    else if version == "2.5" then ⟨.v25, true⟩
    else match version.toList with
      | '3' :: _ => ⟨.v30, true⟩
      | '2' :: _ => ⟨latest, true⟩
      | _ => ⟨latest, false⟩

/-- The warning given for a version text that was not recognized. -/
def unrecognized (version : Option String) : String :=
  s!"unable to recognize grammar version {quotedOrNone version}, using {latest.label}"

end Dialect

end TolerantParser
