/-!
The kinds of error that a parse repairs and reports, with the texts that go with each.

Embeds `ParseErrorKind`, `DiagnosticSpec` and `spec_for`.
-/

namespace TolerantParser

/-- What the parser found wrong. -/
inductive ErrorKind where
  | indentExpected
  | dedentExpected
  | nameExpected
  | unmatchedBracket
  | statementMalformed
  | compoundMalformed
  | newlineExpected
  | endOfFileExpected
  | dictValueMissing
  | suiteMatchFailed
  | emptySuite
  deriving DecidableEq, Repr, Inhabited

/-- How grave a diagnostic is. -/
inductive Severity where
  | error
  | warning
  deriving DecidableEq, Repr

def Severity.label : Severity → String
  | .error => "error"
  | .warning => "warning"

/-- What is said about every error of one kind. The message stands where an error has none of its
own. -/
structure DiagnosticSpec where
  code : String
  message : String
  hint : Option String
  severity : Severity
  category : Option String
  deriving DecidableEq, Repr

namespace ErrorKind

def all : List ErrorKind := [
  .indentExpected, .dedentExpected, .nameExpected, .unmatchedBracket, .statementMalformed,
  .compoundMalformed, .newlineExpected, .endOfFileExpected, .dictValueMissing, .suiteMatchFailed,
  .emptySuite]

/-- The name of a kind in error rows. -/
def label : ErrorKind → String
  | .indentExpected => "INDENT_EXPECTED"
  | .dedentExpected => "DEDENT_EXPECTED"
  | .nameExpected => "NAME_EXPECTED"
  | .unmatchedBracket => "UNMATCHED_PAREN_NEARBY"
  | .statementMalformed => "STATEMENT_MALFORMED"
  | .compoundMalformed => "COMPOUND_STATEMENT_MALFORMED"
  | .newlineExpected => "NEWLINE_EXPECTED"
  | .endOfFileExpected => "EOF_EXPECTED"
  | .dictValueMissing => "DICT_VALUE_MISSING"
  | .suiteMatchFailed => "SUITE_MATCH_FAILED"
  | .emptySuite => "EMPTY_SUITE_DETECTED"

def ofLabel? (label : String) : Option ErrorKind := all.find? (·.label == label)

/-- The word for a kind in the trace of repairs: its name in lower case. -/
def word (kind : ErrorKind) : String := String.ofList (kind.label.toList.map Char.toLower)

private def messageOf : ErrorKind → String
  | .indentExpected => "Expected an indented block."
  | .dedentExpected => "Expected the end of the indented block."
  | .nameExpected => "Expected a name."
  | .unmatchedBracket => "Expected a closing bracket."
  | .statementMalformed => "Invalid statement."
  | .compoundMalformed => "Invalid compound statement header."
  | .newlineExpected => "Expected the end of the statement."
  | .endOfFileExpected => "Unexpected token at module level."
  | .dictValueMissing => "Dictionary key has no value."
  | .suiteMatchFailed => "Expected a statement or a newline after \x60:\x60."
  | .emptySuite => "Block has no statements."

private def hintOf : ErrorKind → Option String
  | .indentExpected => some "Indent the statements that belong to this block."
  | .unmatchedBracket =>
    some "Check that every opening bracket is closed on the same logical line."
  | .newlineExpected =>
    some "Put each statement on its own line or separate them with \x60;\x60."
  | .dictValueMissing => some "Write entries as \x60key: value\x60."
  | .emptySuite => some "Add \x60pass\x60 if the block is meant to be empty."
  | _ => none

/-- The texts for a kind. All kinds are errors of the parser. -/
def spec (kind : ErrorKind) : DiagnosticSpec :=
  { code := "PARSER_" ++ kind.label, message := messageOf kind, hint := hintOf kind,
    severity := .error, category := some "parser" }

theorem mem_all (kind : ErrorKind) : kind ∈ all := by
  cases kind <;> decide

end ErrorKind

end TolerantParser
