import TolerantParser.Dialect.Basic
import TolerantParser.Dialect.Features
import TolerantParser.Token.Kind

/-!
The words and operators of each dialect, and the statement form that each leading token begins.

Embeds `Grammar` with `defines` and `keyword_kind`, and `_build_grammar`; the tables are looked up where the registry
keeps them.
-/

namespace TolerantParser

/-- The statements that end with their line, named for the word they begin with. -/
inductive SimpleForm where
  | pass
  | break
  | continue
  | return
  | raise
  | global
  | nonlocal
  | delete
  | importName
  | importFrom
  | assert
  | yield
  | print
  | exec
  deriving DecidableEq, Repr

/-- The statements that hold blocks. -/
inductive CompoundForm where
  | conditional
  | whileLoop
  | forLoop
  | tryBlock
  | withBlock
  | function
  | classBody
  | decorated
  deriving DecidableEq, Repr

/-- The name that dialect listings show for a form. -/
def SimpleForm.label : SimpleForm → String
  | .pass => "pass_stmt"
  | .break => "break_stmt"
  | .continue => "continue_stmt"
  | .return => "return_stmt"
  | .raise => "raise_stmt"
  | .global => "global_stmt"
  | .nonlocal => "nonlocal_stmt"
  | .delete => "del_stmt"
  | .importName => "import_name"
  | .importFrom => "import_from"
  | .assert => "assert_stmt"
  | .yield => "yield_stmt"
  | .print => "print_stmt"
  | .exec => "exec_stmt"

def CompoundForm.label : CompoundForm → String
  | .conditional => "if_stmt"
  | .whileLoop => "while_stmt"
  | .forLoop => "for_stmt"
  | .tryBlock => "try_stmt"
  | .withBlock => "with_stmt"
  | .function => "funcdef"
  | .classBody => "classdef"
  | .decorated => "decorated"

/-- The kinds that every dialect has without naming a word or an operator for them. -/
def structuralKinds : List TokenKind := [
  .endOfFile, .newline, .indent, .dedent, .comment, .error, .name, .number, .string]

/-- The words that every dialect reserves. -/
def sharedKeywords : List (String × TokenKind) := [
  ("and", .kwAnd), ("as", .kwAs), ("assert", .kwAssert), ("break", .kwBreak), ("class", .kwClass),
  ("continue", .kwContinue), ("def", .kwDef), ("del", .kwDel), ("elif", .kwElif),
  ("else", .kwElse), ("except", .kwExcept), ("finally", .kwFinally), ("for", .kwFor),
  ("from", .kwFrom), ("global", .kwGlobal), ("if", .kwIf), ("import", .kwImport), ("in", .kwIn),
  ("is", .kwIs), ("lambda", .kwLambda), ("not", .kwNot), ("or", .kwOr), ("pass", .kwPass),
  ("raise", .kwRaise), ("return", .kwReturn), ("try", .kwTry), ("while", .kwWhile),
  ("yield", .kwYield)]

/-- The operators of every dialect. -/
def sharedOperators : List (String × TokenKind) := [
  ("(", .leftParen), (")", .rightParen), ("[", .leftBracket), ("]", .rightBracket),
  ("\x7b", .leftBrace), ("\x7d", .rightBrace), (":", .colon), (",", .comma), (";", .semicolon),
  (".", .dot), ("@", .at), ("+", .plus), ("-", .minus), ("*", .star), ("/", .slash), ("|", .bar),
  ("&", .ampersand), ("<", .less), (">", .greater), ("=", .equal), ("%", .percent), ("~", .tilde),
  ("^", .circumflex), ("==", .equalEqual), ("!=", .notEqual), ("<=", .lessEqual),
  (">=", .greaterEqual), ("<<", .leftShift), (">>", .rightShift), ("**", .doubleStar),
  ("//", .doubleSlash), ("+=", .plusEqual), ("-=", .minusEqual), ("*=", .starEqual),
  ("/=", .slashEqual), ("%=", .percentEqual), ("&=", .ampersandEqual), ("|=", .barEqual),
  ("^=", .circumflexEqual), ("<<=", .leftShiftEqual), (">>=", .rightShiftEqual),
  ("**=", .doubleStarEqual), ("//=", .doubleSlashEqual)]

/-- The statements that every dialect has, by the token they begin with. -/
def sharedSimpleForms : List (TokenKind × SimpleForm) := [
  (.kwPass, .pass), (.kwBreak, .break), (.kwContinue, .continue), (.kwReturn, .return),
  (.kwRaise, .raise), (.kwGlobal, .global), (.kwDel, .delete), (.kwImport, .importName),
  (.kwFrom, .importFrom), (.kwAssert, .assert), (.kwYield, .yield)]

/-- The block statements that every dialect has. -/
def sharedCompoundForms : List (TokenKind × CompoundForm) := [
  (.kwIf, .conditional), (.kwWhile, .whileLoop), (.kwFor, .forLoop), (.kwTry, .tryBlock),
  (.kwDef, .function), (.kwClass, .classBody), (.at, .decorated)]

namespace Dialect

/-- The reserved words of a dialect. -/
def keywords (d : Dialect) : List (String × TokenKind) :=
  sharedKeywords ++
  (if d.since .v30 then
    [("nonlocal", .kwNonlocal), ("True", .kwTrue), ("False", .kwFalse), ("None", .kwNone)]
  else [("print", .kwPrint), ("exec", .kwExec)]) ++
  (if d.since .v25 then [("with", .kwWith)] else [])

/-- The operators of a dialect, brackets and punctuation included. -/
def operators (d : Dialect) : List (String × TokenKind) :=
  sharedOperators ++
  (if d.since .v30 then [("->", .arrow), ("...", .ellipsis)]
  else [("<>", .lessGreater), ("\x60", .backquote)])

def simpleForms (d : Dialect) : List (TokenKind × SimpleForm) :=
  sharedSimpleForms ++
  (if d.since .v30 then [(.kwNonlocal, .nonlocal)] else [(.kwPrint, .print), (.kwExec, .exec)])

def compoundForms (d : Dialect) : List (TokenKind × CompoundForm) :=
  sharedCompoundForms ++ (if d.since .v25 then [(.kwWith, .withBlock)] else [])

/-- The letters that may stand in front of a string literal, in lower case. -/
def stringMarks (d : Dialect) : List String :=
  if d.since .v30 then ["", "r", "b", "br"]
  else if d.since .v26 then ["", "r", "u", "ur", "b", "br"]
  else ["", "r", "u", "ur"]

/-- The kinds of token that a dialect defines. -/
def defines (d : Dialect) (kind : TokenKind) : Bool :=
  structuralKinds.contains kind || (d.keywords.map Prod.snd).contains kind ||
  (d.operators.map Prod.snd).contains kind

/-- The kind of a word: a reserved word's own kind, or a name. -/
def wordKind (d : Dialect) (word : String) : TokenKind := (d.keywords.lookup word).getD .name

def operatorKind? (d : Dialect) (text : String) : Option TokenKind := d.operators.lookup text

def simpleForm? (d : Dialect) (kind : TokenKind) : Option SimpleForm := d.simpleForms.lookup kind

def compoundForm? (d : Dialect) (kind : TokenKind) : Option CompoundForm :=
  d.compoundForms.lookup kind

theorem wordKind_eq_name_or_mem (d : Dialect) (word : String) :
    d.wordKind word = .name ∨ (word, d.wordKind word) ∈ d.keywords := by
  unfold wordKind
  cases found : d.keywords.lookup word with
  | none => exact .inl rfl
  | some kind =>
    obtain ⟨before, after, split, -⟩ := List.lookup_eq_some_iff.1 found
    exact .inr (by simp [split])

theorem defines_wordKind (d : Dialect) (word : String) : d.defines (d.wordKind word) = true := by
  rcases d.wordKind_eq_name_or_mem word with named | listed
  · rw [named]
    simp [defines, structuralKinds]
  · simp only [defines, Bool.or_eq_true, List.contains_iff_mem]
    exact .inl (.inr (List.mem_map_of_mem listed))

theorem defines_of_operatorKind? {d : Dialect} {text : String} {kind : TokenKind}
    (found : d.operatorKind? text = some kind) : d.defines kind = true := by
  obtain ⟨before, after, split, -⟩ := List.lookup_eq_some_iff.1 found
  simp [defines, split]

end Dialect

end TolerantParser
