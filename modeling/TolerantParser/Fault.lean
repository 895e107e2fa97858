import TolerantParser.Dialect.Tables
import TolerantParser.Token.Basic

/-!
Misuse of the parser, as opposed to errors in the text that it repairs. No parse of a text that was
cut by the lexer ends in a fault; steps taken by hand may.

Embeds `GrammarContractError`, `Grammar.require`, and the refusals of `TokenStream`, `Parser` and `Marker`.
-/

namespace TolerantParser

/-- Why a step of the parser or of its token stream was refused. -/
inductive Fault where
  /-- A token reached the parser that the dialect does not define. -/
  | undefinedKind (kind : TokenKind) (dialect : Dialect)
  /-- A token was to be put in behind the end of the file. -/
  | pastEnd
  /-- A stream was to go to a token of another stream. -/
  | foreignToken (token : Token)
  /-- A token was looked for by a number that none has. -/
  | noSlot (index : Nat)
  /-- A stream was to be made of no tokens. -/
  | noTokens
  /-- A step was repeated more often than tokens could be left. -/
  | boundExceeded
  /-- A marker was closed while markers opened after it were open. -/
  | markersOutOfOrder
  /-- The parse was ended with open markers. -/
  | markersLeftOpen (count : Nat)
  /-- A node was to be given a token that the innermost marker has not collected. -/
  | notCollected
  /-- The repair of a missing name gave no name. -/
  | noPlaceholder
  /-- Expressions, blocks or trees are nested too deeply. -/
  | tooDeep
  deriving DecidableEq, Repr

def Fault.message : Fault → String
  | .undefinedKind kind dialect =>
    s!"Token kind {kind.label} is not defined by the Python {dialect.label} grammar"
  | .pastEnd => "Cannot link a token after EOF"
  | .foreignToken token => s!"{token.describe} does not belong to this token stream"
  | .noSlot _ => "list index out of range"
  | .noTokens => "A token stream needs at least one token"
  | .boundExceeded => "A step was repeated more often than tokens were left"
  | .markersOutOfOrder => "Markers must be closed innermost first"
  | .markersLeftOpen count => s!"{count} marker(s) left open at the end of the parse"
  | .notCollected => "list.remove(x): x not in list"
  | .noPlaceholder => "NAME_EXPECTED recovery did not produce a placeholder"
  | .tooDeep => ""

/-- A dialect accepts the kinds that it defines. -/
def Dialect.require (d : Dialect) (kind : TokenKind) : Except Fault Unit :=
  if d.defines kind then .ok () else .error (.undefinedKind kind d)

end TolerantParser
