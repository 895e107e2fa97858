import TolerantParser.Token.Basic

/-!
Token listings: one numbered line for each token.

Embeds `dump_tokens`.
-/

namespace TolerantParser

/-- A number with zeros in front, up to four digits. -/
def padNumber (n : Nat) : String :=
  let digits := toString n
  String.ofList (List.replicate (4 - digits.length) '0') ++ digits

/-- A word with blanks behind it, up to sixteen characters. -/
def padWord (word : String) : String :=
  word ++ String.ofList (List.replicate (16 - word.length) ' ')

def Token.listing (index : Nat) (token : Token) : String :=
  s!"{padNumber index} {padWord token.kind.label} {token.first.line}:{token.first.column}-" ++
  s!"{token.last.line}:{token.last.column} " ++
  s!"prefix={quoted token.lead} text={quoted token.text}"

/-- A listing of tokens, numbered from zero. -/
def listTokens (tokens : List Token) : String :=
  "\n".intercalate (tokens.zipIdx.map fun (token, index) => token.listing index)

end TolerantParser
