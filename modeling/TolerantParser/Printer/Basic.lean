import TolerantParser.Printer.Prefs
import TolerantParser.Tree.Depth

/-!
Printing trees. A node is written as the tokens it owns and its children, in document order, between
the comments that hang before and after it. Preferences change blanks between tokens and line ends,
and nothing else.

Embeds `PrettyPrinter` with `_print`, `_subtree_order` and `_emit`, `pretty_print`, `_is_inline_whitespace` and
`_normalize_line_endings`.
-/

namespace TolerantParser

/-- Parts in the order of the places they start at. -/
def byPlace (parts : List (Nat × List Cell)) : List (Nat × List Cell) :=
  parts.mergeSort fun a b => a.1 ≤ b.1

mutual

/-- The tokens that a node is written as, and the first place among those that it and its children
own. -/
def Node.written : Node → Option Nat × List Cell
  | .mk info children =>
    let parts := byPlace (info.tokens.map (fun cell => (cell.index, [cell])) ++ children.written)
    (parts.head?.map Prod.fst, info.before ++ parts.flatMap Prod.snd ++ info.after)

/-- The same for each child. A child without tokens of its own or below it is not written. -/
def Children.written : Children → List (Nat × List Cell)
  | .nil => []
  | .gap _ rest => rest.written
  | .cons _ node rest =>
    match node.written with
    | (some first, cells) => (first, cells) :: rest.written
    | (none, _) => rest.written

end

namespace Prefs

/-- Blanks that may be changed without joining or splitting lines. -/
def isInline (token : Token) : Bool :=
  !token.startsLine && token.lead.toList.all fun c => c == ' ' || c == '\t'

/-- Every line end of a text, in one way. -/
def normalizeLineEnds (ending : List Char) : List Char → List Char
  | [] => []
  | '\r' :: '\n' :: rest => ending ++ normalizeLineEnds ending rest
  | '\r' :: rest => ending ++ normalizeLineEnds ending rest
  | '\n' :: rest => ending ++ normalizeLineEnds ending rest
  | c :: rest => c :: normalizeLineEnds ending rest

def spaces (count : Nat) : String := String.ofList (List.replicate count ' ')

/-- Tokens in front of which a comma needs no blank. -/
def closesAfterComma (kind : TokenKind) : Bool :=
  kind.isClosing || kind == .newline || kind == .endOfFile || kind == .comment

/-- The blanks to write in front of a token that follows one of kind `previous`. -/
def leadOf (prefs : Prefs) (previous : Option TokenKind) (token : Token) : String :=
  if token.kind == .comment then
    match prefs.beforeComment with
    | some count => if isInline token && previous.isSome then spaces count else token.lead
    | none => token.lead
  else match prefs.afterComma with
    | some count =>
      if previous == some .comma && !closesAfterComma token.kind && isInline token then
        spaces count
      else token.lead
    | none => token.lead

/-- A token as it is written behind one of kind `previous`. -/
def writeToken (prefs : Prefs) (previous : Option TokenKind) (token : Token) : String :=
  let lead := prefs.leadOf previous token
  match prefs.lineEnding with
  | none => lead ++ token.text
  | some ending =>
    let text :=
      if token.kind == .newline && !token.text.isEmpty then ending.text else token.text
    String.ofList (normalizeLineEnds ending.text.toList lead.toList) ++ text

/-- Tokens as they are written. Block layout is invisible: the token before it still counts as the
one before. -/
def write (prefs : Prefs) (cells : List Cell) : String :=
  (cells.foldl (fun (text, previous) cell =>
    (text ++ prefs.writeToken previous cell.toToken,
      if cell.kind.isLayout then previous else some cell.kind))
    (("", none) : String × Option TokenKind)).1

end Prefs

/-- The text of a tree. -/
def Node.print? (limits : Limits) (tree : Node) (prefs : Prefs) : Except Fault String := do
  tree.requireDepth limits.printed
  return prefs.write tree.written.2

end TolerantParser
