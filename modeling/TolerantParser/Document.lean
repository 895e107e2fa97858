import TolerantParser.Lexer.Basic
import TolerantParser.Parser.Statement.Basic
import TolerantParser.Tree.Comments
import TolerantParser.Tree.Renumber

/-!
Parsing documents: tokens go in, and a tree with its comments, the tokens in their places and the
errors come out. A session parses many texts with one dialect and one set of options.

Embeds `ParseSession` with `parse`, `reparse` and `_parse`, `DocumentSnapshot` and `ParseResult`.
-/

namespace TolerantParser

/-- A parsed document. Tokens are numbered by their places, in the list, in the tree and in the
errors alike. `trace` has a line for each repair, if the options asked for it. -/
structure Document where
  dialect : Dialect
  tree : Node
  tokens : List Cell
  errors : List ParseError
  trace : List String

namespace Document

def hasErrors (document : Document) : Bool := TolerantParser.hasErrors document.errors

/-- The statements of a document. -/
def statements (document : Document) : List Node := document.tree.children.nodes

/-- Puts what a parse gave in the order of the document. -/
def settle (parser : Parser) (tree : Node) (errors : Array ParseError) (cells : List Cell) :
    Document :=
  let places := Places.ofDocument cells parser.stream.size
  let tokens := places.tokens.toList
  { dialect := parser.dialect
    tree := (tree.mapTokens places.final).attachComments tokens
    tokens
    errors := errors.toList.map fun e => { e with cell := places.final e.cell }
    trace := parser.engine.log.toList }

/-- The parse of a whole document, to its last token. -/
def parse (limits : Limits) : ParseM (Node × Array ParseError × List Cell) := do
  let tree ← Parser.document (Parser.full limits)
  let errors ← Parser.finish
  return (tree, errors, ← Parser.onStream TokenStream.finish)

/-- Parses tokens, the last of which ends the file. -/
def ofTokens? (limits : Limits) (d : Dialect) (options : ParseOptions) (tokens : List Token) :
    Except Fault Document := do
  let stream ← TokenStream.ofTokens 0 d options.onDemand tokens
  match parse limits (.ofStream stream options) with
  | .ok (tree, errors, cells) parser => return settle parser tree errors cells
  | .error fault _ => throw fault

/-- Parses a text. -/
def ofText? (limits : Limits) (d : Dialect) (options : ParseOptions) (text : String) : Except Fault Document :=
  ofTokens? limits d options (lex d text)

end Document

/-! ### Sessions -/

/-- The state of a text that is being edited, and the dialect it is written in. -/
structure Snapshot where
  text : String
  dialect : Dialect
  deriving DecidableEq, Repr

/-- A way of parsing. A session keeps nothing of the texts that it has parsed. -/
structure Session where
  dialect : Dialect
  options : ParseOptions
  limits : Limits := .usual
  deriving DecidableEq, Repr

namespace Session

def parse (session : Session) (text : String) : Except Fault Document :=
  Document.ofText? session.limits session.dialect session.options text

/-- Parses a snapshot in its own dialect, whatever that of the session. -/
def reparse (session : Session) (snapshot : Snapshot) : Except Fault Document :=
  parse { session with dialect := snapshot.dialect } snapshot.text

end Session

/-- Parses a snapshot in a session of its own. -/
def Snapshot.parse (snapshot : Snapshot) (options : ParseOptions) : Except Fault Document :=
  Session.parse { dialect := snapshot.dialect, options } snapshot.text

end TolerantParser
