import TolerantParser.Document
import TolerantParser.Lexer.Supply
import TolerantParser.Main
import TolerantParser.Options
import TolerantParser.Printer.Basic
import TolerantParser.Proofs.Document.Appended
import TolerantParser.Proofs.Document.Blocks
import TolerantParser.Proofs.Document.Charges
import TolerantParser.Proofs.Document.Closers
import TolerantParser.Proofs.Document.Formatted
import TolerantParser.Proofs.Document.LastLine
import TolerantParser.Proofs.Document.Later
import TolerantParser.Proofs.Document.Literals
import TolerantParser.Proofs.Document.Options
import TolerantParser.Proofs.Document.Outermost
import TolerantParser.Proofs.Document.Parameters
import TolerantParser.Proofs.Document.Placeholders
import TolerantParser.Proofs.Document.Precedence
import TolerantParser.Proofs.Document.Report
import TolerantParser.Proofs.Document.RoundTrip
import TolerantParser.Proofs.Document.Rows
import TolerantParser.Proofs.Document.Spacing
import TolerantParser.Proofs.Document.Spans
import TolerantParser.Proofs.Lexeme.Alone
import TolerantParser.Proofs.Lexeme.Delimited
import TolerantParser.Proofs.Lexer.Alone
import TolerantParser.Proofs.Lexer.Calls
import TolerantParser.Proofs.Lexer.Depth
import TolerantParser.Proofs.Lexer.HollowLines
import TolerantParser.Proofs.Lexer.Indentation
import TolerantParser.Proofs.Lexer.LineStarts
import TolerantParser.Proofs.Lexer.Numerals
import TolerantParser.Proofs.Lexer.Respelled
import TolerantParser.Proofs.Lexer.Standing
import TolerantParser.Proofs.Parser.Colons
import TolerantParser.Proofs.Parser.Rewinding
import TolerantParser.Proofs.Statement.Ladder
import TolerantParser.Proofs.Stream.Coming
import TolerantParser.Proofs.Stream.Finding
import TolerantParser.Proofs.Stream.Linked
import TolerantParser.Proofs.Stream.OnDemand
import TolerantParser.Proofs.Workbench.Accounts
import TolerantParser.Text.Utf8
import TolerantParser.Token.Dump
import TolerantParser.Tree.Collect
import TolerantParser.Workbench.ParserSteps
import TolerantParser.Workbench.StreamSteps
