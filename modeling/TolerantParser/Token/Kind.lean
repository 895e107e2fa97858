/-!
The kinds of token, with the name and the number that token listings show for each.

Embeds `TokenKind` with `is_keyword` and `is_layout`.
-/

namespace TolerantParser

/-- What a token is. Which keywords and operators exist is for a dialect to say. -/
inductive TokenKind where
  | endOfFile
  | newline
  | indent
  | dedent
  | comment
  | error
  | name
  | number
  | string
  | leftParen
  | rightParen
  | leftBracket
  | rightBracket
  | leftBrace
  | rightBrace
  | colon
  | comma
  | semicolon
  | dot
  | at
  | backquote
  | arrow
  | ellipsis
  | plus
  | minus
  | star
  | slash
  | bar
  | ampersand
  | less
  | greater
  | equal
  | percent
  | tilde
  | circumflex
  | equalEqual
  | notEqual
  | lessGreater
  | lessEqual
  | greaterEqual
  | leftShift
  | rightShift
  | doubleStar
  | doubleSlash
  | plusEqual
  | minusEqual
  | starEqual
  | slashEqual
  | percentEqual
  | ampersandEqual
  | barEqual
  | circumflexEqual
  | leftShiftEqual
  | rightShiftEqual
  | doubleStarEqual
  | doubleSlashEqual
  | kwAnd
  | kwAs
  | kwAssert
  | kwBreak
  | kwClass
  | kwContinue
  | kwDef
  | kwDel
  | kwElif
  | kwElse
  | kwExcept
  | kwExec
  | kwFinally
  | kwFor
  | kwFrom
  | kwGlobal
  | kwIf
  | kwImport
  | kwIn
  | kwIs
  | kwLambda
  | kwNonlocal
  | kwNot
  | kwOr
  | kwPass
  | kwPrint
  | kwRaise
  | kwReturn
  | kwTry
  | kwWhile
  | kwWith
  | kwYield
  | kwTrue
  | kwFalse
  | kwNone
  deriving DecidableEq, Repr, Inhabited

namespace TokenKind

/-- Every kind, by number. -/
def all : List TokenKind := [
  .endOfFile, .newline, .indent, .dedent, .comment, .error, .name, .number, .string, .leftParen,
  .rightParen, .leftBracket, .rightBracket, .leftBrace, .rightBrace, .colon, .comma, .semicolon,
  .dot, .at, .backquote, .arrow, .ellipsis, .plus, .minus, .star, .slash, .bar, .ampersand,
  .less, .greater, .equal, .percent, .tilde, .circumflex, .equalEqual, .notEqual, .lessGreater,
  .lessEqual, .greaterEqual, .leftShift, .rightShift, .doubleStar, .doubleSlash, .plusEqual,
  .minusEqual, .starEqual, .slashEqual, .percentEqual, .ampersandEqual, .barEqual,
  .circumflexEqual, .leftShiftEqual, .rightShiftEqual, .doubleStarEqual, .doubleSlashEqual,
  .kwAnd, .kwAs, .kwAssert, .kwBreak, .kwClass, .kwContinue, .kwDef, .kwDel, .kwElif, .kwElse,
  .kwExcept, .kwExec, .kwFinally, .kwFor, .kwFrom, .kwGlobal, .kwIf, .kwImport, .kwIn, .kwIs,
  .kwLambda, .kwNonlocal, .kwNot, .kwOr, .kwPass, .kwPrint, .kwRaise, .kwReturn, .kwTry,
  .kwWhile, .kwWith, .kwYield, .kwTrue, .kwFalse, .kwNone]

/-- The name shown for a kind. -/
def label : TokenKind → String
  | .endOfFile => "EOF"
  | .newline => "NEWLINE"
  | .indent => "INDENT"
  | .dedent => "DEDENT"
  | .comment => "COMMENT"
  | .error => "ERRORTOKEN"
  | .name => "NAME"
  | .number => "NUMBER"
  | .string => "STRING"
  | .leftParen => "LPAR"
  | .rightParen => "RPAR"
  | .leftBracket => "LSQB"
  | .rightBracket => "RSQB"
  | .leftBrace => "LBRACE"
  | .rightBrace => "RBRACE"
  | .colon => "COLON"
  | .comma => "COMMA"
  | .semicolon => "SEMI"
  | .dot => "DOT"
  | .at => "AT"
  | .backquote => "BACKQUOTE"
  | .arrow => "RARROW"
  | .ellipsis => "ELLIPSIS"
  | .plus => "PLUS"
  | .minus => "MINUS"
  | .star => "STAR"
  | .slash => "SLASH"
  | .bar => "VBAR"
  | .ampersand => "AMPER"
  | .less => "LESS"
  | .greater => "GREATER"
  | .equal => "EQUAL"
  | .percent => "PERCENT"
  | .tilde => "TILDE"
  | .circumflex => "CIRCUMFLEX"
  | .equalEqual => "EQEQUAL"
  | .notEqual => "NOTEQUAL"
  | .lessGreater => "LEGACY_NOTEQUAL"
  | .lessEqual => "LESSEQUAL"
  | .greaterEqual => "GREATEREQUAL"
  | .leftShift => "LEFTSHIFT"
  | .rightShift => "RIGHTSHIFT"
  | .doubleStar => "DOUBLESTAR"
  | .doubleSlash => "DOUBLESLASH"
  | .plusEqual => "PLUSEQUAL"
  | .minusEqual => "MINEQUAL"
  | .starEqual => "STAREQUAL"
  | .slashEqual => "SLASHEQUAL"
  | .percentEqual => "PERCENTEQUAL"
  | .ampersandEqual => "AMPEREQUAL"
  | .barEqual => "VBAREQUAL"
  | .circumflexEqual => "CIRCUMFLEXEQUAL"
  | .leftShiftEqual => "LEFTSHIFTEQUAL"
  | .rightShiftEqual => "RIGHTSHIFTEQUAL"
  | .doubleStarEqual => "DOUBLESTAREQUAL"
  | .doubleSlashEqual => "DOUBLESLASHEQUAL"
  | .kwAnd => "AND"
  | .kwAs => "AS"
  | .kwAssert => "ASSERT"
  | .kwBreak => "BREAK"
  | .kwClass => "CLASS"
  | .kwContinue => "CONTINUE"
  | .kwDef => "DEF"
  | .kwDel => "DEL"
  | .kwElif => "ELIF"
  | .kwElse => "ELSE"
  | .kwExcept => "EXCEPT"
  | .kwExec => "EXEC"
  | .kwFinally => "FINALLY"
  | .kwFor => "FOR"
  | .kwFrom => "FROM"
  | .kwGlobal => "GLOBAL"
  | .kwIf => "IF"
  | .kwImport => "IMPORT"
  | .kwIn => "IN"
  | .kwIs => "IS"
  | .kwLambda => "LAMBDA"
  | .kwNonlocal => "NONLOCAL"
  | .kwNot => "NOT"
  | .kwOr => "OR"
  | .kwPass => "PASS"
  | .kwPrint => "PRINT"
  | .kwRaise => "RAISE"
  | .kwReturn => "RETURN"
  | .kwTry => "TRY"
  | .kwWhile => "WHILE"
  | .kwWith => "WITH"
  | .kwYield => "YIELD"
  | .kwTrue => "TRUE"
  | .kwFalse => "FALSE"
  | .kwNone => "NONE"

/-- Numbers leave gaps between the families of kinds; keywords start at 100. -/
def code : TokenKind → Nat
  | .endOfFile => 0
  | .newline => 1
  | .indent => 2
  | .dedent => 3
  | .comment => 4
  | .error => 5
  | .name => 10
  | .number => 11
  | .string => 12
  | .leftParen => 20
  | .rightParen => 21
  | .leftBracket => 22
  | .rightBracket => 23
  | .leftBrace => 24
  | .rightBrace => 25
  | .colon => 26
  | .comma => 27
  | .semicolon => 28
  | .dot => 29
  | .at => 30
  | .backquote => 31
  | .arrow => 32
  | .ellipsis => 33
  | .plus => 40
  | .minus => 41
  | .star => 42
  | .slash => 43
  | .bar => 44
  | .ampersand => 45
  | .less => 46
  | .greater => 47
  | .equal => 48
  | .percent => 49
  | .tilde => 50
  | .circumflex => 51
  | .equalEqual => 52
  | .notEqual => 53
  | .lessGreater => 54
  | .lessEqual => 55
  | .greaterEqual => 56
  | .leftShift => 57
  | .rightShift => 58
  | .doubleStar => 59
  | .doubleSlash => 60
  | .plusEqual => 70
  | .minusEqual => 71
  | .starEqual => 72
  | .slashEqual => 73
  | .percentEqual => 74
  | .ampersandEqual => 75
  | .barEqual => 76
  | .circumflexEqual => 77
  | .leftShiftEqual => 78
  | .rightShiftEqual => 79
  | .doubleStarEqual => 80
  | .doubleSlashEqual => 81
  | .kwAnd => 100
  | .kwAs => 101
  | .kwAssert => 102
  | .kwBreak => 103
  | .kwClass => 104
  | .kwContinue => 105
  | .kwDef => 106
  | .kwDel => 107
  | .kwElif => 108
  | .kwElse => 109
  | .kwExcept => 110
  | .kwExec => 111
  | .kwFinally => 112
  | .kwFor => 113
  | .kwFrom => 114
  | .kwGlobal => 115
  | .kwIf => 116
  | .kwImport => 117
  | .kwIn => 118
  | .kwIs => 119
  | .kwLambda => 120
  | .kwNonlocal => 121
  | .kwNot => 122
  | .kwOr => 123
  | .kwPass => 124
  | .kwPrint => 125
  | .kwRaise => 126
  | .kwReturn => 127
  | .kwTry => 128
  | .kwWhile => 129
  | .kwWith => 130
  | .kwYield => 131
  | .kwTrue => 132
  | .kwFalse => 133
  | .kwNone => 134

/-- The kind shown under a name. -/
def ofLabel? (label : String) : Option TokenKind := all.find? (·.label == label)

def isKeyword (kind : TokenKind) : Bool := 100 ≤ kind.code

/-- The zero-width tokens that open and close a block. -/
def isLayout : TokenKind → Bool
  | .indent | .dedent => true
  | _ => false

def isOpening : TokenKind → Bool
  | .leftParen | .leftBracket | .leftBrace => true
  | _ => false

def isClosing : TokenKind → Bool
  | .rightParen | .rightBracket | .rightBrace => true
  | _ => false

/-- The tokens that end a logical line without being part of a statement. -/
def isLineEnd : TokenKind → Bool
  | .newline | .endOfFile | .dedent => true
  | _ => false

/-- The operators that assign to what they also read. -/
def isAugmentedAssignment : TokenKind → Bool
  | .plusEqual | .minusEqual | .starEqual | .slashEqual | .percentEqual | .ampersandEqual
  | .barEqual | .circumflexEqual | .leftShiftEqual | .rightShiftEqual | .doubleStarEqual
  | .doubleSlashEqual => true
  | _ => false

theorem mem_all (kind : TokenKind) : kind ∈ all := by
  cases kind <;> decide

end TokenKind

end TolerantParser
