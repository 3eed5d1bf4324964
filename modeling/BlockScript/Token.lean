import BlockScript.Number.Text
import BlockScript.Position

/-!
# Tokens

The vocabulary of the language: reserved words, symbols, literals and names.  A token is a kind
together with the text it was read from and the position of that text.
-/

namespace BlockScript

inductive Keyword where
  | let
  | if
  | else
  | while
  | for
  | true
  | false
  | nil
  | setBlock
  deriving DecidableEq, Repr

namespace Keyword

def all : List Keyword := [.let, .if, .else, .while, .for, .true, .false, .nil, .setBlock]

/-- How a word is written; upper and lower case differ. -/
def spelling : Keyword → String
  | .let => "let"
  | .if => "if"
  | .else => "else"
  | .while => "while"
  | .for => "for"
  | .true => "true"
  | .false => "false"
  | .nil => "nil"
  | .setBlock => "setBlock"

/-- What a word is called in a list of tokens. -/
def label : Keyword → String
  | .let => "Let"
  | .if => "If"
  | .else => "Else"
  | .while => "While"
  | .for => "For"
  | .true => "True"
  | .false => "False"
  | .nil => "Nil"
  | .setBlock => "SetBlock"

/-- The reserved word with a given spelling. -/
def ofSpelling? (word : String) : Option Keyword :=
  all.find? (·.spelling == word)

theorem mem_all (keyword : Keyword) : keyword ∈ all := by
  cases keyword <;> decide

end Keyword

inductive Symbol where
  | plus
  | minus
  | star
  | slash
  | percent
  | bang
  | bangEqual
  | equal
  | equalEqual
  | less
  | lessEqual
  | greater
  | greaterEqual
  | andAnd
  | orOr
  | question
  | colon
  | leftParen
  | rightParen
  | leftBrace
  | rightBrace
  | comma
  | dot
  | semicolon
  deriving DecidableEq, Repr

namespace Symbol

def all : List Symbol :=
  [.plus, .minus, .star, .slash, .percent, .bang, .bangEqual, .equal, .equalEqual, .less,
    .lessEqual, .greater, .greaterEqual, .andAnd, .orOr, .question, .colon, .leftParen,
    .rightParen, .leftBrace, .rightBrace, .comma, .dot, .semicolon]

def spelling : Symbol → String
  | .plus => "+"
  | .minus => "-"
  | .star => "*"
  | .slash => "/"
  | .percent => "%"
  | .bang => "!"
  | .bangEqual => "!="
  | .equal => "="
  | .equalEqual => "=="
  | .less => "<"
  | .lessEqual => "<="
  | .greater => ">"
  | .greaterEqual => ">="
  | .andAnd => "&&"
  | .orOr => "||"
  | .question => "?"
  | .colon => ":"
  | .leftParen => "("
  | .rightParen => ")"
  | .leftBrace => "\x7b"
  | .rightBrace => "\x7d"
  | .comma => ","
  | .dot => "."
  | .semicolon => ";"

/-- What a symbol is called in a list of tokens. -/
def label : Symbol → String
  | .plus => "Plus"
  | .minus => "Minus"
  | .star => "Star"
  | .slash => "Slash"
  | .percent => "Percent"
  | .bang => "Bang"
  | .bangEqual => "BangEqual"
  | .equal => "Equal"
  | .equalEqual => "EqualEqual"
  | .less => "Less"
  | .lessEqual => "LessEqual"
  | .greater => "Greater"
  | .greaterEqual => "GreaterEqual"
  | .andAnd => "AndAnd"
  | .orOr => "OrOr"
  | .question => "Question"
  | .colon => "Colon"
  | .leftParen => "LeftParen"
  | .rightParen => "RightParen"
  | .leftBrace => "LeftBrace"
  | .rightBrace => "RightBrace"
  | .comma => "Comma"
  | .dot => "Dot"
  | .semicolon => "Semicolon"

/-- The symbol that consists of one given character. -/
def ofChar? : Char → Option Symbol
  | '+' => some .plus
  | '-' => some .minus
  | '*' => some .star
  | '/' => some .slash
  | '%' => some .percent
  | '!' => some .bang
  | '=' => some .equal
  | '<' => some .less
  | '>' => some .greater
  | '?' => some .question
  | ':' => some .colon
  | '(' => some .leftParen
  | ')' => some .rightParen
  | '\x7b' => some .leftBrace
  | '\x7d' => some .rightBrace
  | ',' => some .comma
  | '.' => some .dot
  | ';' => some .semicolon
  | _ => none

/-- The symbol that consists of two given characters. -/
def ofPair? : Char → Char → Option Symbol
  | '!', '=' => some .bangEqual
  | '=', '=' => some .equalEqual
  | '<', '=' => some .lessEqual
  | '>', '=' => some .greaterEqual
  | '&', '&' => some .andAnd
  | '|', '|' => some .orOr
  | _, _ => none

theorem mem_all (symbol : Symbol) : symbol ∈ all := by
  cases symbol <;> decide

end Symbol

/-- What a token says. -/
inductive TokenKind where
  | number (value : Float)
  | string (value : String)
  | identifier (name : String)
  | keyword (word : Keyword)
  | symbol (mark : Symbol)
  | eof
  deriving DecidableEq

namespace TokenKind

def isKeyword : TokenKind → Bool
  | .keyword _ => true
  | _ => false

/-- Picks out one particular token. -/
def exactly (kind found : TokenKind) : Option Unit :=
  if found = kind then some () else none

/-- Picks out names. -/
def name? : TokenKind → Option String
  | .identifier name => some name
  | _ => none

/-- The printed form of a token in a list of tokens. -/
def label : TokenKind → String
  | .number value => Number.text value
  | .string value => "\"" ++ value ++ "\""
  | .identifier name => name
  | .keyword word => word.label
  | .symbol mark => mark.label
  | .eof => "Eof"

/-- How a message about the program names a token. -/
def description : TokenKind → String
  | .number value => "number `" ++ Number.text value ++ "`"
  | .string value => "string \"" ++ value ++ "\""
  | .identifier name => "identifier `" ++ name ++ "`"
  | .keyword word => "`" ++ word.spelling ++ "`"
  | .symbol mark => "`" ++ mark.spelling ++ "`"
  | .eof => "end of file"

end TokenKind

/-- A kind with the text it was read from and the position of that text. -/
structure Token where
  kind : TokenKind
  lexeme : String
  position : Position
  deriving DecidableEq

end BlockScript
