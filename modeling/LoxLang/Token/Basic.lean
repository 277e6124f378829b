/-!
Tokens. A `Token` is a kind, the text it was read from and a line; the kind carries the value of a
string or number literal. `TokenKind.same` and `Token.same` are the two comparisons: kinds are the
same when they differ in a literal's value at most, tokens when kind, text and line agree.
-/
namespace LoxLang

/-- Punctuation and operators. -/
inductive Symbol where
  | leftParen
  | rightParen
  | leftBrace
  | rightBrace
  | comma
  | dot
  | minus
  | plus
  | semicolon
  | slash
  | star
  | bang
  | bangEqual
  | equal
  | equalEqual
  | greater
  | greaterEqual
  | less
  | lessEqual
  deriving DecidableEq, Repr

/-- Reserved words. -/
inductive Keyword where
  | andWord
  | classWord
  | elseWord
  | falseWord
  | funWord
  | forWord
  | ifWord
  | nilWord
  | orWord
  | printWord
  | returnWord
  | superWord
  | thisWord
  | trueWord
  | varWord
  | whileWord
  deriving DecidableEq, Repr

inductive TokenKind where
  | symbol (symbol : Symbol)
  | keyword (keyword : Keyword)
  | identifier
  | string (value : String)
  | number (value : Float)
  | endOfInput

/-- A token, its text in the source and the line on which it ends. -/
structure Token where
  kind : TokenKind
  lexeme : String
  line : Nat

/-- The name of a symbol in listings. -/
def Symbol.name : Symbol → String
  | .leftParen => "LEFT_PAREN"
  | .rightParen => "RIGHT_PAREN"
  | .leftBrace => "LEFT_BRACE"
  | .rightBrace => "RIGHT_BRACE"
  | .comma => "COMMA"
  | .dot => "DOT"
  | .minus => "MINUS"
  | .plus => "PLUS"
  | .semicolon => "SEMICOLON"
  | .slash => "SLASH"
  | .star => "STAR"
  | .bang => "BANG"
  | .bangEqual => "BANG_EQUAL"
  | .equal => "EQUAL"
  | .equalEqual => "EQUAL_EQUAL"
  | .greater => "GREATER"
  | .greaterEqual => "GREATER_EQUAL"
  | .less => "LESS"
  | .lessEqual => "LESS_EQUAL"

def Symbol.all : List Symbol :=
  [.leftParen, .rightParen, .leftBrace, .rightBrace, .comma, .dot, .minus, .plus, .semicolon,
    .slash, .star, .bang, .bangEqual, .equal, .equalEqual, .greater, .greaterEqual, .less,
    .lessEqual]

/-- The name of a reserved word in listings. -/
def Keyword.name : Keyword → String
  | .andWord => "AND"
  | .classWord => "CLASS"
  | .elseWord => "ELSE"
  | .falseWord => "FALSE"
  | .funWord => "FUN"
  | .forWord => "FOR"
  | .ifWord => "IF"
  | .nilWord => "NIL"
  | .orWord => "OR"
  | .printWord => "PRINT"
  | .returnWord => "RETURN"
  | .superWord => "SUPER"
  | .thisWord => "THIS"
  | .trueWord => "TRUE"
  | .varWord => "VAR"
  | .whileWord => "WHILE"

def Keyword.spelling : Keyword → String
  | .andWord => "and"
  | .classWord => "class"
  | .elseWord => "else"
  | .falseWord => "false"
  | .funWord => "fun"
  | .forWord => "for"
  | .ifWord => "if"
  | .nilWord => "nil"
  | .orWord => "or"
  | .printWord => "print"
  | .returnWord => "return"
  | .superWord => "super"
  | .thisWord => "this"
  | .trueWord => "true"
  | .varWord => "var"
  | .whileWord => "while"

def Keyword.all : List Keyword :=
  [.andWord, .classWord, .elseWord, .falseWord, .funWord, .forWord, .ifWord, .nilWord, .orWord,
    .printWord, .returnWord, .superWord, .thisWord, .trueWord, .varWord, .whileWord]

/-- The reserved word with a spelling. -/
def Keyword.ofSpelling? (text : String) : Option Keyword :=
  Keyword.all.find? fun k => k.spelling == text

namespace TokenKind

/-- The name of a kind in listings, a literal's value left out. -/
def name : TokenKind → String
  | .symbol s => s.name
  | .keyword k => k.name
  | .identifier => "IDENTIFIER"
  | .string _ => "STRING"
  | .number _ => "NUMBER"
  | .endOfInput => "EOF"

/-- Whether two kinds agree, the values of literals aside. -/
def same : TokenKind → TokenKind → Bool
  | .symbol s, .symbol t => s == t
  | .keyword k, .keyword l => k == l
  | .identifier, .identifier => true
  | .string _, .string _ => true
  | .number _, .number _ => true
  | .endOfInput, .endOfInput => true
  | _, _ => false

end TokenKind

namespace Token

/-- Whether two tokens agree in kind, text and line. -/
def same (s t : Token) : Bool :=
  s.kind.same t.kind && s.lexeme == t.lexeme && s.line == t.line

/-- Whether the token marks the end of input. -/
def isEnd (t : Token) : Bool :=
  t.kind.same .endOfInput

def isSymbol (t : Token) (s : Symbol) : Bool :=
  t.kind.same (.symbol s)

def isKeyword (t : Token) (k : Keyword) : Bool :=
  t.kind.same (.keyword k)

/-- The token that marks the end of input on a line. -/
def endOn (line : Nat) : Token :=
  ⟨.endOfInput, "", line⟩

end Token

end LoxLang
