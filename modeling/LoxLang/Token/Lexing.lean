import LoxLang.Decimal.Numeral
import LoxLang.Text.Utf8
import LoxLang.Token.Basic

/-!
From bytes to tokens. `munch` reads the longest lexeme at the head of the input, `lexemes` cuts the
whole input into lexemes, `lexicalItems` gives each one that is not blank its line, and `tokenize`
separates the tokens from the faults. A fault covers its own lexeme only, and the line of an item
counts the line feeds up to the end of its lexeme.
-/
namespace LoxLang

/-- Why a lexeme is no token. -/
inductive LexicalCause where
  | unexpectedCharacter
  | unterminatedString
  deriving DecidableEq, Repr

def LexicalCause.message : LexicalCause → String
  | .unexpectedCharacter => "Unexpected character."
  | .unterminatedString => "Unterminated string."

/-- A lexeme that is no token, and the line on which it ends. -/
structure LexicalFault where
  cause : LexicalCause
  line : Nat
  deriving DecidableEq, Repr

/-- What the input holds at one place: a token or a fault. -/
inductive LexicalItem where
  | token (token : Token)
  | fault (fault : LexicalFault)

namespace Lexing

def lineFeed : UInt8 := 10

def quote : UInt8 := 34

/-- Whether a byte starts an identifier or reserved word. -/
def isWordStart (b : UInt8) : Bool :=
  (97 ≤ b && b ≤ 122) || (65 ≤ b && b ≤ 90) || b == 95

/-- Whether a byte continues an identifier or reserved word. -/
def isWordPart (b : UInt8) : Bool :=
  isWordStart b || Decimal.isDigit b

/-- Whether a byte is blank space between lexemes. -/
def isBlank (b : UInt8) : Bool :=
  b == 32 || b == 13 || b == 9 || b == lineFeed

/-- The symbol that a byte makes on its own. -/
def symbolOf? (b : UInt8) : Option Symbol :=
  match b with
  | 40 => some .leftParen
  | 41 => some .rightParen
  | 123 => some .leftBrace
  | 125 => some .rightBrace
  | 44 => some .comma
  | 46 => some .dot
  | 45 => some .minus
  | 43 => some .plus
  | 59 => some .semicolon
  | 47 => some .slash
  | 42 => some .star
  | 33 => some .bang
  | 61 => some .equal
  | 62 => some .greater
  | 60 => some .less
  | _ => none

/-- The symbol that a byte makes together with an equals sign after it. -/
def symbolWithEqual? (b : UInt8) : Option Symbol :=
  match b with
  | 33 => some .bangEqual
  | 61 => some .equalEqual
  | 62 => some .greaterEqual
  | 60 => some .lessEqual
  | _ => none

inductive Meaning where
  | blank
  | token (kind : TokenKind)
  | fault (cause : LexicalCause)

/-- The lexeme at the head of the input: what it stands for, and the number of bytes after its
first. -/
structure Munch where
  meaning : Meaning
  extra : Nat

/-- A lexeme of the input: what it stands for and its bytes. -/
structure Lexeme where
  meaning : Meaning
  bytes : List UInt8

/-- The length of a numeral after its first digit: more digits, and a point if a digit follows. -/
def numeralExtra (rest : List UInt8) : Nat :=
  let whole := rest.takeWhile Decimal.isDigit
  match rest.drop whole.length with
  | 46 :: d :: fraction =>
    if Decimal.isDigit d then whole.length + 2 + (fraction.takeWhile Decimal.isDigit).length
    else whole.length
  | _ => whole.length

/-- The kind of a word: reserved exactly when the whole word is. -/
def wordKind (word : List UInt8) : TokenKind :=
  match Keyword.ofSpelling? (Utf8.decodeLossy word) with
  | some k => .keyword k
  | none => .identifier

/-- A string literal after its opening quote; the value stands between the quotes. -/
def munchString (rest : List UInt8) : Munch :=
  let body := rest.takeWhile (· != quote)
  if body.length < rest.length then
    ⟨.token (.string (Utf8.decodeLossy body)), body.length + 1⟩
  else ⟨.fault .unterminatedString, rest.length⟩

/-- A symbol of one or two bytes, or a byte that starts no lexeme. -/
def munchSymbol (b : UInt8) (rest : List UInt8) : Munch :=
  match symbolWithEqual? b, rest with
  | some s, 61 :: _ => ⟨.token (.symbol s), 1⟩
  | _, _ =>
    match symbolOf? b with
    | some s => ⟨.token (.symbol s), 0⟩
    | none => ⟨.fault .unexpectedCharacter, 0⟩

/-- The longest lexeme that starts with the byte `b`. Two slashes open a comment, which ends before
the line feed. -/
def munch (b : UInt8) (rest : List UInt8) : Munch :=
  if isBlank b then ⟨.blank, 0⟩
  else if b == 47 && rest.head? == some 47 then
    ⟨.blank, (rest.takeWhile (· != lineFeed)).length⟩
  else if b == quote then munchString rest
  else if Decimal.isDigit b then
    let extra := numeralExtra rest
    ⟨.token (.number (Decimal.floatOfNumeral (b :: rest.take extra))), extra⟩
  else if isWordStart b then
    let tail := rest.takeWhile isWordPart
    ⟨.token (wordKind (b :: tail)), tail.length⟩
  else munchSymbol b rest

/-- The lexemes of the input after the first `skip` bytes, which belong to a lexeme that has been
read. -/
def lexemesFrom : (skip : Nat) → List UInt8 → List Lexeme
  | _, [] => []
  | skip + 1, _ :: rest => lexemesFrom skip rest
  | 0, b :: rest =>
    let m := munch b rest
    ⟨m.meaning, b :: rest.take m.extra⟩ :: lexemesFrom m.extra rest

/-- The lexemes of a source, from first to last. -/
def lexemes (source : List UInt8) : List Lexeme :=
  lexemesFrom 0 source

def lineFeeds (bytes : List UInt8) : Nat :=
  bytes.count lineFeed

/-- The item of a lexeme that ends on a line, if it is not blank. -/
def Lexeme.item? (lexeme : Lexeme) (line : Nat) : Option LexicalItem :=
  match lexeme.meaning with
  | .blank => none
  | .token kind => some (.token ⟨kind, Utf8.decodeLossy lexeme.bytes, line⟩)
  | .fault cause => some (.fault ⟨cause, line⟩)

/-- The items of lexemes, the first of which starts on a line, and the end of input. -/
def itemsFrom (line : Nat) : List Lexeme → List LexicalItem
  | [] => [.token (.endOn line)]
  | lexeme :: rest =>
    let line := line + lineFeeds lexeme.bytes
    (lexeme.item? line).toList ++ itemsFrom line rest

end Lexing

/-- The tokens and faults of a source, in order; the last item is the end of input. -/
def lexicalItems (source : List UInt8) : List LexicalItem :=
  Lexing.itemsFrom 1 (Lexing.lexemes source)

/-- The token that an item is, if it is one. -/
def LexicalItem.token? : LexicalItem → Option Token
  | .token t => some t
  | .fault _ => none

/-- The fault that an item is, if it is one. -/
def LexicalItem.fault? : LexicalItem → Option LexicalFault
  | .token _ => none
  | .fault f => some f

/-- The tokens of a source, and its lexical faults. -/
def tokenize (source : List UInt8) : List Token × List LexicalFault :=
  let items := lexicalItems source
  (items.filterMap LexicalItem.token?, items.filterMap LexicalItem.fault?)

end LoxLang
