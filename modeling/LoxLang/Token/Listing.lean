import LoxLang.Decimal.Layout
import LoxLang.Text.Json
import LoxLang.Token.Basic

/-!
Two written forms of tokens: `Token.display`, one line with kind, lexeme and literal, and
`Token.listing`, all tokens of a source as structured data.
-/
namespace LoxLang

/-- The literal of a kind in a display, `null` where there is none. -/
def TokenKind.literal : TokenKind → String
  | .string value => value
  | .number value => Decimal.displayed value
  | _ => "null"

/-- A kind as data: its name, with the value beside it for a literal. -/
def TokenKind.toJson (kind : TokenKind) : Json :=
  match kind with
  | .string value => .record [(kind.name, .text value)]
  | .number value =>
    .record [(kind.name, ((Decimal.encoded? value).map Json.numeral).getD .null)]
  | _ => .text kind.name

namespace Token

def display (t : Token) : String :=
  t.kind.name ++ " " ++ t.lexeme ++ " " ++ t.kind.literal

def toJson (t : Token) : Json :=
  .record
    [("token_type", t.kind.toJson), ("lexeme", .text t.lexeme),
      ("line", .numeral (toString t.line))]

def listing (tokens : List Token) : String :=
  (Json.list (tokens.map toJson)).pretty

end Token

end LoxLang
