/-!
Structured data as indented text. `Json.pretty` puts every element of a list and every field of a
record on a line of its own, two spaces deeper than its bracket.
-/
namespace LoxLang

/-- Structured data; a numeral is kept as it is written. -/
inductive Json where
  | null
  | numeral (text : String)
  | text (value : String)
  | list (items : List Json)
  | record (fields : List (String × Json))

namespace Json

/-- The hexadecimal digits of a byte, in lower case. -/
def hexByte (n : Nat) : String :=
  String.ofList [Nat.digitChar (n / 16), Nat.digitChar (n % 16)]

/-- A character inside quotes: quotes, backslashes and control characters are escaped. -/
def escapeChar (c : Char) : String :=
  match c with
  | '"' => "\\\""
  | '\\' => "\\\\"
  | '\x08' => "\\b"
  | '\t' => "\\t"
  | '\n' => "\\n"
  | '\x0c' => "\\f"
  | '\r' => "\\r"
  | c => if c.toNat < 32 then "\\u00" ++ hexByte c.toNat else c.toString

def quoted (text : String) : String :=
  "\"" ++ String.join (text.toList.map escapeChar) ++ "\""

/-- The start of a line at a depth. -/
def margin (depth : Nat) : String :=
  "\n" ++ String.ofList (List.replicate (2 * depth) ' ')

mutual

/-- Lays out data that starts at `depth`. -/
def layout (depth : Nat) : Json → String
  | .null => "null"
  | .numeral written => written
  | .text value => quoted value
  | .list [] => "[]"
  | .list (item :: items) =>
    "[" ++ margin (depth + 1) ++ layout (depth + 1) item ++ layoutItems (depth + 1) items
      ++ margin depth ++ "]"
  | .record [] => "\x7b\x7d"
  | .record ((name, value) :: fields) =>
    "\x7b" ++ margin (depth + 1) ++ quoted name ++ ": " ++ layout (depth + 1) value
      ++ layoutFields (depth + 1) fields ++ margin depth ++ "\x7d"

/-- Lays out the elements after the first. -/
def layoutItems (depth : Nat) : List Json → String
  | [] => ""
  | item :: items => "," ++ margin depth ++ layout depth item ++ layoutItems depth items

/-- Lays out the fields after the first. -/
def layoutFields (depth : Nat) : List (String × Json) → String
  | [] => ""
  | (name, value) :: fields =>
    "," ++ margin depth ++ quoted name ++ ": " ++ layout depth value ++ layoutFields depth fields

end

def pretty (data : Json) : String :=
  layout 0 data

end Json

end LoxLang
