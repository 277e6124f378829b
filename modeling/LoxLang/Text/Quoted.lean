import LoxLang.Text.Hidden

/-!
Quoted text. `Quoted.encode` writes a text between double quotes in such a way that all of it can be
seen: a character that cannot be seen by itself is written as its code point.
-/
namespace LoxLang.Quoted

/-- A character as its code point in hexadecimal digits. -/
def codePoint (c : Char) : String :=
  "\\u\x7b" ++ String.ofList (Nat.toDigits 16 c.toNat) ++ "\x7d"

def encodeChar (c : Char) : String :=
  match c with
  | '"' => "\\\""
  | '\\' => "\\\\"
  | '\x00' => "\\0"
  | '\t' => "\\t"
  | '\n' => "\\n"
  | '\r' => "\\r"
  | c => if isHidden c then codePoint c else c.toString

def encode (text : String) : String :=
  "\"" ++ String.join (text.toList.map encodeChar) ++ "\""

end LoxLang.Quoted
