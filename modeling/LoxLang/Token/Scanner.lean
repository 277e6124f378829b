import LoxLang.Token.Lexing

/-!
A scanner gives the items of a source one at a time. It keeps what it has not read yet; once it has
given the end of input it gives nothing any more.
-/
namespace LoxLang

/-- A scanner: what is left of the source, unless the end has been given, and the line on which that
starts. -/
structure Scanner where
  rest : Option (List UInt8)
  line : Nat

namespace Scanner

def start (source : List UInt8) : Scanner :=
  ⟨some source, 1⟩

/-- The next item after `skip` bytes, which belong to a lexeme that has been read and ends on a line,
and the scanner after it. Blank lexemes are passed over. -/
def nextFrom (line : Nat) : (skip : Nat) → List UInt8 → LexicalItem × Scanner
  | _, [] => (.token (.endOn line), ⟨none, line⟩)
  | skip + 1, _ :: rest => nextFrom line skip rest
  | 0, b :: rest =>
    let m := Lexing.munch b rest
    let lexeme : Lexing.Lexeme := ⟨m.meaning, b :: rest.take m.extra⟩
    let line := line + Lexing.lineFeeds lexeme.bytes
    match lexeme.item? line with
    | some item => (item, ⟨some (rest.drop m.extra), line⟩)
    | none => nextFrom line m.extra rest

/-- The next item, if there is one, and the scanner after it. -/
def next (s : Scanner) : Option LexicalItem × Scanner :=
  match s.rest with
  | none => (none, s)
  | some rest =>
    let (item, s) := nextFrom s.line 0 rest
    (some item, s)

/-- The scanner after some items have been asked for. -/
def after (s : Scanner) : (count : Nat) → Scanner
  | 0 => s
  | count + 1 => s.next.2.after count

end Scanner

end LoxLang
