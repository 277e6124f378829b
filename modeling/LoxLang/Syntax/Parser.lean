import LoxLang.Syntax.Statement

/-!
A parser gives the items of a token list one at a time. Reading a declaration can bring up several
items; those that have not been given yet are kept in a queue, and nothing more is read before it is
empty.
-/
namespace LoxLang

/-- A parser: the bound on the depth of its readings, the place up to which it has read, and the
items found but not given yet. -/
structure Parser where
  depth : Nat
  place : Cursor
  pending : List ProgramItem

namespace Parser

def start (tokens : List Token) (nextId : Nat) : Parser :=
  ⟨depthBound tokens, .start tokens nextId, []⟩

/-- The next item, if there is one, and the parser after it. -/
def next (p : Parser) : Option ProgramItem × Parser :=
  match p.pending with
  | item :: pending => (some item, { p with pending })
  | [] =>
    if p.place.rest.isEmpty then (none, p)
    else
      let (item, after) := readItem p.depth p.place
      let found := after.noted.map Except.error ++ [item]
      (found.head?, { p with place := { after with noted := [] }, pending := found.tail })

/-- The parser after some items have been asked for. -/
def after (p : Parser) : (count : Nat) → Parser
  | 0 => p
  | count + 1 => p.next.2.after count

end Parser

end LoxLang
