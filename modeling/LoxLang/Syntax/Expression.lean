import LoxLang.Syntax.Cursor

/-!
The grammar of expressions.

```text
expression := assignment
assignment := (call ".")? IDENTIFIER "=" assignment | joined
joined     := unary joined by or, and, equality, comparison, sum and product operators,
              from loose to tight, all grouping to the left
unary      := ("!" | "-") unary | call
call       := primary ("(" arguments? ")" | "." IDENTIFIER)*
arguments  := expression ("," expression)*
primary    := NUMBER | STRING | "true" | "false" | "nil" | "this" | IDENTIFIER
            | "(" expression ")" | "super" "." IDENTIFIER
```

A rule takes the reading of the rule that it nests as an argument, and `expression` ties the knot.
The bound that every loop and `expression` count down exceeds the number of tokens, so it is never
reached.
-/
namespace LoxLang

/-- The most arguments of a call and parameters of a function. -/
def maxArity : Nat := 255

/-- Operators of one strength, and the node that joins their two sides. -/
structure OperatorLevel where
  operators : List TokenKind
  node : Expr → Token → Expr → Expr

def OperatorLevel.admits (level : OperatorLevel) (t : Token) : Bool :=
  level.operators.any t.kind.same

/-- The levels of operators, from loose to tight. -/
def OperatorLevel.all : List OperatorLevel :=
  [⟨[.keyword .orWord], .logical⟩,
    ⟨[.keyword .andWord], .logical⟩,
    ⟨[.symbol .bangEqual, .symbol .equalEqual], .binary⟩,
    ⟨[.symbol .greater, .symbol .greaterEqual, .symbol .less, .symbol .lessEqual], .binary⟩,
    ⟨[.symbol .minus, .symbol .plus], .binary⟩,
    ⟨[.symbol .star, .symbol .slash], .binary⟩]

/-- The constant that a token of some kind is. -/
def Literal.ofKind? : TokenKind → Option Literal
  | .number value => some (.number value)
  | .string value => some (.string value)
  | .keyword .trueWord => some (.bool true)
  | .keyword .falseWord => some (.bool false)
  | .keyword .nilWord => some .nil
  | _ => none

namespace Reading
variable {m : Type → Type} [Monad m] [Steps m]

/-- One or more items with commas between them. An item after the first 255 is a fault, which is
noted at its first token; `count` items have been read before. -/
def commaList {α : Type} (excess : SyntaxCause) (item : m α) :
    (fuel count : Nat) → m (List α)
  | 0, _ => Steps.tooDeep
  | fuel + 1, count => do
    if maxArity ≤ count then
      Steps.note excess (← Steps.peek)
    let first ← item
    if ← accept (·.isSymbol .comma) then
      return first :: (← commaList excess item fuel (count + 1))
    else
      return [first]

/-- The items between parentheses, the opening one having been read, and the closing one. -/
def parenthesized {α : Type} (excess : SyntaxCause) (item : m α) (fuel : Nat)
    (what : String) : m (List α × Token) := do
  let items ←
    if ← Steps.nextIs (·.isSymbol .rightParen) then pure [] else commaList excess item fuel 0
  return (items, ← expectSymbol .rightParen what)

/-- The operands and groups that everything else is built from. -/
def primary (expression : m Expr) : m Expr := do
  let t ← Steps.peek
  match t.kind with
  | .identifier =>
    Steps.skip
    return .variable (← Steps.reference t)
  | .keyword .thisWord =>
    Steps.skip
    return .thisObject (← Steps.reference t)
  | .keyword .superWord =>
    Steps.skip
    discard (expectSymbol .dot "'.' after 'super'")
    let method ← expectName "superclass method name"
    return .superMethod (← Steps.reference t) method
  | .symbol .leftParen =>
    Steps.skip
    let inner ← expression
    discard (expectSymbol .rightParen "')' after expression")
    return .grouping inner
  | kind =>
    match Literal.ofKind? kind with
    | some value =>
      Steps.skip
      return .literal value
    | none => Steps.failHere (.expected "expression")

/-- The calls and property accesses that follow an operand. -/
def callsFrom (expression : m Expr) : (fuel : Nat) → Expr → m Expr
  | 0, _ => Steps.tooDeep
  | fuel + 1, callee => do
    if ← accept (·.isSymbol .leftParen) then
      let (arguments, paren) ←
        parenthesized .tooManyArguments expression fuel "')' after arguments"
      callsFrom expression fuel (.call callee paren arguments)
    else if ← accept (·.isSymbol .dot) then
      let name ← expectName "property name after '.'"
      callsFrom expression fuel (.get callee name)
    else
      return callee

/-- An operand with its calls and property accesses. -/
def call (expression : m Expr) (fuel : Nat) : m Expr := do
  callsFrom expression fuel (← primary expression)

/-- An operand behind any number of unary operators. -/
def unary (operand : m Expr) : (fuel : Nat) → m Expr
  | 0 => Steps.tooDeep
  | fuel + 1 => do
    match ← Steps.takeIf fun t => t.isSymbol .bang || t.isSymbol .minus with
    | some operator => return .unary operator (← unary operand fuel)
    | none => operand

/-- The operators of one level that follow a left side, each with its right side. -/
def operatorsFrom (level : OperatorLevel) (operand : m Expr) : (fuel : Nat) → Expr → m Expr
  | 0, _ => Steps.tooDeep
  | fuel + 1, left => do
    match ← Steps.takeIf level.admits with
    | some operator =>
      let right ← operand
      operatorsFrom level operand fuel (level.node left operator right)
    | none => return left

/-- Operands joined by the operators of some levels, the first of which is the loosest. -/
def joined (operand : m Expr) (fuel : Nat) : List OperatorLevel → m Expr
  | [] => operand
  | level :: tighter => do
    let left ← joined operand fuel tighter
    operatorsFrom level (joined operand fuel tighter) fuel left

/-- An assignment, or an expression that binds tighter. Only a variable or a property can be
assigned to; any other target is a noted fault, and the target itself is the result. A variable that
is assigned to is a reference of its own, which takes the place of the one that was read. -/
def assignment (expression : m Expr) (fuel : Nat) : m Expr := do
  let target ← joined (unary (call expression fuel) fuel) fuel OperatorLevel.all
  match ← Steps.takeIf (·.isSymbol .equal) with
  | none => return target
  | some equals =>
    let value ← expression
    match target with
    | .variable target => return .assign (← Steps.reference target.name) value
    | .get object name => return .set object name value
    | other =>
      Steps.note .invalidAssignmentTarget equals
      return other

def expression : (fuel : Nat) → m Expr
  | 0 => Steps.tooDeep
  | fuel + 1 => assignment (expression fuel) fuel

end Reading

/-- Reads a single expression up to the end of input. A fault that stops the reading comes before
the first noted one, and that before a token that is left over. -/
def Reading.wholeExpression (fuel : Nat) : Reading Expr := do
  let e ← expression fuel
  fun c =>
    match c.noted with
    | f :: _ => .error (.fault f) c
    | [] => if c.rest.isEmpty then .ok e c else failHere (.expected "end of expression") c

/-- The expression that tokens stand for, and the identity of the next reference after it. -/
def expressionOfTokens (tokens : List Token) (nextId : Nat) : Except SyntaxFault Expr × Nat :=
  match Reading.wholeExpression (depthBound tokens) (.start tokens nextId) with
  | .ok e place => (.ok e, place.nextId)
  | .error stop place => (.error (stop.report place), place.nextId)

end LoxLang
