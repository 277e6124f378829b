import LoxLang.Machine.Fault
import LoxLang.Machine.Value

/-!
What operators do with values. An operator that demands numbers or strings faults at its own line.
-/
namespace LoxLang

/-- The fault of a token. -/
def Token.fault (t : Token) (cause : RuntimeCause) : RuntimeFault :=
  ⟨cause, t.line⟩

/-- The fault of a name that has no binding. -/
def Token.undefined (name : Token) : RuntimeFault :=
  name.fault (.undefinedVariable name.lexeme)

/-- The fault of a token whose operands do not meet a demand. -/
def Token.mismatch (t : Token) (requirement : Requirement) : RuntimeFault :=
  t.fault (.typeMismatch requirement)

/-- A unary operator: negation of a number, or of a truth value. -/
def applyUnary (operator : Token) (operand : Value) : Except RuntimeFault Value :=
  match operator.kind with
  | .symbol .minus =>
    match operand with
    | .number value => .ok (.number (-value))
    | _ => .error (operator.mismatch .numberOperand)
  | _ => .ok (.bool (!operand.isTruthy))

/-- An operator on two numbers; any that is not named compares with "at most". -/
def applyNumeric (operator : TokenKind) (left right : Float) : Value :=
  match operator with
  | .symbol .minus => .number (left - right)
  | .symbol .star => .number (left * right)
  | .symbol .slash => .number (left / right)
  | .symbol .greater => .bool (left > right)
  | .symbol .greaterEqual => .bool (left ≥ right)
  | .symbol .less => .bool (left < right)
  | _ => .bool (left ≤ right)

def applyBinary (operator : Token) (left right : Value) : Except RuntimeFault Value :=
  match operator.kind with
  | .symbol .equalEqual => .ok (.bool (left.equals right))
  | .symbol .bangEqual => .ok (.bool (!left.equals right))
  | .symbol .plus =>
    match left, right with
    | .number left, .number right => .ok (.number (left + right))
    | .string left, .string right => .ok (.string (left ++ right))
    | _, _ => .error (operator.mismatch .numbersOrStrings)
  | kind =>
    match left, right with
    | .number left, .number right => .ok (applyNumeric kind left right)
    | _, _ => .error (operator.mismatch .numberOperands)

/-- Whether the left side of a logical operator is already the result. -/
def decidesLogical (operator : Token) (left : Value) : Bool :=
  if operator.isKeyword .orWord then left.isTruthy else !left.isTruthy

/-! ## Results -/

/-- A value that refers to nothing. -/
def Value.Plain : Value → Prop
  | .callable _ | .object _ => False
  | _ => True

theorem Value.plain_ofLiteral (value : Literal) : (Value.ofLiteral value).Plain := by
  cases value <;> trivial

theorem plain_applyUnary {operator : Token} {operand v : Value}
    (h : applyUnary operator operand = .ok v) : v.Plain := by
  unfold applyUnary at h
  split at h
  · split at h
    · cases h
      trivial
    · cases h
  · cases h
    trivial

theorem plain_applyNumeric (operator : TokenKind) (left right : Float) :
    (applyNumeric operator left right).Plain := by
  unfold applyNumeric
  split <;> trivial

theorem plain_applyBinary {operator : Token} {left right v : Value}
    (h : applyBinary operator left right = .ok v) : v.Plain := by
  unfold applyBinary at h
  split at h
  · cases h
    trivial
  · cases h
    trivial
  · split at h
    · cases h
      trivial
    · cases h
      trivial
    · cases h
  · split at h
    · cases h
      exact plain_applyNumeric _ _ _
    · cases h

end LoxLang
