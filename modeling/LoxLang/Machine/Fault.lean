/-!
What can go wrong while a program runs. A fault ends the program; it has a cause and the line of the
token that raised it.
-/
namespace LoxLang

/-- What an operation demands of the values it is given. -/
inductive Requirement where
  | numberOperand
  | numberOperands
  | numbersOrStrings
  | classForSuperclass
  | objectForProperty
  | objectForField
  deriving DecidableEq, Repr

def Requirement.message : Requirement → String
  | .numberOperand => "Operand must be a number."
  | .numberOperands => "Operands must be numbers."
  | .numbersOrStrings => "Operands must be two numbers or two strings."
  | .classForSuperclass => "Superclass must be a class."
  | .objectForProperty => "Only instances have properties."
  | .objectForField => "Only instances have fields."

/-- Why a program stops. -/
inductive RuntimeCause where
  | undefinedVariable (name : String)
  | undefinedProperty (name : String)
  | typeMismatch (requirement : Requirement)
  | arityMismatch (expected actual : Nat)
  | notCallable
  | stackOverflow
  | outputFailed (reason : String)
  deriving DecidableEq, Repr

def RuntimeCause.message : RuntimeCause → String
  | .undefinedVariable name => "Undefined variable '" ++ name ++ "'."
  | .undefinedProperty name => "Undefined property '" ++ name ++ "'."
  | .typeMismatch requirement => requirement.message
  | .arityMismatch expected actual =>
    s!"Expected {expected} arguments but got {actual}."
  | .notCallable => "Can only call functions and classes."
  | .stackOverflow => "Stack overflow."
  | .outputFailed reason => "Failed to write output: " ++ reason

/-- A cause and the line on which it arose. -/
structure RuntimeFault where
  cause : RuntimeCause
  line : Nat
  deriving DecidableEq, Repr

end LoxLang
