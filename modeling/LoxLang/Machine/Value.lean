import LoxLang.Decimal.Layout
import LoxLang.Syntax.Basic
import LoxLang.Table

/-!
Values. A closure is code together with the chain of scopes around it, a class is immutable once it
is declared, and an object is an identity whose fields live in the store. `Value.equals` compares
callables and objects by identity, and `Value.text` is what a program prints.
-/
namespace LoxLang

/-- The identity of a scope in the store. -/
abbrev ScopeId := Nat

/-- The scopes visible from one point, from the innermost outward to the global one. -/
abbrev Chain := List ScopeId

def Chain.globals : Chain := [0]

/-- The name of the method that initializes a new object. -/
def initializerName : String := "init"

/-- A function or method and the scopes in which it was declared. -/
structure Closure where
  declaration : FunctionDeclaration
  chain : Chain
  isInitializer : Bool

def Closure.arity (c : Closure) : Nat :=
  c.declaration.params.length

structure ClassObject where
  id : Nat
  name : String
  superclass : Option ClassObject
  methods : Table Closure

/-- The method of a name: that of the class itself, or else the one that it inherits. -/
def ClassObject.method? (name : String) : ClassObject → Option Closure
  | ⟨_, _, none, methods⟩ => methods.get? name
  | ⟨_, _, some superclass, methods⟩ =>
    match methods.get? name with
    | some method => some method
    | none => superclass.method? name

/-- The number of arguments that construction takes: those of the initializer, if there is one. -/
def ClassObject.arity (c : ClassObject) : Nat :=
  match c.method? initializerName with
  | some init => init.arity
  | none => 0

/-- What can be called. -/
inductive Callable where
  /-- The time in seconds. -/
  | clock
  | function (id : Nat) (closure : Closure)
  | classObject (value : ClassObject)

def Callable.arity : Callable → Nat
  | .clock => 0
  | .function _ closure => closure.arity
  | .classObject value => value.arity

/-- An object of a class; its fields are in the store. -/
structure ObjectRef where
  id : Nat
  origin : ClassObject

inductive Value where
  | nil
  | bool (value : Bool)
  | number (value : Float)
  | string (value : String)
  | callable (value : Callable)
  | object (value : ObjectRef)

def Value.ofLiteral : Literal → Value
  | .number value => .number value
  | .string value => .string value
  | .bool value => .bool value
  | .nil => .nil

/-- Whether two callables are the same one. -/
def Callable.same : Callable → Callable → Bool
  | .clock, .clock => true
  | .function id _, .function other _ => id == other
  | .classObject value, .classObject other => value.id == other.id
  | _, _ => false

def Callable.text : Callable → String
  | .clock => "<native fn>"
  | .function _ closure => "<fn " ++ closure.declaration.name.lexeme ++ ">"
  | .classObject value => value.name

namespace Value

/-- Only nil and false count as false. -/
def isTruthy : Value → Bool
  | .nil => false
  | .bool value => value
  | _ => true

/-- Equality of values; values of different sorts are unequal, and a number that is not one differs
from itself. -/
def equals : Value → Value → Bool
  | .nil, .nil => true
  | .bool value, .bool other => value == other
  | .number value, .number other => value == other
  | .string value, .string other => value == other
  | .callable value, .callable other => value.same other
  | .object value, .object other => value.id == other.id
  | _, _ => false

def text : Value → String
  | .nil => "nil"
  | .bool true => "true"
  | .bool false => "false"
  | .number value => Decimal.printed value
  | .string value => value
  | .callable value => value.text
  | .object value => value.origin.name ++ " instance"

end Value

end LoxLang
