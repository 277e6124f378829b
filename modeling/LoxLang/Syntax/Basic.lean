import LoxLang.Token.Basic

/-!
Syntax trees of expressions, statements and declarations. Names and operators stay tokens, so that
every node knows its line. A `Reference` is a name that is looked up when the program runs; it
carries the identity under which a distance can be recorded for it, and `Expr.references` and
`Stmt.references` list the references of a tree in the order in which they are written.
-/
namespace LoxLang

inductive Literal where
  | number (value : Float)
  | string (value : String)
  | bool (value : Bool)
  | nil

/-- A use of a name, with an identity of its own. -/
structure Reference where
  id : Nat
  name : Token

inductive Expr where
  | literal (value : Literal)
  | unary (operator : Token) (operand : Expr)
  /-- Arithmetic, comparison and equality. -/
  | binary (left : Expr) (operator : Token) (right : Expr)
  /-- An operator that may leave its right side unevaluated. -/
  | logical (left : Expr) (operator : Token) (right : Expr)
  | grouping (inner : Expr)
  | variable (target : Reference)
  | assign (target : Reference) (value : Expr)
  /-- A call; `paren` is the closing parenthesis. -/
  | call (callee : Expr) (paren : Token) (arguments : List Expr)
  | get (object : Expr) (name : Token)
  | set (object : Expr) (name : Token) (value : Expr)
  | thisObject (keyword : Reference)
  | superMethod (keyword : Reference) (method : Token)

/-- The reference that a variable is. -/
def Expr.target? : Expr → Option Reference
  | .variable target => some target
  | .literal _ | .unary .. | .binary .. | .logical .. | .grouping _ | .assign .. | .call .. | .get ..
  | .set .. | .thisObject _ | .superMethod .. => none

mutual

inductive Stmt where
  | expression (value : Expr)
  | print (keyword : Token) (value : Expr)
  | variable (name : Token) (initializer : Option Expr)
  | block (body : List Stmt)
  | conditional (condition : Expr) (thenBranch : Stmt) (elseBranch : Option Stmt)
  | loop (condition : Expr) (body : Stmt)
  | function (declaration : FunctionDeclaration)
  | returnWith (keyword : Token) (value : Option Expr)
  /-- A class; the rule for classes reads a variable as the superclass. -/
  | classDeclaration (name : Token) (superclass : Option Expr) (methods : List FunctionDeclaration)

structure FunctionDeclaration where
  name : Token
  params : List Token
  body : List Stmt

end

/-! ## References in the order of the text -/

mutual

/-- The references of an expression. An assignment comes before those of its value, an object before
the value stored into it. -/
def Expr.references : Expr → List Reference
  | .literal _ => []
  | .unary _ operand => operand.references
  | .binary left _ right => left.references ++ right.references
  | .logical left _ right => left.references ++ right.references
  | .grouping inner => inner.references
  | .variable target => [target]
  | .assign target value => target :: value.references
  | .call callee _ arguments => callee.references ++ Expr.referencesAll arguments
  | .get object _ => object.references
  | .set object _ value => object.references ++ value.references
  | .thisObject keyword => [keyword]
  | .superMethod keyword _ => [keyword]

def Expr.referencesAll : List Expr → List Reference
  | [] => []
  | e :: rest => e.references ++ Expr.referencesAll rest

end

def Expr.referencesOption : Option Expr → List Reference
  | none => []
  | some e => e.references

mutual

def Stmt.references : Stmt → List Reference
  | .expression value => value.references
  | .print _ value => value.references
  | .variable _ initializer => Expr.referencesOption initializer
  | .block body => Stmt.referencesAll body
  | .conditional condition thenBranch none => condition.references ++ thenBranch.references
  | .conditional condition thenBranch (some elseBranch) =>
    condition.references ++ thenBranch.references ++ elseBranch.references
  | .loop condition body => condition.references ++ body.references
  | .function declaration => declaration.references
  | .returnWith _ value => Expr.referencesOption value
  | .classDeclaration _ superclass methods =>
    Expr.referencesOption superclass ++ FunctionDeclaration.referencesAll methods

def Stmt.referencesAll : List Stmt → List Reference
  | [] => []
  | s :: rest => s.references ++ Stmt.referencesAll rest

def FunctionDeclaration.references : FunctionDeclaration → List Reference
  | ⟨_, _, body⟩ => Stmt.referencesAll body

def FunctionDeclaration.referencesAll : List FunctionDeclaration → List Reference
  | [] => []
  | d :: rest => d.references ++ FunctionDeclaration.referencesAll rest

end

end LoxLang
