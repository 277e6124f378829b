import LoxLang.Decimal.Layout
import LoxLang.Syntax.Basic

/-!
The parenthesised outline of a syntax tree: each node is its head and its children, in parentheses
and separated by blanks. A string literal stands without quotes.
-/
namespace LoxLang

def Literal.outline : Literal → String
  | .number value => Decimal.listed value
  | .string value => value
  | .bool true => "true"
  | .bool false => "false"
  | .nil => "nil"

mutual

def Expr.outline : Expr → String
  | .literal value => value.outline
  | .unary operator operand => "(" ++ operator.lexeme ++ " " ++ operand.outline ++ ")"
  | .binary left operator right =>
    "(" ++ operator.lexeme ++ " " ++ left.outline ++ " " ++ right.outline ++ ")"
  | .logical left operator right =>
    "(" ++ operator.lexeme ++ " " ++ left.outline ++ " " ++ right.outline ++ ")"
  | .grouping inner => "(group " ++ inner.outline ++ ")"
  | .variable target => target.name.lexeme
  | .assign target value => "(= " ++ target.name.lexeme ++ " " ++ value.outline ++ ")"
  | .call callee _ arguments => "(call " ++ callee.outline ++ Expr.outlineAll arguments ++ ")"
  | .get object name => "(. " ++ object.outline ++ " " ++ name.lexeme ++ ")"
  | .set object name value =>
    "(= (. " ++ object.outline ++ " " ++ name.lexeme ++ ") " ++ value.outline ++ ")"
  | .thisObject _ => "this"
  | .superMethod _ method => "(super " ++ method.lexeme ++ ")"

/-- The outlines of expressions, each after a blank. -/
def Expr.outlineAll : List Expr → String
  | [] => ""
  | e :: rest => " " ++ e.outline ++ Expr.outlineAll rest

end

mutual

def Stmt.outline : Stmt → String
  | .expression value => "(; " ++ value.outline ++ ")"
  | .print _ value => "(print " ++ value.outline ++ ")"
  | .variable name none => "(var " ++ name.lexeme ++ ")"
  | .variable name (some initializer) =>
    "(var " ++ name.lexeme ++ " " ++ initializer.outline ++ ")"
  | .block body => "(block" ++ Stmt.outlineAll body ++ ")"
  | .conditional condition thenBranch none =>
    "(if " ++ condition.outline ++ " " ++ thenBranch.outline ++ ")"
  | .conditional condition thenBranch (some elseBranch) =>
    "(if-else " ++ condition.outline ++ " " ++ thenBranch.outline ++ " " ++ elseBranch.outline
      ++ ")"
  | .loop condition body => "(while " ++ condition.outline ++ " " ++ body.outline ++ ")"
  | .function declaration => declaration.outline
  | .returnWith _ none => "(return)"
  | .returnWith _ (some value) => "(return " ++ value.outline ++ ")"
  | .classDeclaration name none methods =>
    "(class " ++ name.lexeme ++ FunctionDeclaration.outlineAll methods ++ ")"
  | .classDeclaration name (some superclass) methods =>
    "(class " ++ name.lexeme ++ " < " ++ superclass.outline
      ++ FunctionDeclaration.outlineAll methods ++ ")"

/-- The outlines of statements, each after a blank. -/
def Stmt.outlineAll : List Stmt → String
  | [] => ""
  | s :: rest => " " ++ s.outline ++ Stmt.outlineAll rest

/-- The outline of a function: name, parameters in parentheses, body. -/
def FunctionDeclaration.outline : FunctionDeclaration → String
  | ⟨name, params, body⟩ =>
    "(fun " ++ name.lexeme ++ " (" ++ String.intercalate " " (params.map (·.lexeme)) ++ ")"
      ++ Stmt.outlineAll body ++ ")"

/-- The outlines of methods, each after a blank. -/
def FunctionDeclaration.outlineAll : List FunctionDeclaration → String
  | [] => ""
  | d :: rest => " " ++ d.outline ++ FunctionDeclaration.outlineAll rest

end

end LoxLang
