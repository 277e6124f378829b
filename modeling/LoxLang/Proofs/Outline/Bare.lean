import LoxLang.Proofs.Session.Lines
import LoxLang.Syntax.Outline

/-!
What outlines tell of trees. `bare` drops from a tree what its outline leaves out: identities, lines,
the closing parentheses of calls, and the keywords of `print` and `return`. Nothing that is shown is
lost (`Stmt.outline_bare`). `literals` lists the literals of a tree.
-/
namespace LoxLang
set_option autoImplicit false

/-! ## Trees without identities, lines and punctuation -/

/-- What stands for a token that outlines leave out. -/
def Token.dropped : Token :=
  .endOn 0

/-- The reference to a name, without identity and line. -/
def Token.referenced (name : Token) : Reference :=
  ⟨0, name.unlined⟩

mutual

/-- An expression but for identities, lines and the closing parentheses of calls. -/
def Expr.bare : Expr → Expr
  | .literal value => .literal value
  | .unary operator operand => .unary operator.unlined operand.bare
  | .binary left operator right => .binary left.bare operator.unlined right.bare
  | .logical left operator right => .logical left.bare operator.unlined right.bare
  | .grouping inner => .grouping inner.bare
  | .variable target => .variable target.name.referenced
  | .assign target value => .assign target.name.referenced value.bare
  | .call callee _ arguments => .call callee.bare .dropped (Expr.bareAll arguments)
  | .get object name => .get object.bare name.unlined
  | .set object name value => .set object.bare name.unlined value.bare
  | .thisObject keyword => .thisObject keyword.name.referenced
  | .superMethod keyword method => .superMethod keyword.name.referenced method.unlined

def Expr.bareAll : List Expr → List Expr
  | [] => []
  | e :: rest => e.bare :: Expr.bareAll rest

end

mutual

/-- A statement but for identities, lines, the closing parentheses of calls, and the keywords of `print`
and `return`. -/
def Stmt.bare : Stmt → Stmt
  | .expression value => .expression value.bare
  | .print _ value => .print .dropped value.bare
  | .variable name initializer => .variable name.unlined (initializer.map Expr.bare)
  | .block body => .block (Stmt.bareAll body)
  | .conditional condition thenBranch none => .conditional condition.bare thenBranch.bare none
  | .conditional condition thenBranch (some elseBranch) =>
    .conditional condition.bare thenBranch.bare (some elseBranch.bare)
  | .loop condition body => .loop condition.bare body.bare
  | .function declaration => .function declaration.bare
  | .returnWith _ value => .returnWith .dropped (value.map Expr.bare)
  | .classDeclaration name superclass methods =>
    .classDeclaration name.unlined (superclass.map Expr.bare)
      (FunctionDeclaration.bareAll methods)

def Stmt.bareAll : List Stmt → List Stmt
  | [] => []
  | s :: rest => s.bare :: Stmt.bareAll rest

def FunctionDeclaration.bare : FunctionDeclaration → FunctionDeclaration
  | ⟨name, params, body⟩ => ⟨name.unlined, params.map Token.unlined, Stmt.bareAll body⟩

def FunctionDeclaration.bareAll : List FunctionDeclaration → List FunctionDeclaration
  | [] => []
  | d :: rest => d.bare :: FunctionDeclaration.bareAll rest

end

/-! ## Outlines of bare trees -/

@[simp] theorem Token.lexeme_unlined (t : Token) : t.unlined.lexeme = t.lexeme := rfl

@[simp] theorem Token.name_referenced (name : Token) : name.referenced.name = name.unlined := rfl

mutual

/-- What is dropped from an expression is not in its outline. -/
theorem Expr.outline_bare (e : Expr) : e.bare.outline = e.outline := by
  cases e with
  | literal value => rfl
  | unary operator operand => simp [Expr.bare, Expr.outline, operand.outline_bare]
  | binary left operator right =>
    simp [Expr.bare, Expr.outline, left.outline_bare, right.outline_bare]
  | logical left operator right =>
    simp [Expr.bare, Expr.outline, left.outline_bare, right.outline_bare]
  | grouping inner => simp [Expr.bare, Expr.outline, inner.outline_bare]
  | «variable» target => rfl
  | assign target value => simp [Expr.bare, Expr.outline, value.outline_bare]
  | call callee paren arguments =>
    simp [Expr.bare, Expr.outline, callee.outline_bare, Expr.outlineAll_bareAll arguments]
  | get object name => simp [Expr.bare, Expr.outline, object.outline_bare]
  | set object name value =>
    simp [Expr.bare, Expr.outline, object.outline_bare, value.outline_bare]
  | thisObject keyword => rfl
  | superMethod keyword method => rfl

theorem Expr.outlineAll_bareAll (es : List Expr) :
    Expr.outlineAll (Expr.bareAll es) = Expr.outlineAll es := by
  cases es with
  | nil => rfl
  | cons e rest =>
    rw [Expr.bareAll, Expr.outlineAll, Expr.outlineAll, e.outline_bare, Expr.outlineAll_bareAll rest]

end

mutual

/-- What is dropped from a statement is not in its outline. -/
theorem Stmt.outline_bare (s : Stmt) : s.bare.outline = s.outline := by
  cases s with
  | expression value => simp [Stmt.bare, Stmt.outline, value.outline_bare]
  | print keyword value => simp [Stmt.bare, Stmt.outline, value.outline_bare]
  | «variable» name initializer =>
    cases initializer with
    | none => rfl
    | some e => simp [Stmt.bare, Stmt.outline, e.outline_bare]
  | block body => simp [Stmt.bare, Stmt.outline, Stmt.outlineAll_bareAll body]
  | conditional condition thenBranch elseBranch =>
    cases elseBranch with
    | none => simp [Stmt.bare, Stmt.outline, condition.outline_bare, thenBranch.outline_bare]
    | some elseBranch =>
      simp [Stmt.bare, Stmt.outline, condition.outline_bare, thenBranch.outline_bare,
        elseBranch.outline_bare]
  | loop condition body => simp [Stmt.bare, Stmt.outline, condition.outline_bare, body.outline_bare]
  | function declaration => simp [Stmt.bare, Stmt.outline, declaration.outline_bare]
  | returnWith keyword value =>
    cases value with
    | none => rfl
    | some e => simp [Stmt.bare, Stmt.outline, e.outline_bare]
  | classDeclaration name superclass methods =>
    cases superclass with
    | none => simp [Stmt.bare, Stmt.outline, FunctionDeclaration.outlineAll_bareAll methods]
    | some parent =>
      simp [Stmt.bare, Stmt.outline, parent.outline_bare,
        FunctionDeclaration.outlineAll_bareAll methods]

theorem Stmt.outlineAll_bareAll (body : List Stmt) :
    Stmt.outlineAll (Stmt.bareAll body) = Stmt.outlineAll body := by
  cases body with
  | nil => rfl
  | cons s rest =>
    rw [Stmt.bareAll, Stmt.outlineAll, Stmt.outlineAll, s.outline_bare, Stmt.outlineAll_bareAll rest]

theorem FunctionDeclaration.outline_bare (d : FunctionDeclaration) : d.bare.outline = d.outline := by
  cases d with
  | mk name params body =>
    have hparams : (params.map Token.unlined).map Token.lexeme = params.map Token.lexeme :=
      List.map_map
    rw [FunctionDeclaration.bare, FunctionDeclaration.outline, FunctionDeclaration.outline, hparams,
      Stmt.outlineAll_bareAll body, Token.lexeme_unlined]

theorem FunctionDeclaration.outlineAll_bareAll (ds : List FunctionDeclaration) :
    FunctionDeclaration.outlineAll (FunctionDeclaration.bareAll ds) =
      FunctionDeclaration.outlineAll ds := by
  cases ds with
  | nil => rfl
  | cons d rest =>
    rw [FunctionDeclaration.bareAll, FunctionDeclaration.outlineAll, FunctionDeclaration.outlineAll,
      d.outline_bare, FunctionDeclaration.outlineAll_bareAll rest]

end

/-! ## Literals -/

mutual

/-- The literals of an expression. -/
def Expr.literals : Expr → List Literal
  | .literal value => [value]
  | .unary _ operand => operand.literals
  | .binary left _ right => left.literals ++ right.literals
  | .logical left _ right => left.literals ++ right.literals
  | .grouping inner => inner.literals
  | .variable _ => []
  | .assign _ value => value.literals
  | .call callee _ arguments => callee.literals ++ Expr.literalsAll arguments
  | .get object _ => object.literals
  | .set object _ value => object.literals ++ value.literals
  | .thisObject _ => []
  | .superMethod _ _ => []

def Expr.literalsAll : List Expr → List Literal
  | [] => []
  | e :: rest => e.literals ++ Expr.literalsAll rest

end

def Expr.literalsOption (e : Option Expr) : List Literal :=
  e.elim [] Expr.literals

mutual

/-- The literals of a statement. -/
def Stmt.literals : Stmt → List Literal
  | .expression value => value.literals
  | .print _ value => value.literals
  | .variable _ initializer => Expr.literalsOption initializer
  | .block body => Stmt.literalsAll body
  | .conditional condition thenBranch none => condition.literals ++ thenBranch.literals
  | .conditional condition thenBranch (some elseBranch) =>
    condition.literals ++ (thenBranch.literals ++ elseBranch.literals)
  | .loop condition body => condition.literals ++ body.literals
  | .function declaration => declaration.literals
  | .returnWith _ value => Expr.literalsOption value
  | .classDeclaration _ superclass methods =>
    Expr.literalsOption superclass ++ FunctionDeclaration.literalsAll methods

def Stmt.literalsAll : List Stmt → List Literal
  | [] => []
  | s :: rest => s.literals ++ Stmt.literalsAll rest

def FunctionDeclaration.literals : FunctionDeclaration → List Literal
  | ⟨_, _, body⟩ => Stmt.literalsAll body

def FunctionDeclaration.literalsAll : List FunctionDeclaration → List Literal
  | [] => []
  | d :: rest => d.literals ++ FunctionDeclaration.literalsAll rest

end

end LoxLang
