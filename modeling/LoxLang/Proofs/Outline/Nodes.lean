import LoxLang.Proofs.Outline.Brackets
import LoxLang.Syntax.Outline

/-!
Outlines as bracketed texts. `Expr.sexp` and `Stmt.sexp` say which atoms and lists the outline of a tree
consists of, and `Expr.toList_outline` and `Stmt.toList_outline` that it is just their text, whatever the
texts of the tokens are.
-/
namespace LoxLang
set_option autoImplicit false

/-! ## Nodes -/

mutual

/-- The bracketed text that the outline of an expression is. -/
def Expr.sexp : Expr → Sexp
  | .literal value => .atom value.outline
  | .unary operator operand => .list [.atom operator.lexeme, operand.sexp]
  | .binary left operator right => .list [.atom operator.lexeme, left.sexp, right.sexp]
  | .logical left operator right => .list [.atom operator.lexeme, left.sexp, right.sexp]
  | .grouping inner => .list [.atom "group", inner.sexp]
  | .variable target => .atom target.name.lexeme
  | .assign target value => .list [.atom "=", .atom target.name.lexeme, value.sexp]
  | .call callee _ arguments => .list (.atom "call" :: callee.sexp :: Expr.sexpAll arguments)
  | .get object name => .list [.atom ".", object.sexp, .atom name.lexeme]
  | .set object name value =>
    .list [.atom "=", .list [.atom ".", object.sexp, .atom name.lexeme], value.sexp]
  | .thisObject _ => .atom "this"
  | .superMethod _ method => .list [.atom "super", .atom method.lexeme]

def Expr.sexpAll : List Expr → List Sexp
  | [] => []
  | e :: rest => e.sexp :: Expr.sexpAll rest

end

/-- The parameters of a function, as atoms. -/
def Token.atoms (params : List Token) : List Sexp :=
  params.map fun param => .atom param.lexeme

mutual

/-- The bracketed text that the outline of a statement is. -/
def Stmt.sexp : Stmt → Sexp
  | .expression value => .list [.atom ";", value.sexp]
  | .print _ value => .list [.atom "print", value.sexp]
  | .variable name none => .list [.atom "var", .atom name.lexeme]
  | .variable name (some initializer) =>
    .list [.atom "var", .atom name.lexeme, initializer.sexp]
  | .block body => .list (.atom "block" :: Stmt.sexpAll body)
  | .conditional condition thenBranch none =>
    .list [.atom "if", condition.sexp, thenBranch.sexp]
  | .conditional condition thenBranch (some elseBranch) =>
    .list [.atom "if-else", condition.sexp, thenBranch.sexp, elseBranch.sexp]
  | .loop condition body => .list [.atom "while", condition.sexp, body.sexp]
  | .function declaration => declaration.sexp
  | .returnWith _ none => .list [.atom "return"]
  | .returnWith _ (some value) => .list [.atom "return", value.sexp]
  | .classDeclaration name none methods =>
    .list (.atom "class" :: .atom name.lexeme :: FunctionDeclaration.sexpAll methods)
  | .classDeclaration name (some superclass) methods =>
    .list (.atom "class" :: .atom name.lexeme :: .atom "<" :: superclass.sexp ::
      FunctionDeclaration.sexpAll methods)

def Stmt.sexpAll : List Stmt → List Sexp
  | [] => []
  | s :: rest => s.sexp :: Stmt.sexpAll rest

def FunctionDeclaration.sexp : FunctionDeclaration → Sexp
  | ⟨name, params, body⟩ =>
    .list (.atom "fun" :: .atom name.lexeme :: .list (Token.atoms params) :: Stmt.sexpAll body)

def FunctionDeclaration.sexpAll : List FunctionDeclaration → List Sexp
  | [] => []
  | d :: rest => d.sexp :: FunctionDeclaration.sexpAll rest

end

/-! ## Their texts -/

namespace Sexp

/-- A list with a head. -/
theorem text_node (head : String) (items : List Sexp) :
    (list (atom head :: items)).text = '(' :: (head.toList ++ (textAfter items ++ [')'])) := by
  rw [text, textAll, text, List.append_assoc]

end Sexp

mutual

theorem Expr.toList_outline (e : Expr) : e.outline.toList = e.sexp.text := by
  cases e with
  | literal value => rfl
  | unary operator operand =>
    simp [Expr.outline, Expr.sexp, Sexp.text_node, Sexp.textAfter, operand.toList_outline]
  | binary left operator right =>
    simp [Expr.outline, Expr.sexp, Sexp.text_node, Sexp.textAfter, left.toList_outline,
      right.toList_outline]
  | logical left operator right =>
    simp [Expr.outline, Expr.sexp, Sexp.text_node, Sexp.textAfter, left.toList_outline,
      right.toList_outline]
  | grouping inner =>
    simp [Expr.outline, Expr.sexp, Sexp.text_node, Sexp.textAfter, inner.toList_outline]
  | «variable» target => rfl
  | assign target value =>
    simp [Expr.outline, Expr.sexp, Sexp.text_node, Sexp.textAfter, Sexp.text, value.toList_outline]
  | call callee paren arguments =>
    simp [Expr.outline, Expr.sexp, Sexp.text_node, Sexp.textAfter, callee.toList_outline,
      Expr.toList_outlineAll arguments]
  | get object name =>
    simp [Expr.outline, Expr.sexp, Sexp.text_node, Sexp.textAfter, Sexp.text, object.toList_outline]
  | set object name value =>
    simp [Expr.outline, Expr.sexp, Sexp.text_node, Sexp.textAfter, Sexp.textAll, Sexp.text,
      object.toList_outline, value.toList_outline]
  | thisObject keyword => rfl
  | superMethod keyword method =>
    simp [Expr.outline, Expr.sexp, Sexp.text_node, Sexp.textAfter, Sexp.text]

theorem Expr.toList_outlineAll (es : List Expr) :
    (Expr.outlineAll es).toList = Sexp.textAfter (Expr.sexpAll es) := by
  cases es with
  | nil => rfl
  | cons e rest =>
    simp [Expr.outlineAll, Expr.sexpAll, Sexp.textAfter, e.toList_outline,
      Expr.toList_outlineAll rest]

end

theorem Token.text_atoms (params : List Token) :
    (String.intercalate " " (params.map (·.lexeme))).toList = Sexp.textAll (Token.atoms params) := by
  rw [String.toList_intercalate]
  cases params with
  | nil => rfl
  | cons first rest =>
    induction rest generalizing first with
    | nil => simp [Token.atoms, Sexp.textAll, Sexp.textAfter, Sexp.text]
    | cons second rest ih =>
      have hrest := ih second
      simp only [List.map_cons, Token.atoms, Sexp.textAll, Sexp.textAfter, Sexp.text] at hrest ⊢
      rw [List.intercalate_cons_cons, hrest]
      simp

mutual

theorem Stmt.toList_outline (s : Stmt) : s.outline.toList = s.sexp.text := by
  cases s with
  | expression value =>
    simp [Stmt.outline, Stmt.sexp, Sexp.text_node, Sexp.textAfter, value.toList_outline]
  | print keyword value =>
    simp [Stmt.outline, Stmt.sexp, Sexp.text_node, Sexp.textAfter, value.toList_outline]
  | «variable» name initializer =>
    cases initializer with
    | none => simp [Stmt.outline, Stmt.sexp, Sexp.text_node, Sexp.textAfter, Sexp.text]
    | some initializer =>
      simp [Stmt.outline, Stmt.sexp, Sexp.text_node, Sexp.textAfter, Sexp.text,
        initializer.toList_outline]
  | block body =>
    simp [Stmt.outline, Stmt.sexp, Sexp.text_node, Stmt.toList_outlineAll body]
  | conditional condition thenBranch elseBranch =>
    cases elseBranch with
    | none =>
      simp [Stmt.outline, Stmt.sexp, Sexp.text_node, Sexp.textAfter, condition.toList_outline,
        thenBranch.toList_outline]
    | some elseBranch =>
      simp [Stmt.outline, Stmt.sexp, Sexp.text_node, Sexp.textAfter, condition.toList_outline,
        thenBranch.toList_outline, elseBranch.toList_outline]
  | loop condition body =>
    simp [Stmt.outline, Stmt.sexp, Sexp.text_node, Sexp.textAfter, condition.toList_outline,
      body.toList_outline]
  | function declaration => exact declaration.toList_outline
  | returnWith keyword value =>
    cases value with
    | none => simp [Stmt.outline, Stmt.sexp, Sexp.text_node, Sexp.textAfter]
    | some value =>
      simp [Stmt.outline, Stmt.sexp, Sexp.text_node, Sexp.textAfter, value.toList_outline]
  | classDeclaration name superclass methods =>
    cases superclass with
    | none =>
      simp [Stmt.outline, Stmt.sexp, Sexp.text_node, Sexp.textAfter, Sexp.text,
        FunctionDeclaration.toList_outlineAll methods]
    | some superclass =>
      simp [Stmt.outline, Stmt.sexp, Sexp.text_node, Sexp.textAfter, Sexp.text,
        superclass.toList_outline, FunctionDeclaration.toList_outlineAll methods]

theorem Stmt.toList_outlineAll (body : List Stmt) :
    (Stmt.outlineAll body).toList = Sexp.textAfter (Stmt.sexpAll body) := by
  cases body with
  | nil => rfl
  | cons s rest =>
    simp [Stmt.outlineAll, Stmt.sexpAll, Sexp.textAfter, s.toList_outline,
      Stmt.toList_outlineAll rest]

theorem FunctionDeclaration.toList_outline (d : FunctionDeclaration) :
    d.outline.toList = d.sexp.text := by
  cases d with
  | mk name params body =>
    rw [FunctionDeclaration.outline, String.toList_append, String.toList_append,
      String.toList_append, String.toList_append, Token.text_atoms, Stmt.toList_outlineAll body]
    simp [FunctionDeclaration.sexp, Sexp.text_node, Sexp.textAfter, Sexp.text]

theorem FunctionDeclaration.toList_outlineAll (ds : List FunctionDeclaration) :
    (FunctionDeclaration.outlineAll ds).toList =
      Sexp.textAfter (FunctionDeclaration.sexpAll ds) := by
  cases ds with
  | nil => rfl
  | cons d rest =>
    simp [FunctionDeclaration.outlineAll, FunctionDeclaration.sexpAll, Sexp.textAfter,
      d.toList_outline, FunctionDeclaration.toList_outlineAll rest]

end

end LoxLang
