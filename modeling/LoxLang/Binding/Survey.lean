import LoxLang.Syntax.Basic
import LoxLang.Table

/-!
Where names are bound. A survey walks a program once, keeps the local scopes that are open at each
point, and finds for every reference to a local name how many scopes lie between the reference and
the binding. References without a distance are global. The walk also finds misuses of names, of
`return`, of `this` and of `super`, and goes on after each; `survey` gives all faults or all
distances.
-/
namespace LoxLang

/-- What is wrong with the use of a name or word. -/
inductive BindingCause where
  | duplicateDeclaration
  | selfReferencingInitializer
  | returnOutsideFunction
  | thisOutsideClass
  | superOutsideClass
  | superWithoutSuperclass
  | selfInheritance
  deriving DecidableEq, Repr

def BindingCause.message : BindingCause → String
  | .duplicateDeclaration => "Already a variable with this name in this scope."
  | .selfReferencingInitializer => "Can't read local variable in its own initializer."
  | .returnOutsideFunction => "Can't return from top-level code."
  | .thisOutsideClass => "Can't use 'this' outside of a class."
  | .superOutsideClass => "Can't use 'super' outside of a class."
  | .superWithoutSuperclass => "Can't use 'super' in a class with no superclass."
  | .selfInheritance => "A class can't inherit from itself."

/-- A misuse and the token at which it stands. -/
structure BindingFault where
  cause : BindingCause
  token : Token

/-- The class body around a point of the program. -/
inductive ClassContext where
  | outside
  | plain
  | derived
  deriving DecidableEq, Repr

/-- What surrounds a point of the program. -/
structure BindingContext where
  inFunction : Bool
  classContext : ClassContext

/-- The distance of a reference. -/
structure DistanceEntry where
  id : Nat
  distance : Nat
  deriving DecidableEq, Repr

/-- A survey in progress: the open local scopes from the innermost outward, the faults found, and
the distances found. A name is mapped to whether its declaration is complete. -/
structure Survey where
  scopes : List (Table Bool)
  faults : List BindingFault
  distances : List DistanceEntry

namespace Survey

/-- The survey before the first statement; the global scope is not among the open ones. -/
def start : Survey := ⟨[], [], []⟩

/-- Opens a scope with some names, all complete. -/
def enter (s : Survey) (names : List String) : Survey :=
  { s with scopes := Table.ofList (names.map (·, true)) :: s.scopes }

def leave (s : Survey) : Survey :=
  { s with scopes := s.scopes.tail }

def blame (s : Survey) (cause : BindingCause) (token : Token) : Survey :=
  { s with faults := s.faults ++ [⟨cause, token⟩] }

def record (s : Survey) (target : Reference) (distance : Nat) : Survey :=
  { s with distances := s.distances ++ [⟨target.id, distance⟩] }

/-- Declares a name in the innermost scope; it stays incomplete until it is defined. Declaring a
name twice is a fault. -/
def declare (s : Survey) (name : Token) : Survey :=
  match s.scopes with
  | [] => s
  | scope :: outer =>
    let declared := { s with scopes := scope.insert name.lexeme false :: outer }
    if scope.contains name.lexeme then declared.blame .duplicateDeclaration name else declared

/-- Completes the declaration of a name. -/
def define (s : Survey) (name : Token) : Survey :=
  match s.scopes with
  | [] => s
  | scope :: outer => { s with scopes := scope.insert name.lexeme true :: outer }

/-- Declares a name that is complete at once. -/
def introduce (s : Survey) (name : Token) : Survey :=
  (s.declare name).define name

/-- The number of scopes between the first of some scopes and the first that has a name. -/
def distanceIn? (scopes : List (Table Bool)) (name : String) : Option Nat :=
  scopes.findIdx? (·.contains name)

/-- Finds the binding of a reference, and leaves it global where no open scope has the name. -/
def resolve (s : Survey) (target : Reference) : Survey :=
  match distanceIn? s.scopes target.name.lexeme with
  | some distance => s.record target distance
  | none => s

/-- Finds the binding of a variable that is read. Inside the initializer of a local variable its
name means the next one outward, and it is a fault if there is none. -/
def resolveRead (s : Survey) (target : Reference) : Survey :=
  match s.scopes with
  | [] => s.resolve target
  | scope :: outer =>
    if scope.get? target.name.lexeme = some false then
      match distanceIn? outer target.name.lexeme with
      | some distance => s.record target (distance + 1)
      | none => s.blame .selfReferencingInitializer target.name
    else s.resolve target

mutual

/-- Surveys an expression. The value of a property assignment comes before its object. -/
def visitExpr (context : BindingContext) : Expr → Survey → Survey
  | .literal _, s => s
  | .unary _ operand, s => visitExpr context operand s
  | .binary left _ right, s => visitExpr context right (visitExpr context left s)
  | .logical left _ right, s => visitExpr context right (visitExpr context left s)
  | .grouping inner, s => visitExpr context inner s
  | .variable target, s => s.resolveRead target
  | .assign target value, s => (visitExpr context value s).resolve target
  | .call callee _ arguments, s => visitExprs context arguments (visitExpr context callee s)
  | .get object _, s => visitExpr context object s
  | .set object _ value, s => visitExpr context object (visitExpr context value s)
  | .thisObject keyword, s =>
    match context.classContext with
    | .outside => s.blame .thisOutsideClass keyword.name
    | .plain | .derived => s.resolve keyword
  | .superMethod keyword _, s =>
    match context.classContext with
    | .outside => s.blame .superOutsideClass keyword.name
    | .plain => s.blame .superWithoutSuperclass keyword.name
    | .derived => s.resolve keyword

def visitExprs (context : BindingContext) : List Expr → Survey → Survey
  | [], s => s
  | e :: rest, s => visitExprs context rest (visitExpr context e s)

end

def visitOption (context : BindingContext) : Option Expr → Survey → Survey
  | none, s => s
  | some e, s => visitExpr context e s

/-- A class must not name itself as its superclass. -/
def checkSuperclass (name : Token) (superclass : Expr) (s : Survey) : Survey :=
  match superclass.target? with
  | none => s
  | some parent =>
    if parent.name.lexeme = name.lexeme then s.blame .selfInheritance parent.name else s

theorem checkSuperclass_variable (name : Token) (parent : Reference) (s : Survey) :
    checkSuperclass name (.variable parent) s =
      if parent.name.lexeme = name.lexeme then s.blame .selfInheritance parent.name else s :=
  rfl

/-- Surveys the name and superclass of a class, and opens the scopes around its methods. The
superclass is surveyed as a part of the class already. -/
def enterClass (context : BindingContext) (name : Token) (superclass : Option Expr)
    (s : Survey) : Survey :=
  let s := s.introduce name
  match superclass with
  | none => s.enter ["this"]
  | some parent =>
    let s := visitExpr { context with classContext := .derived } parent
      (checkSuperclass name parent s)
    (s.enter ["super"]).enter ["this"]

def leaveClass (superclass : Option Expr) (s : Survey) : Survey :=
  if superclass.isSome then s.leave.leave else s.leave

def classContext (superclass : Option Expr) : ClassContext :=
  if superclass.isSome then .derived else .plain

mutual

def visitStmt (context : BindingContext) : Stmt → Survey → Survey
  | .expression value, s => visitExpr context value s
  | .print _ value, s => visitExpr context value s
  | .variable name initializer, s =>
    (visitOption context initializer (s.declare name)).define name
  | .block body, s => (visitStmts context body (s.enter [])).leave
  | .conditional condition thenBranch none, s =>
    visitStmt context thenBranch (visitExpr context condition s)
  | .conditional condition thenBranch (some elseBranch), s =>
    visitStmt context elseBranch (visitStmt context thenBranch (visitExpr context condition s))
  | .loop condition body, s => visitStmt context body (visitExpr context condition s)
  | .function declaration, s =>
    visitFunction context.classContext declaration (s.introduce declaration.name)
  | .returnWith keyword value, s =>
    visitOption context value
      (if context.inFunction then s else s.blame .returnOutsideFunction keyword)
  | .classDeclaration name superclass methods, s =>
    leaveClass superclass
      (visitMethods (classContext superclass) methods (enterClass context name superclass s))

def visitStmts (context : BindingContext) : List Stmt → Survey → Survey
  | [], s => s
  | stmt :: rest, s => visitStmts context rest (visitStmt context stmt s)

/-- Surveys a function: its parameters and its body share one scope. -/
def visitFunction (classContext : ClassContext) : FunctionDeclaration → Survey → Survey
  | ⟨_, params, body⟩, s =>
    (visitStmts ⟨true, classContext⟩ body (params.foldl introduce (s.enter []))).leave

def visitMethods (classContext : ClassContext) : List FunctionDeclaration → Survey → Survey
  | [], s => s
  | method :: rest, s => visitMethods classContext rest (visitFunction classContext method s)

end

end Survey

/-- The distances of all local references of a program, or everything that is wrong with its names.
-/
def survey (program : List Stmt) : Except (List BindingFault) (List DistanceEntry) :=
  let s := Survey.visitStmts ⟨false, .outside⟩ program .start
  if s.faults.isEmpty then .ok s.distances else .error s.faults

end LoxLang
