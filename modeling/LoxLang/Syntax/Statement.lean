import LoxLang.Syntax.Expression

/-!
The grammar of statements and declarations.

```text
program     := declaration*
declaration := "class" IDENTIFIER ("<" IDENTIFIER)? "{" function* "}"
             | "fun" function | "var" variable | statement
function    := IDENTIFIER "(" (IDENTIFIER ("," IDENTIFIER)*)? ")" block
variable    := IDENTIFIER ("=" expression)? ";"
block       := "{" declaration* "}"
statement   := "for" "(" ("var" variable | expression ";" | ";") expression? ";" expression? ")"
               statement
             | "if" "(" expression ")" statement ("else" statement)?
             | "while" "(" expression ")" statement
             | "print" expression ";" | "return" expression? ";" | block | expression ";"
```

A fault inside a block is noted and reading goes on inside the block. `programItems` lists what a
token list holds: for every declaration the faults noted while it was read, then the declaration
itself or the fault that stopped it.
-/
namespace LoxLang

namespace Reading
variable {m : Type → Type} [Monad m] [Steps m]

/-- The declarations up to the closing brace, which stays. A faulty one is noted and passed over. -/
def declarationsFrom (declaration : m Stmt) : (fuel : Nat) → m (List Stmt)
  | 0 => Steps.tooDeep
  | fuel + 1 => do
    if (← Steps.atEnd) || (← Steps.nextIs (·.isSymbol .rightBrace)) then return []
    let first ← Steps.attempt declaration
    let rest ← declarationsFrom declaration fuel
    return first.toList ++ rest

def block (declaration : m Stmt) (fuel : Nat) : m (List Stmt) := do
  let body ← declarationsFrom declaration fuel
  discard (expectSymbol .rightBrace "'\x7d' after block")
  return body

/-- A function from its name on; `kind` is the word for it in faults. -/
def function (declaration : m Stmt) (fuel : Nat) (kind : String) : m FunctionDeclaration := do
  let name ← expectName (kind ++ " name")
  discard (expectSymbol .leftParen ("'(' after " ++ kind ++ " name"))
  let (params, _) ←
    parenthesized .tooManyParameters (expectName "parameter name") fuel "')' after parameters"
  discard (expectSymbol .leftBrace ("'\x7b' before " ++ kind ++ " body"))
  return ⟨name, params, ← block declaration fuel⟩

/-- The methods up to the closing brace of a class, which stays. -/
def methodsFrom (declaration : m Stmt) : (fuel : Nat) → m (List FunctionDeclaration)
  | 0 => Steps.tooDeep
  | fuel + 1 => do
    if (← Steps.atEnd) || (← Steps.nextIs (·.isSymbol .rightBrace)) then return []
    let first ← function declaration fuel "method"
    return first :: (← methodsFrom declaration fuel)

def classFrom (declaration : m Stmt) (fuel : Nat) : m Stmt := do
  let name ← expectName "class name"
  let superclass ←
    if ← accept (·.isSymbol .less) then
      (some <| Expr.variable ·) <$> Steps.reference (← expectName "superclass name")
    else pure none
  discard (expectSymbol .leftBrace "'\x7b' before class body")
  let methods ← methodsFrom declaration fuel
  discard (expectSymbol .rightBrace "'\x7d' after class body")
  return .classDeclaration name superclass methods

def variableFrom (fuel : Nat) : m Stmt := do
  let name ← expectName "variable name"
  let initializer ←
    if ← accept (·.isSymbol .equal) then some <$> expression fuel else pure none
  discard (expectSymbol .semicolon "';' after variable declaration")
  return .variable name initializer

def expressionStatement (fuel : Nat) : m Stmt := do
  let value ← expression fuel
  discard (expectSymbol .semicolon "';' after expression")
  return .expression value

/-- An expression that may be left out before a symbol. -/
def optionalExpression (fuel : Nat) (closing : Symbol) : m (Option Expr) := do
  if ← Steps.nextIs (·.isSymbol closing) then return none else some <$> expression fuel

/-- An expression between parentheses; `before` and `after` are what the parentheses are for. -/
def condition (fuel : Nat) (before after : String) : m Expr := do
  discard (expectSymbol .leftParen before)
  let e ← expression fuel
  discard (expectSymbol .rightParen after)
  return e

end Reading

/-- The tree of a `for` statement. The increment follows the body in a block, a missing condition is
true, and the initializer stands before the loop in a block of its own. -/
def Stmt.forLoop (initializer : Option Stmt) (condition increment : Option Expr) (body : Stmt) :
    Stmt :=
  let body := match increment with
    | some e => .block [body, .expression e]
    | none => body
  let loop := Stmt.loop (condition.getD (.literal (.bool true))) body
  match initializer with
  | some s => .block [s, loop]
  | none => loop

namespace Reading
variable {m : Type → Type} [Monad m] [Steps m]

/-- The first clause of a `for` statement with its semicolon; it may hold nothing else. -/
def forInitializer (fuel : Nat) : m (Option Stmt) := do
  if ← accept (·.isSymbol .semicolon) then return none
  else if ← accept (·.isKeyword .varWord) then some <$> variableFrom fuel
  else some <$> expressionStatement fuel

def forFrom (statement : m Stmt) (fuel : Nat) : m Stmt := do
  discard (expectSymbol .leftParen "'(' after 'for'")
  let initializer ← forInitializer fuel
  let condition ← optionalExpression fuel .semicolon
  discard (expectSymbol .semicolon "';' after loop condition")
  let increment ← optionalExpression fuel .rightParen
  discard (expectSymbol .rightParen "')' after for clauses")
  return .forLoop initializer condition increment (← statement)

/-- A conditional after its first word; an `else` belongs to the nearest one. -/
def ifFrom (statement : m Stmt) (fuel : Nat) : m Stmt := do
  let test ← condition fuel "'(' after 'if'" "')' after if condition"
  let thenBranch ← statement
  let elseBranch ← if ← accept (·.isKeyword .elseWord) then some <$> statement else pure none
  return .conditional test thenBranch elseBranch

def whileFrom (statement : m Stmt) (fuel : Nat) : m Stmt := do
  let test ← condition fuel "'(' after 'while'" "')' after condition"
  return .loop test (← statement)

def printFrom (keyword : Token) (fuel : Nat) : m Stmt := do
  let value ← expression fuel
  discard (expectSymbol .semicolon "';' after value")
  return .print keyword value

def returnFrom (keyword : Token) (fuel : Nat) : m Stmt := do
  let value ← optionalExpression fuel .semicolon
  discard (expectSymbol .semicolon "';' after return value")
  return .returnWith keyword value

/-- A statement, given the readings of the declarations and statements inside it. -/
def statementForm (declaration statement : m Stmt) (fuel : Nat) : m Stmt := do
  if ← accept (·.isKeyword .forWord) then forFrom statement fuel
  else if ← accept (·.isKeyword .ifWord) then ifFrom statement fuel
  else if ← accept (·.isKeyword .whileWord) then whileFrom statement fuel
  else match ← Steps.takeIf (·.isKeyword .returnWord) with
    | some keyword => returnFrom keyword fuel
    | none =>
      if ← accept (·.isSymbol .leftBrace) then return .block (← block declaration fuel)
      else match ← Steps.takeIf (·.isKeyword .printWord) with
        | some keyword => printFrom keyword fuel
        | none => expressionStatement fuel

/-- A declaration, given the readings of the declarations and statements inside it. -/
def declarationForm (declaration statement : m Stmt) (fuel : Nat) : m Stmt := do
  if ← accept (·.isKeyword .classWord) then classFrom declaration fuel
  else if ← accept (·.isKeyword .funWord) then
    return .function (← function declaration fuel "function")
  else if ← accept (·.isKeyword .varWord) then variableFrom fuel
  else statementForm declaration statement fuel

mutual

def statement : (fuel : Nat) → m Stmt
  | 0 => Steps.tooDeep
  | fuel + 1 => statementForm (declaration fuel) (statement fuel) fuel

/-- A declaration or statement; after a fault the rest of it is passed over. -/
def declaration : (fuel : Nat) → m Stmt
  | 0 => Steps.tooDeep
  | fuel + 1 => Steps.recovering (declarationForm (declaration fuel) (statement fuel) fuel)

end

end Reading

/-- What a token list holds at one place: a declaration or a fault. -/
abbrev ProgramItem := Except SyntaxFault Stmt

/-- Reads one declaration, and goes to the place after it. -/
def readItem (depth : Nat) (c : Cursor) : ProgramItem × Cursor :=
  match (Reading.declaration depth : Reading Stmt) c with
  | .ok s after => (.ok s, after)
  | .error stop after => (.error (stop.report after), after)

/-- The items from a place on, and the identity of the next reference after them. -/
def programItemsFrom (depth : Nat) : (fuel : Nat) → Cursor → List ProgramItem × Nat
  | 0, c => ([.error (Stop.report c .tooDeep)], c.nextId)
  | fuel + 1, c =>
    if c.rest.isEmpty then ([], c.nextId)
    else
      let (item, after) := readItem depth c
      let (rest, nextId) := programItemsFrom depth fuel { after with noted := [] }
      (after.noted.map Except.error ++ item :: rest, nextId)

/-- The items of a token list, and the identity of the next reference after them. -/
def programItems (tokens : List Token) (nextId : Nat) : List ProgramItem × Nat :=
  let start := Cursor.start tokens nextId
  programItemsFrom (depthBound tokens) (start.rest.length + 1) start

/-- The declaration that an item is, if it is one. -/
def ProgramItem.declaration? : ProgramItem → Option Stmt
  | .ok s => some s
  | .error _ => none

/-- The fault that an item is, if it is one. -/
def ProgramItem.fault? : ProgramItem → Option SyntaxFault
  | .ok _ => none
  | .error f => some f

/-- The program that tokens stand for, or all faults in them. -/
def programOfItems (items : List ProgramItem) : Except (List SyntaxFault) (List Stmt) :=
  match items.filterMap ProgramItem.fault? with
  | [] => .ok (items.filterMap ProgramItem.declaration?)
  | faults => .error faults

end LoxLang
