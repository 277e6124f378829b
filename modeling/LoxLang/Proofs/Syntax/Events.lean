import Mathlib.Data.List.Infix
import LoxLang.Proofs.Syntax.Reading
import LoxLang.Syntax.Statement

/-!
What happens while the rules of the grammar are followed. `Traced` interprets their steps a second
time: next to the reading it keeps a record of the tokens that are looked at, of the faults that
arise, whether they stop a rule or are noted, and of the declarations that are read or passed over,
all in the order in which it happens. The rules are one text for both interpretations, so that they
determine the record, and without it they are the readings that they were
(`Traced.read_expression`, `Traced.read_declaration`).
-/
namespace LoxLang
set_option autoImplicit false

inductive Event where
  /-- The tokens at some place are looked at, and the first of them may be taken. -/
  | look (place : Cursor)
  /-- A fault arises. -/
  | raised (fault : SyntaxFault)
  /-- The reading of a declaration that started at one place is over at another one. -/
  | declared (before after : Cursor)

/-- The fault that arises, if one does. -/
def Event.fault? : Event → Option SyntaxFault
  | .raised f => some f
  | _ => none

namespace Reading

/-- The place at which a reading is over, with a result or without one. -/
def placeOf {α : Type} : EStateM.Result Stop Cursor α → Cursor
  | .ok _ after => after
  | .error _ after => after

/-- The steps of reading that depend on the next token. -/
inductive Looks : {α : Type} → Reading α → Prop
  | peek : Looks peek
  | atEnd : Looks atEnd
  | nextIs (test : Token → Bool) : Looks (nextIs test)
  | takeIf (test : Token → Bool) : Looks (takeIf test)
  | skip : Looks skip

/-- Either nothing is taken or a token that passes the test. -/
theorem takeIf_cases (test : Token → Bool) (c : Cursor) :
    takeIf test c = .ok none c ∨ ∃ t rest, c.rest = t :: rest ∧ test t = true ∧
      takeIf test c = .ok (some t) { c with rest } := by
  unfold takeIf
  cases hrest : c.rest with
  | nil => exact Or.inl rfl
  | cons t rest =>
    by_cases htest : test t = true
    · exact Or.inr ⟨t, rest, rfl, htest, if_pos htest⟩
    · exact Or.inl (if_neg htest)

/-- A look is no fault, and at most passes a token. -/
theorem Looks.yields {α : Type} {r : Reading α} (h : Looks r) (c : Cursor) :
    ∃ a after, r c = .ok a after ∧ after.rest <:+ c.rest ∧ after.endLine = c.endLine ∧
      after.noted = c.noted := by
  cases h with
  | peek => exact ⟨_, _, rfl, List.suffix_refl _, rfl, rfl⟩
  | atEnd => exact ⟨_, _, rfl, List.suffix_refl _, rfl, rfl⟩
  | nextIs test => exact ⟨_, _, rfl, List.suffix_refl _, rfl, rfl⟩
  | skip => exact ⟨_, _, rfl, List.tail_suffix _, rfl, rfl⟩
  | takeIf test =>
    obtain hnone | ⟨t, rest, hrest, _, hsome⟩ := takeIf_cases test c
    · exact ⟨_, _, hnone, List.suffix_refl _, rfl, rfl⟩
    · exact ⟨_, _, hsome, hrest ▸ List.suffix_cons t rest, rfl, rfl⟩

end Reading

/-! ## Readings with a record -/

/-- A reading, and what happens in it from every place on. -/
structure Traced (α : Type) where
  read : Reading α
  events : Cursor → List Event

namespace Traced

/-- What comes after a fault is not read, so that nothing of it happens. -/
instance : Monad Traced where
  pure a := ⟨pure a, fun _ => []⟩
  bind t f :=
    { read := t.read >>= fun a => (f a).read
      events := fun c => t.events c ++ match t.read c with
        | .ok a mid => (f a).events mid
        | .error _ _ => [] }

/-- A step that looks at the tokens where it starts. -/
def look {α : Type} (r : Reading α) : Traced α :=
  ⟨r, fun c => [.look c]⟩

/-- After a fault, what is left of a declaration is passed over; that looks at every place from the
fault on, as far as to the end of the input. -/
def passing {α : Type} : EStateM.Result Stop Cursor α → List Event
  | .ok _ _ => []
  | .error _ after => after.rest.tails.map fun rest => .look { after with rest }

instance : Steps Traced where
  tooDeep := ⟨Reading.tooDeep, fun _ => []⟩
  peek := look Reading.peek
  atEnd := look Reading.atEnd
  failHere cause := ⟨Reading.failHere cause, fun c => [.look c, .raised ⟨cause, c.peek⟩]⟩
  note cause token := ⟨Reading.note cause token, fun _ => [.raised ⟨cause, token⟩]⟩
  nextIs test := look (Reading.nextIs test)
  takeIf test := look (Reading.takeIf test)
  skip := look Reading.skip
  reference name := ⟨Reading.reference name, fun _ => []⟩
  recovering t :=
    { read := Reading.recovering t.read
      events := fun c => t.events c ++ (passing (t.read c) ++
        [.declared c (Reading.placeOf (Reading.recovering t.read c))]) }
  attempt t := ⟨Reading.attempt t.read, t.events⟩

section Record
variable {α β : Type} {t : Traced α} {f : α → Traced β} {c mid after : Cursor} {a : α} {stop : Stop}

theorem events_bind_of_ok (h : t.read c = .ok a mid) :
    (t >>= f).events c = t.events c ++ (f a).events mid := by
  change t.events c ++ _ = _
  rw [h]

theorem events_bind_of_error (h : t.read c = .error stop after) :
    (t >>= f).events c = t.events c := by
  change t.events c ++ _ = _
  rw [h]
  exact List.append_nil _

end Record

/-! ## Rules without their record -/

section Rules
variable {α β : Type}

@[simp] theorem read_pure (a : α) : (pure a : Traced α).read = pure a := rfl

@[simp] theorem read_bind (t : Traced α) (f : α → Traced β) :
    (t >>= f).read = t.read >>= fun a => (f a).read := rfl

@[simp] theorem read_map (g : α → β) (t : Traced α) : (g <$> t).read = g <$> t.read := rfl

@[simp] theorem read_ite (b : Prop) [Decidable b] (t t' : Traced α) :
    (if b then t else t').read = if b then t.read else t'.read :=
  apply_ite read b t t'

@[simp] theorem read_tooDeep : (Steps.tooDeep : Traced α).read = Steps.tooDeep := rfl

@[simp] theorem read_peek : (Steps.peek : Traced Token).read = Steps.peek := rfl

@[simp] theorem read_atEnd : (Steps.atEnd : Traced Bool).read = Steps.atEnd := rfl

@[simp] theorem read_failHere (cause : SyntaxCause) :
    (Steps.failHere cause : Traced α).read = Steps.failHere cause := rfl

@[simp] theorem read_note (cause : SyntaxCause) (token : Token) :
    (Steps.note cause token : Traced Unit).read = Steps.note cause token := rfl

@[simp] theorem read_nextIs (test : Token → Bool) :
    (Steps.nextIs test : Traced Bool).read = Steps.nextIs test := rfl

@[simp] theorem read_takeIf (test : Token → Bool) :
    (Steps.takeIf test : Traced (Option Token)).read = Steps.takeIf test := rfl

@[simp] theorem read_skip : (Steps.skip : Traced Unit).read = Steps.skip := rfl

@[simp] theorem read_reference (name : Token) :
    (Steps.reference name : Traced Reference).read = Steps.reference name := rfl

@[simp] theorem read_recovering (t : Traced α) :
    (Steps.recovering t).read = Steps.recovering t.read := rfl

@[simp] theorem read_attempt (t : Traced α) : (Steps.attempt t).read = Steps.attempt t.read := rfl

open Reading

@[simp] theorem read_accept (test : Token → Bool) :
    (accept test : Traced Bool).read = accept test := rfl

@[simp] theorem read_expect (test : Token → Bool) (what : String) :
    (expect test what : Traced Token).read = expect test what := by
  refine (read_bind _ _).trans (bind_congr fun found => ?_)
  cases found <;> rfl

@[simp] theorem read_expectSymbol (s : Symbol) (what : String) :
    (expectSymbol s what : Traced Token).read = expectSymbol s what :=
  read_expect _ what

@[simp] theorem read_expectName (what : String) :
    (expectName what : Traced Token).read = expectName what :=
  read_expect _ what

@[simp] theorem read_discard (t : Traced α) : (discard t).read = discard t.read := rfl

@[simp] theorem read_commaList (excess : SyntaxCause) (item : Traced α) (fuel count : Nat) :
    (commaList excess item fuel count).read = commaList excess item.read fuel count := by
  induction fuel generalizing count with
  | zero => rfl
  | succ fuel ih => simp [commaList, ih]

@[simp] theorem read_parenthesized (excess : SyntaxCause) (item : Traced α) (fuel : Nat)
    (what : String) :
    (parenthesized excess item fuel what).read = parenthesized excess item.read fuel what := by
  simp [parenthesized]

@[simp] theorem read_primary (expression : Traced Expr) :
    (primary expression).read = primary expression.read := by
  refine (read_bind _ _).trans (bind_congr fun t => ?_)
  split <;> simp
  split <;> simp

@[simp] theorem read_callsFrom (expression : Traced Expr) (fuel : Nat) (callee : Expr) :
    (callsFrom expression fuel callee).read = callsFrom expression.read fuel callee := by
  induction fuel generalizing callee with
  | zero => rfl
  | succ fuel ih => simp [callsFrom, ih]

@[simp] theorem read_call (expression : Traced Expr) (fuel : Nat) :
    (call expression fuel).read = call expression.read fuel := by
  simp [call]

@[simp] theorem read_unary (operand : Traced Expr) (fuel : Nat) :
    (unary operand fuel).read = unary operand.read fuel := by
  induction fuel with
  | zero => rfl
  | succ fuel ih =>
    refine (read_bind _ _).trans (bind_congr fun operator => ?_)
    cases operator <;> simp [ih]

@[simp] theorem read_operatorsFrom (level : OperatorLevel) (operand : Traced Expr) (fuel : Nat)
    (left : Expr) :
    (operatorsFrom level operand fuel left).read = operatorsFrom level operand.read fuel left := by
  induction fuel generalizing left with
  | zero => rfl
  | succ fuel ih =>
    refine (read_bind _ _).trans (bind_congr fun operator => ?_)
    cases operator <;> simp [ih]

@[simp] theorem read_joined (operand : Traced Expr) (fuel : Nat) (levels : List OperatorLevel) :
    (joined operand fuel levels).read = joined operand.read fuel levels := by
  induction levels with
  | nil => rfl
  | cons level tighter ih => simp [joined, ih]

@[simp] theorem read_assignment (expression : Traced Expr) (fuel : Nat) :
    (assignment expression fuel).read = assignment expression.read fuel := by
  simp only [assignment, read_bind, read_joined, read_unary, read_call, read_takeIf]
  refine bind_congr fun target => bind_congr fun equals => ?_
  cases equals with
  | none => rfl
  | some equals =>
    refine (read_bind _ _).trans (bind_congr fun value => ?_)
    cases target <;> simp

@[simp] theorem read_expression (fuel : Nat) :
    (expression fuel : Traced Expr).read = expression fuel := by
  induction fuel with
  | zero => rfl
  | succ fuel ih => simp [expression, ih]

@[simp] theorem read_declarationsFrom (declaration : Traced Stmt) (fuel : Nat) :
    (declarationsFrom declaration fuel).read = declarationsFrom declaration.read fuel := by
  induction fuel with
  | zero => rfl
  | succ fuel ih => simp [declarationsFrom, ih]

@[simp] theorem read_block (declaration : Traced Stmt) (fuel : Nat) :
    (block declaration fuel).read = block declaration.read fuel := by
  simp [block]

@[simp] theorem read_function (declaration : Traced Stmt) (fuel : Nat) (kind : String) :
    (function declaration fuel kind).read = function declaration.read fuel kind := by
  simp [function]

@[simp] theorem read_methodsFrom (declaration : Traced Stmt) (fuel : Nat) :
    (methodsFrom declaration fuel).read = methodsFrom declaration.read fuel := by
  induction fuel with
  | zero => rfl
  | succ fuel ih => simp [methodsFrom, ih]

@[simp] theorem read_classFrom (declaration : Traced Stmt) (fuel : Nat) :
    (classFrom declaration fuel).read = classFrom declaration.read fuel := by
  simp [classFrom]

@[simp] theorem read_variableFrom (fuel : Nat) :
    (variableFrom fuel : Traced Stmt).read = variableFrom fuel := by
  simp [variableFrom]

@[simp] theorem read_expressionStatement (fuel : Nat) :
    (expressionStatement fuel : Traced Stmt).read = expressionStatement fuel := by
  simp [expressionStatement]

@[simp] theorem read_optionalExpression (fuel : Nat) (closing : Symbol) :
    (optionalExpression fuel closing : Traced (Option Expr)).read =
      optionalExpression fuel closing := by
  simp [optionalExpression]

@[simp] theorem read_condition (fuel : Nat) (before after : String) :
    (condition fuel before after : Traced Expr).read = condition fuel before after := by
  simp [condition]

@[simp] theorem read_forInitializer (fuel : Nat) :
    (forInitializer fuel : Traced (Option Stmt)).read = forInitializer fuel := by
  simp [forInitializer]

@[simp] theorem read_forFrom (statement : Traced Stmt) (fuel : Nat) :
    (forFrom statement fuel).read = forFrom statement.read fuel := by
  simp [forFrom]

@[simp] theorem read_ifFrom (statement : Traced Stmt) (fuel : Nat) :
    (ifFrom statement fuel).read = ifFrom statement.read fuel := by
  simp [ifFrom]

@[simp] theorem read_whileFrom (statement : Traced Stmt) (fuel : Nat) :
    (whileFrom statement fuel).read = whileFrom statement.read fuel := by
  simp [whileFrom]

@[simp] theorem read_printFrom (keyword : Token) (fuel : Nat) :
    (printFrom keyword fuel : Traced Stmt).read = printFrom keyword fuel := by
  simp [printFrom]

@[simp] theorem read_returnFrom (keyword : Token) (fuel : Nat) :
    (returnFrom keyword fuel : Traced Stmt).read = returnFrom keyword fuel := by
  simp [returnFrom]

@[simp] theorem read_statementForm (declaration statement : Traced Stmt) (fuel : Nat) :
    (statementForm declaration statement fuel).read =
      statementForm declaration.read statement.read fuel := by
  simp only [statementForm, read_bind, read_ite, read_accept, read_forFrom, read_ifFrom,
    read_whileFrom, read_takeIf]
  refine bind_congr fun _ => ite_congr rfl (fun _ => rfl) fun _ => ?_
  refine bind_congr fun _ => ite_congr rfl (fun _ => rfl) fun _ => ?_
  refine bind_congr fun _ => ite_congr rfl (fun _ => rfl) fun _ => bind_congr fun keyword => ?_
  cases keyword with
  | some keyword => exact read_returnFrom keyword fuel
  | none =>
    simp only [read_bind, read_ite, read_accept, read_block, read_takeIf, read_pure]
    refine bind_congr fun _ => ite_congr rfl (fun _ => rfl) fun _ => bind_congr fun keyword => ?_
    cases keyword <;> simp

@[simp] theorem read_declarationForm (declaration statement : Traced Stmt) (fuel : Nat) :
    (declarationForm declaration statement fuel).read =
      declarationForm declaration.read statement.read fuel := by
  simp [declarationForm]

/-- Statements and declarations nest each other, so that both go down together. -/
theorem read_nested (fuel : Nat) :
    (statement fuel : Traced Stmt).read = statement fuel ∧
      (declaration fuel : Traced Stmt).read = declaration fuel := by
  induction fuel with
  | zero => exact ⟨rfl, rfl⟩
  | succ fuel ih =>
    simp [statement, declaration, ih]

theorem read_declaration (depth : Nat) :
    (declaration depth : Traced Stmt).read = declaration depth :=
  (read_nested depth).2

end Rules
end Traced
end LoxLang
