import Mathlib.Data.List.Forall2
import LoxLang.Proofs.Machine.Scopes

/-!
Trees in which a local variable has another name. Each scope around a point of a program is marked or
not, and in marked scopes a variable of the old name gets the new one: its declaration, by `var` or as a
parameter, and the references whose distance leads to that scope. Everything else stays as it is, so that
a tree in which no scope is marked is only related to itself. `Stmt.Renamed` relates statements before and
after.
-/
namespace LoxLang
set_option autoImplicit false

/-! ## Names -/

/-- A new name for a local variable, and the distances that tell where references are bound. Both are
names that a program can declare. -/
structure Renaming where
  old : String
  new : String
  distances : Distances
  old_free : old ∉ Store.reserved
  new_free : new ∉ Store.reserved

namespace Renaming
variable (ρ : Renaming) {marked : Bool} {x y : String}

/-- What a name of a scope becomes. -/
def name (marked : Bool) (x : String) : String :=
  if marked = true ∧ x = ρ.old then ρ.new else x

/-- In a marked scope nothing has the new name before the renaming. -/
def Avoids (marked : Bool) (x : String) : Prop :=
  marked = true → x ≠ ρ.new

@[simp] theorem name_false (x : String) : ρ.name false x = x :=
  if_neg fun h => Bool.false_ne_true h.1

theorem avoids_false (x : String) : ρ.Avoids false x :=
  fun h => absurd h Bool.false_ne_true

theorem name_of_ne (h : x ≠ ρ.old) (marked : Bool) : ρ.name marked x = x :=
  if_neg fun hmarked => h hmarked.2

/-- A name stays what it is or is the old one, which becomes the new one. -/
theorem name_cases (marked : Bool) (x : String) :
    ρ.name marked x = x ∨ x = ρ.old ∧ ρ.name marked x = ρ.new := by
  unfold name
  split
  · rename_i h
    exact .inr ⟨h.2, rfl⟩
  · exact .inl rfl

/-- Different names stay different. -/
theorem name_inj (hx : ρ.Avoids marked x) (hy : ρ.Avoids marked y) :
    ρ.name marked x = ρ.name marked y ↔ x = y := by
  refine ⟨fun h => ?_, congrArg _⟩
  unfold name at h
  split at h <;> split at h
  · rename_i hold hold'
    exact hold.2.trans hold'.2.symm
  · rename_i hold _
    exact absurd h.symm (hy hold.1)
  · rename_i _ hold
    exact absurd h (hx hold.1)
  · exact h

theorem name_reserved (hx : x ∈ Store.reserved) (marked : Bool) : ρ.name marked x = x :=
  ρ.name_of_ne (fun h => ρ.old_free (h ▸ hx)) marked

theorem avoids_reserved (hx : x ∈ Store.reserved) (marked : Bool) : ρ.Avoids marked x :=
  fun _ h => ρ.new_free (h ▸ hx)

end Renaming

/-! ## Marks -/

/-- Which of some scopes are marked; around a point of a program from the innermost outward, with the
global scope as the last. -/
abbrev Marks := List Bool

namespace Marks

/-- The mark of the innermost scope. -/
def here (marks : Marks) : Bool :=
  marks.headD false

/-- The mark of the scope at a distance. A reference without a distance is global. -/
def at? (marks : Marks) : Option Nat → Bool
  | some distance => marks.getD distance false
  | none => false

/-- No scope is marked. -/
def Clear (marks : Marks) : Prop :=
  ∀ marked ∈ marks, marked = false

theorem Clear.cons {marks : Marks} (h : marks.Clear) : Clear (false :: marks) :=
  List.forall_mem_cons.mpr ⟨rfl, h⟩

theorem Clear.here {marks : Marks} (h : marks.Clear) : marks.here = false := by
  cases marks with
  | nil => rfl
  | cons marked outer => exact h marked List.mem_cons_self

theorem Clear.at? {marks : Marks} (h : marks.Clear) (distance : Option Nat) :
    marks.at? distance = false := by
  cases distance with
  | none => rfl
  | some distance =>
    rw [Marks.at?, List.getD_eq_getElem?_getD]
    cases hmark : marks[distance]? with
    | none => rfl
    | some marked => exact h marked (List.mem_of_getElem? hmark)

end Marks

/-! ## Tokens and references -/

/-- A token that stands for a name of a scope, before and after. -/
structure Token.Renamed (ρ : Renaming) (marked : Bool) (t t' : Token) : Prop where
  eq : t' = { t with lexeme := ρ.name marked t.lexeme }
  avoids : ρ.Avoids marked t.lexeme

namespace Token.Renamed
variable {ρ : Renaming} {marked : Bool} {t t' : Token}

theorem kind (h : t.Renamed ρ marked t') : t'.kind = t.kind := by
  rw [h.eq]

theorem line (h : t.Renamed ρ marked t') : t'.line = t.line := by
  rw [h.eq]

theorem lexeme (h : t.Renamed ρ marked t') : t'.lexeme = ρ.name marked t.lexeme :=
  congrArg Token.lexeme h.eq

theorem self (ρ : Renaming) (t : Token) : t.Renamed ρ false t :=
  ⟨by rw [ρ.name_false], ρ.avoids_false _⟩

end Token.Renamed

/-- A reference, and the same one with the name that the scope at its distance has for it. -/
structure Reference.Renamed (ρ : Renaming) (marks : Marks) (r r' : Reference) : Prop where
  id : r'.id = r.id
  name : r.name.Renamed ρ (marks.at? (ρ.distances.get? r)) r'.name

/-! ## Trees -/

inductive Expr.Renamed (ρ : Renaming) (marks : Marks) : Expr → Expr → Prop
  | literal (value : Literal) : Renamed ρ marks (.literal value) (.literal value)
  | unary (operator : Token) {operand operand' : Expr} : Renamed ρ marks operand operand' →
    Renamed ρ marks (.unary operator operand) (.unary operator operand')
  | binary {left left' right right' : Expr} (operator : Token) : Renamed ρ marks left left' →
    Renamed ρ marks right right' →
    Renamed ρ marks (.binary left operator right) (.binary left' operator right')
  | logical {left left' right right' : Expr} (operator : Token) : Renamed ρ marks left left' →
    Renamed ρ marks right right' →
    Renamed ρ marks (.logical left operator right) (.logical left' operator right')
  | grouping {inner inner' : Expr} : Renamed ρ marks inner inner' →
    Renamed ρ marks (.grouping inner) (.grouping inner')
  | variable {target target' : Reference} : target.Renamed ρ marks target' →
    Renamed ρ marks (.variable target) (.variable target')
  | assign {target target' : Reference} {value value' : Expr} : target.Renamed ρ marks target' →
    Renamed ρ marks value value' → Renamed ρ marks (.assign target value) (.assign target' value')
  | call {callee callee' : Expr} (paren : Token) {arguments arguments' : List Expr} :
    Renamed ρ marks callee callee' → List.Forall₂ (Renamed ρ marks) arguments arguments' →
    Renamed ρ marks (.call callee paren arguments) (.call callee' paren arguments')
  | get {object object' : Expr} (name : Token) : Renamed ρ marks object object' →
    Renamed ρ marks (.get object name) (.get object' name)
  | set {object object' value value' : Expr} (name : Token) : Renamed ρ marks object object' →
    Renamed ρ marks value value' →
    Renamed ρ marks (.set object name value) (.set object' name value')
  | thisObject {keyword : Reference} : keyword.Renamed ρ marks keyword →
    Renamed ρ marks (.thisObject keyword) (.thisObject keyword)
  | superMethod {keyword : Reference} (method : Token) : keyword.Renamed ρ marks keyword →
    Renamed ρ marks (.superMethod keyword method) (.superMethod keyword method)

/-- The marks around the methods of a class: with a superclass there is a scope for `super`. -/
def Marks.ofClass {α : Type} (superclass : Option α) (marks : Marks) : Marks :=
  match superclass with
  | none => marks
  | some _ => false :: marks

mutual

/-- A statement before and after. Blocks, functions and methods have scopes that may be marked; a marked
scope declares no function and no class of the old name. -/
inductive Stmt.Renamed (ρ : Renaming) : Marks → Stmt → Stmt → Prop
  | expression {marks : Marks} {value value' : Expr} : value.Renamed ρ marks value' →
    Stmt.Renamed ρ marks (.expression value) (.expression value')
  | print {marks : Marks} (keyword : Token) {value value' : Expr} : value.Renamed ρ marks value' →
    Stmt.Renamed ρ marks (.print keyword value) (.print keyword value')
  | variable {marks : Marks} {name name' : Token} {initializer initializer' : Option Expr} :
    name.Renamed ρ marks.here name' → Option.Rel (Expr.Renamed ρ marks) initializer initializer' →
    Stmt.Renamed ρ marks (.variable name initializer) (.variable name' initializer')
  | block {marks : Marks} (marked : Bool) {body body' : List Stmt} :
    Stmt.RenamedAll ρ (marked :: marks) body body' → Stmt.Renamed ρ marks (.block body) (.block body')
  | conditional {marks : Marks} {condition condition' : Expr} {thenBranch thenBranch' : Stmt} :
    condition.Renamed ρ marks condition' → Stmt.Renamed ρ marks thenBranch thenBranch' →
    Stmt.Renamed ρ marks (.conditional condition thenBranch none)
      (.conditional condition' thenBranch' none)
  | alternative {marks : Marks} {condition condition' : Expr}
    {thenBranch thenBranch' elseBranch elseBranch' : Stmt} : condition.Renamed ρ marks condition' →
    Stmt.Renamed ρ marks thenBranch thenBranch' → Stmt.Renamed ρ marks elseBranch elseBranch' →
    Stmt.Renamed ρ marks (.conditional condition thenBranch (some elseBranch))
      (.conditional condition' thenBranch' (some elseBranch'))
  | loop {marks : Marks} {condition condition' : Expr} {body body' : Stmt} :
    condition.Renamed ρ marks condition' → Stmt.Renamed ρ marks body body' →
    Stmt.Renamed ρ marks (.loop condition body) (.loop condition' body')
  | function {marks : Marks} {declaration declaration' : FunctionDeclaration} :
    declaration.name.Renamed ρ marks.here declaration.name →
    FunctionDeclaration.Renamed ρ marks declaration declaration' →
    Stmt.Renamed ρ marks (.function declaration) (.function declaration')
  | returnWith {marks : Marks} (keyword : Token) {value value' : Option Expr} :
    Option.Rel (Expr.Renamed ρ marks) value value' →
    Stmt.Renamed ρ marks (.returnWith keyword value) (.returnWith keyword value')
  | classDeclaration {marks : Marks} {name : Token} {superclass superclass' : Option Expr}
    {methods methods' : List FunctionDeclaration} : name.Renamed ρ marks.here name →
    Option.Rel (Expr.Renamed ρ marks) superclass superclass' →
    FunctionDeclaration.RenamedAll ρ (false :: marks.ofClass superclass) methods methods' →
    Stmt.Renamed ρ marks (.classDeclaration name superclass methods)
      (.classDeclaration name superclass' methods')

inductive Stmt.RenamedAll (ρ : Renaming) : Marks → List Stmt → List Stmt → Prop
  | nil {marks : Marks} : Stmt.RenamedAll ρ marks [] []
  | cons {marks : Marks} {s s' : Stmt} {rest rest' : List Stmt} : Stmt.Renamed ρ marks s s' →
    Stmt.RenamedAll ρ marks rest rest' → Stmt.RenamedAll ρ marks (s :: rest) (s' :: rest')

/-- A function or method before and after; its parameters and its body share one scope. -/
inductive FunctionDeclaration.Renamed (ρ : Renaming) :
    Marks → FunctionDeclaration → FunctionDeclaration → Prop
  | intro {marks : Marks} (marked : Bool) (name : Token) {params params' : List Token}
    {body body' : List Stmt} : List.Forall₂ (Token.Renamed ρ marked) params params' →
    Stmt.RenamedAll ρ (marked :: marks) body body' →
    FunctionDeclaration.Renamed ρ marks ⟨name, params, body⟩ ⟨name, params', body'⟩

inductive FunctionDeclaration.RenamedAll (ρ : Renaming) :
    Marks → List FunctionDeclaration → List FunctionDeclaration → Prop
  | nil {marks : Marks} : FunctionDeclaration.RenamedAll ρ marks [] []
  | cons {marks : Marks} {d d' : FunctionDeclaration} {rest rest' : List FunctionDeclaration} :
    FunctionDeclaration.Renamed ρ marks d d' → FunctionDeclaration.RenamedAll ρ marks rest rest' →
    FunctionDeclaration.RenamedAll ρ marks (d :: rest) (d' :: rest')

end

theorem FunctionDeclaration.Renamed.name {ρ : Renaming} {marks : Marks} {d d' : FunctionDeclaration}
    (h : d.Renamed ρ marks d') : d'.name = d.name := by
  cases h with
  | intro => rfl

theorem FunctionDeclaration.Renamed.arity {ρ : Renaming} {marks : Marks}
    {d d' : FunctionDeclaration} (h : d.Renamed ρ marks d') :
    d'.params.length = d.params.length := by
  cases h with
  | intro _ _ hparams _ => exact hparams.length_eq.symm

theorem FunctionDeclaration.RenamedAll.forall₂ {ρ : Renaming} {marks : Marks}
    {methods methods' : List FunctionDeclaration}
    (h : FunctionDeclaration.RenamedAll ρ marks methods methods') :
    List.Forall₂ (FunctionDeclaration.Renamed ρ marks) methods methods' := by
  induction methods generalizing methods' with
  | nil =>
    cases h
    exact .nil
  | cons d rest ih =>
    cases h with
    | cons hd hrest => exact .cons hd (ih hrest)

/-! ## Where nothing is renamed -/

section Clear
variable (ρ : Renaming) {marks : Marks}

theorem Token.renamed_self (h : marks.Clear) (t : Token) : t.Renamed ρ marks.here t := by
  rw [h.here]
  exact .self ρ t

theorem Reference.renamed_self (h : marks.Clear) (r : Reference) : r.Renamed ρ marks r := by
  refine ⟨rfl, ?_⟩
  rw [h.at?]
  exact .self ρ r.name

mutual

/-- Where no scope is marked, an expression stays as it is. -/
theorem Expr.renamed_self (h : marks.Clear) (e : Expr) : e.Renamed ρ marks e := by
  cases e with
  | literal value => exact .literal value
  | unary operator operand => exact .unary operator (operand.renamed_self h)
  | binary left operator right =>
    exact .binary operator (left.renamed_self h) (right.renamed_self h)
  | logical left operator right =>
    exact .logical operator (left.renamed_self h) (right.renamed_self h)
  | grouping inner => exact .grouping (inner.renamed_self h)
  | «variable» target => exact .variable (target.renamed_self ρ h)
  | assign target value => exact .assign (target.renamed_self ρ h) (value.renamed_self h)
  | call callee paren arguments =>
    exact .call paren (callee.renamed_self h) (Expr.renamedAll_self h arguments)
  | get object name => exact .get name (object.renamed_self h)
  | set object name value => exact .set name (object.renamed_self h) (value.renamed_self h)
  | thisObject keyword => exact .thisObject (keyword.renamed_self ρ h)
  | superMethod keyword method => exact .superMethod method (keyword.renamed_self ρ h)

theorem Expr.renamedAll_self (h : marks.Clear) (es : List Expr) :
    List.Forall₂ (Expr.Renamed ρ marks) es es := by
  cases es with
  | nil => exact .nil
  | cons e rest => exact .cons (e.renamed_self h) (Expr.renamedAll_self h rest)

end

theorem Expr.renamedOption_self (h : marks.Clear) (e : Option Expr) :
    Option.Rel (Expr.Renamed ρ marks) e e := by
  cases e with
  | none => exact .none
  | some e => exact .some (e.renamed_self ρ h)

mutual

theorem Stmt.renamed_self {marks : Marks} (h : marks.Clear) (s : Stmt) : s.Renamed ρ marks s := by
  cases s with
  | expression value => exact .expression (value.renamed_self ρ h)
  | print keyword value => exact .print keyword (value.renamed_self ρ h)
  | «variable» name initializer =>
    exact .variable (name.renamed_self ρ h) (Expr.renamedOption_self ρ h initializer)
  | block body => exact .block false (Stmt.renamedAll_self h.cons body)
  | conditional condition thenBranch elseBranch =>
    cases elseBranch with
    | none => exact .conditional (condition.renamed_self ρ h) (thenBranch.renamed_self h)
    | some elseBranch =>
      exact .alternative (condition.renamed_self ρ h) (thenBranch.renamed_self h)
        (elseBranch.renamed_self h)
  | loop condition body => exact .loop (condition.renamed_self ρ h) (body.renamed_self h)
  | function declaration =>
    exact .function (declaration.name.renamed_self ρ h) (declaration.renamed_self h)
  | returnWith keyword value => exact .returnWith keyword (Expr.renamedOption_self ρ h value)
  | classDeclaration name superclass methods =>
    have hname := name.renamed_self ρ h
    cases superclass with
    | none => exact .classDeclaration hname .none (FunctionDeclaration.renamedAll_self h.cons methods)
    | some parent =>
      exact .classDeclaration hname (.some (parent.renamed_self ρ h))
        (FunctionDeclaration.renamedAll_self h.cons.cons methods)

theorem Stmt.renamedAll_self {marks : Marks} (h : marks.Clear) (body : List Stmt) :
    Stmt.RenamedAll ρ marks body body := by
  cases body with
  | nil => exact .nil
  | cons s rest => exact .cons (s.renamed_self h) (Stmt.renamedAll_self h rest)

theorem FunctionDeclaration.renamed_self {marks : Marks} (h : marks.Clear)
    (d : FunctionDeclaration) : d.Renamed ρ marks d := by
  obtain ⟨name, params, body⟩ := d
  exact .intro false name (List.forall₂_same.mpr fun t _ => .self ρ t)
    (Stmt.renamedAll_self h.cons body)

theorem FunctionDeclaration.renamedAll_self {marks : Marks} (h : marks.Clear)
    (methods : List FunctionDeclaration) : FunctionDeclaration.RenamedAll ρ marks methods methods := by
  cases methods with
  | nil => exact .nil
  | cons d rest => exact .cons (d.renamed_self h) (FunctionDeclaration.renamedAll_self h rest)

end

end Clear

end LoxLang
