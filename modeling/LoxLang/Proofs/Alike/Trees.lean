import Mathlib.Data.List.Forall2
import LoxLang.Syntax.Basic

/-!
Trees that are taken for each other. A `Likeness` relates tokens that agree in kind and text, whatever
their lines, and pairs identities of references one to one; trees are alike when they have the same
shape and what stands at the same places is related. Nothing that a program does depends on more
than that.
-/
namespace LoxLang
set_option autoImplicit false

/-- Which tokens and which identities are taken for each other. -/
structure Likeness where
  token : Token → Token → Prop
  number : Nat → Nat → Prop
  kind : ∀ {t u}, token t u → u.kind = t.kind
  lexeme : ∀ {t u}, token t u → u.lexeme = t.lexeme
  unique : ∀ {i j i' j'}, number i j → number i' j' → (i = i' ↔ j = j')

namespace Likeness

/-- What is related by one likeness is related by another. -/
structure Le (L L' : Likeness) : Prop where
  token : ∀ {t u}, L.token t u → L'.token t u
  number : ∀ {i j}, L.number i j → L'.number i j

/-- Admitted tokens are taken for themselves only, and identities as `number` pairs them. -/
def same (admits : Token → Prop) (number : Nat → Nat → Prop)
    (unique : ∀ {i j i' j'}, number i j → number i' j' → (i = i' ↔ j = j')) : Likeness where
  token t u := admits t ∧ u = t
  number := number
  kind := by
    rintro t u ⟨-, rfl⟩
    rfl
  lexeme := by
    rintro t u ⟨-, rfl⟩
    rfl
  unique := unique

theorem unique_of_eq {i j i' j' : Nat} (h : i = j) (h' : i' = j') : i = i' ↔ j = j' := by
  rw [h, h']

/-- Everything is taken for itself only. -/
def identity : Likeness :=
  same (fun _ => True) Eq @unique_of_eq

/-- Every token and the identities in a range are taken for themselves. -/
def between (lo hi : Nat) : Likeness :=
  same (fun _ => True) (fun i j => lo ≤ i ∧ i < hi ∧ j = i) (by
    rintro i j i' j' ⟨-, -, rfl⟩ ⟨-, -, rfl⟩
    rfl)

theorem between_le {lo hi lo' hi' : Nat} (hlo : lo' ≤ lo) (hhi : hi ≤ hi') :
    (between lo hi).Le (between lo' hi') :=
  ⟨id, fun hij => ⟨Nat.le_trans hlo hij.1, Nat.lt_of_lt_of_le hij.2.1 hhi, hij.2.2⟩⟩

theorem between_le_identity (lo hi : Nat) : (between lo hi).Le identity :=
  ⟨id, fun hij => hij.2.2.symm⟩

end Likeness

/-! ## Trees -/

/-- References with related names and identities. -/
structure Reference.Alike (L : Likeness) (r r' : Reference) : Prop where
  number : L.number r.id r'.id
  name : L.token r.name r'.name

inductive Expr.Alike (L : Likeness) : Expr → Expr → Prop
  | literal (value : Literal) : Alike L (.literal value) (.literal value)
  | unary {operator operator' : Token} {operand operand' : Expr} : L.token operator operator' →
    Alike L operand operand' → Alike L (.unary operator operand) (.unary operator' operand')
  | binary {left left' right right' : Expr} {operator operator' : Token} : Alike L left left' →
    L.token operator operator' → Alike L right right' →
    Alike L (.binary left operator right) (.binary left' operator' right')
  | logical {left left' right right' : Expr} {operator operator' : Token} : Alike L left left' →
    L.token operator operator' → Alike L right right' →
    Alike L (.logical left operator right) (.logical left' operator' right')
  | grouping {inner inner' : Expr} : Alike L inner inner' →
    Alike L (.grouping inner) (.grouping inner')
  | variable {target target' : Reference} : target.Alike L target' →
    Alike L (.variable target) (.variable target')
  | assign {target target' : Reference} {value value' : Expr} : target.Alike L target' →
    Alike L value value' → Alike L (.assign target value) (.assign target' value')
  | call {callee callee' : Expr} {paren paren' : Token} {arguments arguments' : List Expr} :
    Alike L callee callee' → L.token paren paren' → List.Forall₂ (Alike L) arguments arguments' →
    Alike L (.call callee paren arguments) (.call callee' paren' arguments')
  | get {object object' : Expr} {name name' : Token} : Alike L object object' →
    L.token name name' → Alike L (.get object name) (.get object' name')
  | set {object object' value value' : Expr} {name name' : Token} : Alike L object object' →
    L.token name name' → Alike L value value' →
    Alike L (.set object name value) (.set object' name' value')
  | thisObject {keyword keyword' : Reference} : keyword.Alike L keyword' →
    Alike L (.thisObject keyword) (.thisObject keyword')
  | superMethod {keyword keyword' : Reference} {method method' : Token} :
    keyword.Alike L keyword' → L.token method method' →
    Alike L (.superMethod keyword method) (.superMethod keyword' method')

mutual

inductive Stmt.Alike (L : Likeness) : Stmt → Stmt → Prop
  | expression {value value' : Expr} : value.Alike L value' →
    Stmt.Alike L (.expression value) (.expression value')
  | print {keyword keyword' : Token} {value value' : Expr} : L.token keyword keyword' →
    value.Alike L value' → Stmt.Alike L (.print keyword value) (.print keyword' value')
  | variable {name name' : Token} {initializer initializer' : Option Expr} : L.token name name' →
    Option.Rel (Expr.Alike L) initializer initializer' →
    Stmt.Alike L (.variable name initializer) (.variable name' initializer')
  | block {body body' : List Stmt} : List.Forall₂ (Stmt.Alike L) body body' →
    Stmt.Alike L (.block body) (.block body')
  | conditional {condition condition' : Expr} {thenBranch thenBranch' : Stmt}
    {elseBranch elseBranch' : Option Stmt} : condition.Alike L condition' →
    Stmt.Alike L thenBranch thenBranch' → Option.Rel (Stmt.Alike L) elseBranch elseBranch' →
    Stmt.Alike L (.conditional condition thenBranch elseBranch)
      (.conditional condition' thenBranch' elseBranch')
  | loop {condition condition' : Expr} {body body' : Stmt} : condition.Alike L condition' →
    Stmt.Alike L body body' → Stmt.Alike L (.loop condition body) (.loop condition' body')
  | function {declaration declaration' : FunctionDeclaration} :
    FunctionDeclaration.Alike L declaration declaration' →
    Stmt.Alike L (.function declaration) (.function declaration')
  | returnWith {keyword keyword' : Token} {value value' : Option Expr} :
    L.token keyword keyword' → Option.Rel (Expr.Alike L) value value' →
    Stmt.Alike L (.returnWith keyword value) (.returnWith keyword' value')
  | classDeclaration {name name' : Token} {superclass superclass' : Option Expr}
    {methods methods' : List FunctionDeclaration} : L.token name name' →
    Option.Rel (Expr.Alike L) superclass superclass' →
    List.Forall₂ (FunctionDeclaration.Alike L) methods methods' →
    Stmt.Alike L (.classDeclaration name superclass methods)
      (.classDeclaration name' superclass' methods')

inductive FunctionDeclaration.Alike (L : Likeness) :
    FunctionDeclaration → FunctionDeclaration → Prop
  | intro {name name' : Token} {params params' : List Token} {body body' : List Stmt} :
    L.token name name' → List.Forall₂ L.token params params' →
    List.Forall₂ (Stmt.Alike L) body body' →
    FunctionDeclaration.Alike L ⟨name, params, body⟩ ⟨name', params', body'⟩

end

/-! ## Another likeness -/

section Weaken
variable {L L' : Likeness}

/-- The identities of some references are paired by another likeness as well. -/
def Likeness.Keeps (L L' : Likeness) (references : List Reference) : Prop :=
  ∀ r ∈ references, ∀ j, L.number r.id j → L'.number r.id j

theorem Likeness.Le.keeps (hle : L.Le L') (references : List Reference) : L.Keeps L' references :=
  fun _ _ _ => hle.number

theorem Likeness.Keeps.left {first second : List Reference} (h : L.Keeps L' (first ++ second)) :
    L.Keeps L' first :=
  fun r hr => h r (List.mem_append_left second hr)

theorem Likeness.Keeps.right {first second : List Reference} (h : L.Keeps L' (first ++ second)) :
    L.Keeps L' second :=
  fun r hr => h r (List.mem_append_right first hr)

theorem Reference.Alike.weaken {r r' : Reference} {references : List Reference}
    (htoken : ∀ {t u}, L.token t u → L'.token t u) (hnumber : L.Keeps L' references)
    (hr : r ∈ references) (h : r.Alike L r') : r.Alike L' r' :=
  ⟨hnumber r hr r'.id h.number, htoken h.name⟩

mutual

/-- Trees stay alike where another likeness relates the same tokens and the identities in them. -/
theorem Expr.Alike.weaken {e e' : Expr} (htoken : ∀ {t u}, L.token t u → L'.token t u)
    (hnumber : L.Keeps L' e.references) (h : e.Alike L e') : e.Alike L' e' :=
  match h with
  | .literal value => .literal value
  | .unary hoperator hoperand => .unary (htoken hoperator) (hoperand.weaken htoken hnumber)
  | .binary hleft hoperator hright =>
    .binary (hleft.weaken htoken hnumber.left) (htoken hoperator)
      (hright.weaken htoken hnumber.right)
  | .logical hleft hoperator hright =>
    .logical (hleft.weaken htoken hnumber.left) (htoken hoperator)
      (hright.weaken htoken hnumber.right)
  | .grouping hinner => .grouping (hinner.weaken htoken hnumber)
  | .variable htarget => .variable (htarget.weaken htoken hnumber List.mem_cons_self)
  | .assign htarget hvalue =>
    .assign (htarget.weaken htoken hnumber List.mem_cons_self)
      (hvalue.weaken htoken fun r hr => hnumber r (List.mem_cons_of_mem _ hr))
  | .call hcallee hparen harguments =>
    .call (hcallee.weaken htoken hnumber.left) (htoken hparen)
      (Expr.Alike.weakenAll htoken hnumber.right harguments)
  | .get hobject hname => .get (hobject.weaken htoken hnumber) (htoken hname)
  | .set hobject hname hvalue =>
    .set (hobject.weaken htoken hnumber.left) (htoken hname) (hvalue.weaken htoken hnumber.right)
  | .thisObject hkeyword => .thisObject (hkeyword.weaken htoken hnumber List.mem_cons_self)
  | .superMethod hkeyword hmethod =>
    .superMethod (hkeyword.weaken htoken hnumber List.mem_cons_self) (htoken hmethod)

theorem Expr.Alike.weakenAll {es es' : List Expr} (htoken : ∀ {t u}, L.token t u → L'.token t u)
    (hnumber : L.Keeps L' (Expr.referencesAll es)) (h : List.Forall₂ (Expr.Alike L) es es') :
    List.Forall₂ (Expr.Alike L') es es' :=
  match h with
  | .nil => .nil
  | .cons he hrest =>
    .cons (he.weaken htoken hnumber.left) (Expr.Alike.weakenAll htoken hnumber.right hrest)

end

theorem Expr.Alike.weakenOption {e e' : Option Expr} (htoken : ∀ {t u}, L.token t u → L'.token t u)
    (hnumber : L.Keeps L' (Expr.referencesOption e)) (h : Option.Rel (Expr.Alike L) e e') :
    Option.Rel (Expr.Alike L') e e' := by
  cases h with
  | none => exact .none
  | some he => exact .some (he.weaken htoken hnumber)

mutual

theorem Stmt.Alike.weaken {s s' : Stmt} (htoken : ∀ {t u}, L.token t u → L'.token t u)
    (hnumber : L.Keeps L' s.references) (h : s.Alike L s') : s.Alike L' s' :=
  match h with
  | .expression hvalue => .expression (hvalue.weaken htoken hnumber)
  | .print hkeyword hvalue => .print (htoken hkeyword) (hvalue.weaken htoken hnumber)
  | .variable hname hinitializer =>
    .variable (htoken hname) (Expr.Alike.weakenOption htoken hnumber hinitializer)
  | .block hbody => .block (Stmt.Alike.weakenAll htoken hnumber hbody)
  | .conditional hcondition hthen .none =>
    .conditional (hcondition.weaken htoken hnumber.left) (hthen.weaken htoken hnumber.right) .none
  | .conditional hcondition hthen (.some helse) =>
    .conditional (hcondition.weaken htoken hnumber.left.left)
      (hthen.weaken htoken hnumber.left.right) (.some (helse.weaken htoken hnumber.right))
  | .loop hcondition hbody =>
    .loop (hcondition.weaken htoken hnumber.left) (hbody.weaken htoken hnumber.right)
  | .function hdeclaration => .function (hdeclaration.weaken htoken hnumber)
  | .returnWith hkeyword hvalue =>
    .returnWith (htoken hkeyword) (Expr.Alike.weakenOption htoken hnumber hvalue)
  | .classDeclaration hname hsuperclass hmethods =>
    .classDeclaration (htoken hname) (Expr.Alike.weakenOption htoken hnumber.left hsuperclass)
      (FunctionDeclaration.Alike.weakenAll htoken hnumber.right hmethods)

theorem Stmt.Alike.weakenAll {body body' : List Stmt}
    (htoken : ∀ {t u}, L.token t u → L'.token t u)
    (hnumber : L.Keeps L' (Stmt.referencesAll body)) (h : List.Forall₂ (Stmt.Alike L) body body') :
    List.Forall₂ (Stmt.Alike L') body body' :=
  match h with
  | .nil => .nil
  | .cons hs hrest =>
    .cons (hs.weaken htoken hnumber.left) (Stmt.Alike.weakenAll htoken hnumber.right hrest)

theorem FunctionDeclaration.Alike.weaken {d d' : FunctionDeclaration}
    (htoken : ∀ {t u}, L.token t u → L'.token t u) (hnumber : L.Keeps L' d.references)
    (h : d.Alike L d') : d.Alike L' d' :=
  match h with
  | .intro hname hparams hbody =>
    .intro (htoken hname) (hparams.imp fun _ _ => htoken)
      (Stmt.Alike.weakenAll htoken hnumber hbody)

theorem FunctionDeclaration.Alike.weakenAll {methods methods' : List FunctionDeclaration}
    (htoken : ∀ {t u}, L.token t u → L'.token t u)
    (hnumber : L.Keeps L' (FunctionDeclaration.referencesAll methods))
    (h : List.Forall₂ (FunctionDeclaration.Alike L) methods methods') :
    List.Forall₂ (FunctionDeclaration.Alike L') methods methods' :=
  match h with
  | .nil => .nil
  | .cons hd hrest =>
    .cons (hd.weaken htoken hnumber.left)
      (FunctionDeclaration.Alike.weakenAll htoken hnumber.right hrest)

end

theorem Stmt.Alike.monoAll {body body' : List Stmt} (hle : L.Le L')
    (h : List.Forall₂ (Stmt.Alike L) body body') : List.Forall₂ (Stmt.Alike L') body body' :=
  Stmt.Alike.weakenAll hle.token (hle.keeps _) h

theorem FunctionDeclaration.Alike.mono {d d' : FunctionDeclaration} (hle : L.Le L')
    (h : d.Alike L d') : d.Alike L' d' :=
  h.weaken hle.token (hle.keeps _)

end Weaken

end LoxLang
