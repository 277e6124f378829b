import LoxLang.Syntax.Expression

/-!
What every tree read from tokens is like. `WellFormed` says where which tokens stand: operators and
names are of the kinds that the grammar has there, and what a condition or a loop governs is no
declaration. `Fresh lo hi` says of the identities of a tree that they are pairwise different and lie
between two bounds.
-/
namespace LoxLang
set_option autoImplicit false

/-! ## Identities -/

/-- Pairwise different identities from `lo` on and below `hi`. -/
def Fresh (lo hi : Nat) (ids : List Nat) : Prop :=
  ids.Nodup ∧ ∀ id ∈ ids, lo ≤ id ∧ id < hi

namespace Fresh
variable {lo mid hi : Nat} {ids first second : List Nat}

theorem nil (lo hi : Nat) : Fresh lo hi [] :=
  ⟨List.nodup_nil, nofun⟩

theorem single (lo : Nat) : Fresh lo (lo + 1) [lo] :=
  ⟨List.pairwise_singleton _ lo, by simp⟩

theorem mono {lo' hi' : Nat} (h : Fresh lo hi ids) (hlo : lo' ≤ lo) (hhi : hi ≤ hi') :
    Fresh lo' hi' ids := by
  refine ⟨h.1, fun id hid => ?_⟩
  have hb := h.2 id hid
  omega

theorem perm (h : Fresh lo hi first) (hp : first.Perm second) : Fresh lo hi second :=
  ⟨hp.nodup_iff.mp h.1, fun id hid => h.2 id (hp.mem_iff.mpr hid)⟩

theorem sublist (h : Fresh lo hi first) (hs : second.Sublist first) : Fresh lo hi second :=
  ⟨h.1.sublist hs, fun id hid => h.2 id (hs.subset hid)⟩

/-- Identities of which the first are given before the second. -/
theorem append (h1 : Fresh lo mid first) (h2 : Fresh mid hi second) (hlo : lo ≤ mid)
    (hhi : mid ≤ hi) : Fresh lo hi (first ++ second) := by
  have hapart : ∀ a ∈ first, ∀ b ∈ second, a ≠ b := by
    intro a ha b hb
    have := h1.2 a ha
    have := h2.2 b hb
    omega
  refine ⟨List.nodup_append.mpr ⟨h1.1, h2.1, hapart⟩, fun id hid => ?_⟩
  rcases List.mem_append.mp hid with hid | hid
  · have := h1.2 id hid
    omega
  · have := h2.2 id hid
    omega

end Fresh

/-- The identities of references. -/
def referenceIds (references : List Reference) : List Nat :=
  references.map Reference.id

@[simp] theorem referenceIds_nil : referenceIds [] = [] := rfl

@[simp] theorem referenceIds_cons (r : Reference) (references : List Reference) :
    referenceIds (r :: references) = r.id :: referenceIds references := rfl

@[simp] theorem referenceIds_append (first second : List Reference) :
    referenceIds (first ++ second) = referenceIds first ++ referenceIds second :=
  List.map_append

/-! ## Well-formed trees -/

/-- An admitted identifier. -/
def Token.IsName (admits : Token → Prop) (t : Token) : Prop :=
  admits t ∧ t.kind.same .identifier = true

/-- An admitted reserved word. -/
def Token.IsWord (admits : Token → Prop) (word : Keyword) (t : Token) : Prop :=
  admits t ∧ t.isKeyword word = true

/-- The symbols that stand between two operands. -/
def Symbol.binary : List Symbol :=
  [.bangEqual, .equalEqual, .greater, .greaterEqual, .less, .lessEqual, .minus, .plus, .star,
    .slash]

mutual

/-- The tokens of an expression are of the right kinds. -/
def Expr.WellFormed (admits : Token → Prop) : Expr → Prop
  | .literal _ => True
  | .unary operator operand =>
    (operator.isSymbol .bang = true ∨ operator.isSymbol .minus = true) ∧ operand.WellFormed admits
  | .binary left operator right =>
    (∃ s ∈ Symbol.binary, operator.isSymbol s = true) ∧ left.WellFormed admits ∧
      right.WellFormed admits
  | .logical left operator right =>
    (operator.isKeyword .orWord = true ∨ operator.isKeyword .andWord = true) ∧
      left.WellFormed admits ∧ right.WellFormed admits
  | .grouping inner => inner.WellFormed admits
  | .variable target => target.name.IsName admits
  | .assign target value => target.name.IsName admits ∧ value.WellFormed admits
  | .call callee _ arguments =>
    callee.WellFormed admits ∧ Expr.AllWellFormed admits arguments
  | .get object name => object.WellFormed admits ∧ name.IsName admits
  | .set object name value =>
    object.WellFormed admits ∧ name.IsName admits ∧ value.WellFormed admits
  | .thisObject keyword => keyword.name.IsWord admits .thisWord
  | .superMethod keyword method => keyword.name.IsWord admits .superWord ∧ method.IsName admits

def Expr.AllWellFormed (admits : Token → Prop) : List Expr → Prop
  | [] => True
  | e :: rest => e.WellFormed admits ∧ Expr.AllWellFormed admits rest

end

def Expr.OptionWellFormed (admits : Token → Prop) : Option Expr → Prop
  | none => True
  | some e => e.WellFormed admits

/-- The expression is a variable, as the superclass of a class is. -/
def Expr.IsVariable (admits : Token → Prop) (e : Expr) : Prop :=
  ∃ target, e = .variable target ∧ target.name.IsName admits

theorem Expr.IsVariable.wellFormed {admits : Token → Prop} {e : Expr} (h : e.IsVariable admits) :
    e.WellFormed admits := by
  obtain ⟨target, rfl, hname⟩ := h
  exact hname

theorem Expr.optionWellFormed_of_isVariable {admits : Token → Prop} {e : Option Expr}
    (h : ∀ x ∈ e, x.IsVariable admits) : Expr.OptionWellFormed admits e := by
  cases e with
  | none => trivial
  | some e => exact (h e rfl).wellFormed

/-- Whether a statement declares a name. -/
def Stmt.isDeclaration : Stmt → Bool
  | .variable _ _ => true
  | .function _ => true
  | .classDeclaration _ _ _ => true
  | _ => false

mutual

/-- The tokens of a statement are of the right kinds, and declarations stand where a scope holds
them. -/
def Stmt.WellFormed (admits : Token → Prop) : Stmt → Prop
  | .expression value => value.WellFormed admits
  | .print _ value => value.WellFormed admits
  | .variable name initializer =>
    name.IsName admits ∧ Expr.OptionWellFormed admits initializer
  | .block body => Stmt.AllWellFormed admits body
  | .conditional condition thenBranch none =>
    condition.WellFormed admits ∧ thenBranch.isDeclaration = false ∧ thenBranch.WellFormed admits
  | .conditional condition thenBranch (some elseBranch) =>
    condition.WellFormed admits ∧ (thenBranch.isDeclaration = false ∧
      thenBranch.WellFormed admits) ∧ elseBranch.isDeclaration = false ∧
      elseBranch.WellFormed admits
  | .loop condition body =>
    condition.WellFormed admits ∧ body.isDeclaration = false ∧ body.WellFormed admits
  | .function declaration => declaration.WellFormed admits
  | .returnWith _ value => Expr.OptionWellFormed admits value
  | .classDeclaration name superclass methods =>
    name.IsName admits ∧ (∀ parent ∈ superclass, parent.IsVariable admits) ∧
      FunctionDeclaration.AllWellFormed admits methods

def Stmt.AllWellFormed (admits : Token → Prop) : List Stmt → Prop
  | [] => True
  | s :: rest => s.WellFormed admits ∧ Stmt.AllWellFormed admits rest

def FunctionDeclaration.WellFormed (admits : Token → Prop) : FunctionDeclaration → Prop
  | ⟨name, params, body⟩ =>
    name.IsName admits ∧ (∀ param ∈ params, param.IsName admits) ∧ Stmt.AllWellFormed admits body

def FunctionDeclaration.AllWellFormed (admits : Token → Prop) : List FunctionDeclaration → Prop
  | [] => True
  | d :: rest => d.WellFormed admits ∧ FunctionDeclaration.AllWellFormed admits rest

end

theorem Stmt.allWellFormed_append {admits : Token → Prop} {first second : List Stmt}
    (h1 : Stmt.AllWellFormed admits first) (h2 : Stmt.AllWellFormed admits second) :
    Stmt.AllWellFormed admits (first ++ second) := by
  induction first with
  | nil => exact h2
  | cons s rest ih => exact ⟨h1.1, ih h1.2⟩

theorem Stmt.referencesAll_append (first second : List Stmt) :
    Stmt.referencesAll (first ++ second) =
      Stmt.referencesAll first ++ Stmt.referencesAll second := by
  induction first with
  | nil => rfl
  | cons s rest ih => simp only [List.cons_append, Stmt.referencesAll, ih, List.append_assoc]

end LoxLang
