import LoxLang.Proofs.Syntax.Excess
import LoxLang.Proofs.Syntax.Parts

/-!
The calls and functions in a tree. `Expr.parts` lists an expression and all that stand inside it;
`Stmt.expressions` and `Stmt.functions` list what stands in a statement itself. What passes from an
expression to those right inside it holds of all parts (`Expr.forall_mem_parts`). No part of a tree has
more entries too many than the tree, so in a program without faults every call has at most 255
arguments and every function at most 255 parameters (`inArity_of_faultless`).
-/
namespace LoxLang
set_option autoImplicit false

/-! ## Parts of expressions -/

mutual

/-- An expression and the expressions inside it. -/
def Expr.parts : Expr → List Expr
  | .literal value => [.literal value]
  | .unary operator operand => .unary operator operand :: operand.parts
  | .binary left operator right => .binary left operator right :: (left.parts ++ right.parts)
  | .logical left operator right => .logical left operator right :: (left.parts ++ right.parts)
  | .grouping inner => .grouping inner :: inner.parts
  | .variable target => [.variable target]
  | .assign target value => .assign target value :: value.parts
  | .call callee paren arguments =>
    .call callee paren arguments :: (callee.parts ++ Expr.partsAll arguments)
  | .get object name => .get object name :: object.parts
  | .set object name value => .set object name value :: (object.parts ++ value.parts)
  | .thisObject keyword => [.thisObject keyword]
  | .superMethod keyword method => [.superMethod keyword method]

/-- The expressions among and inside some expressions. -/
def Expr.partsAll : List Expr → List Expr
  | [] => []
  | e :: rest => e.parts ++ Expr.partsAll rest

end

theorem Expr.mem_parts_self (e : Expr) : e ∈ e.parts := by
  cases e <;> exact List.mem_cons_self

/-- The expressions of a statement that are inside no other statement or expression. -/
def Stmt.expressions : Stmt → List Expr
  | .expression value => [value]
  | .print _ value => [value]
  | .variable _ initializer => initializer.toList
  | .conditional condition _ _ => [condition]
  | .loop condition _ => [condition]
  | .returnWith _ value => value.toList
  | .classDeclaration _ superclass _ => superclass.toList
  | _ => []

/-- The functions or methods that a statement declares. -/
def Stmt.functions : Stmt → List FunctionDeclaration
  | .function declaration => [declaration]
  | .classDeclaration _ _ methods => methods
  | _ => []

/-- The calls in a statement have at most 255 arguments, and its functions at most 255 parameters. -/
structure Stmt.InArity (s : Stmt) : Prop where
  calls : ∀ t ∈ s.parts, ∀ e ∈ t.expressions, ∀ callee paren arguments,
    .call callee paren arguments ∈ e.parts → arguments.length ≤ maxArity
  functions : ∀ t ∈ s.parts, ∀ d ∈ t.functions, d.params.length ≤ maxArity

/-! ## What holds of all parts -/

/-- The expressions right inside an expression. -/
def Expr.children : Expr → List Expr
  | .unary _ operand => [operand]
  | .binary left _ right => [left, right]
  | .logical left _ right => [left, right]
  | .grouping inner => [inner]
  | .assign _ value => [value]
  | .call callee _ arguments => callee :: arguments
  | .get object _ => [object]
  | .set object _ value => [object, value]
  | _ => []

section Parts
variable {P : Expr → Prop}

mutual

/-- What passes from expressions to those right inside them holds of all parts. -/
theorem Expr.forall_mem_parts (hP : ∀ e, P e → ∀ x ∈ e.children, P x) (e : Expr) (h : P e) :
    ∀ x ∈ e.parts, P x := by
  have hchildren := hP e h
  have htwo : ∀ left right : Expr, (∀ x ∈ [left, right], P x) → P left ∧ P right :=
    fun left right hall => ⟨hall left List.mem_cons_self,
      hall right (List.mem_cons_of_mem _ List.mem_cons_self)⟩
  cases e with
  | unary operator operand =>
    have hoperand := List.forall_mem_singleton.mp hchildren
    exact List.forall_mem_cons.mpr ⟨h, Expr.forall_mem_parts hP operand hoperand⟩
  | binary left operator right =>
    obtain ⟨hleft, hright⟩ := htwo left right hchildren
    exact List.forall_mem_cons.mpr ⟨h, List.forall_mem_append.mpr
      ⟨Expr.forall_mem_parts hP left hleft, Expr.forall_mem_parts hP right hright⟩⟩
  | logical left operator right =>
    obtain ⟨hleft, hright⟩ := htwo left right hchildren
    exact List.forall_mem_cons.mpr ⟨h, List.forall_mem_append.mpr
      ⟨Expr.forall_mem_parts hP left hleft, Expr.forall_mem_parts hP right hright⟩⟩
  | grouping inner =>
    have hinner := List.forall_mem_singleton.mp hchildren
    exact List.forall_mem_cons.mpr ⟨h, Expr.forall_mem_parts hP inner hinner⟩
  | assign target value =>
    have hvalue := List.forall_mem_singleton.mp hchildren
    exact List.forall_mem_cons.mpr ⟨h, Expr.forall_mem_parts hP value hvalue⟩
  | call callee paren arguments =>
    obtain ⟨hcallee, harguments⟩ := List.forall_mem_cons.mp hchildren
    exact List.forall_mem_cons.mpr ⟨h, List.forall_mem_append.mpr
      ⟨Expr.forall_mem_parts hP callee hcallee, Expr.forall_mem_partsAll hP arguments harguments⟩⟩
  | get object name =>
    have hobject := List.forall_mem_singleton.mp hchildren
    exact List.forall_mem_cons.mpr ⟨h, Expr.forall_mem_parts hP object hobject⟩
  | set object name value =>
    obtain ⟨hobject, hvalue⟩ := htwo object value hchildren
    exact List.forall_mem_cons.mpr ⟨h, List.forall_mem_append.mpr
      ⟨Expr.forall_mem_parts hP object hobject, Expr.forall_mem_parts hP value hvalue⟩⟩
  | _ => exact List.forall_mem_singleton.mpr h

theorem Expr.forall_mem_partsAll (hP : ∀ e, P e → ∀ x ∈ e.children, P x) (es : List Expr)
    (h : ∀ e ∈ es, P e) : ∀ x ∈ Expr.partsAll es, P x := by
  cases es with
  | nil => exact List.forall_mem_nil _
  | cons e rest =>
    obtain ⟨hfirst, hrest⟩ := List.forall_mem_cons.mp h
    exact List.forall_mem_append.mpr
      ⟨Expr.forall_mem_parts hP e hfirst, Expr.forall_mem_partsAll hP rest hrest⟩

end

end Parts

/-! ## Entries too many in parts -/

section Excess
variable {cause : SyntaxCause}

theorem Expr.excess_of_mem {es : List Expr} (h : Expr.excessAll cause es = 0) :
    ∀ e ∈ es, e.excess cause = 0 := by
  intro e he
  induction he with
  | head => exact (Nat.add_eq_zero_iff.mp h).1
  | tail _ _ ih => exact ih (Nat.add_eq_zero_iff.mp h).2

theorem Stmt.excess_of_mem {body : List Stmt} (h : Stmt.excessAll cause body = 0) :
    ∀ s ∈ body, s.excess cause = 0 := by
  intro s hs
  induction hs with
  | head => exact (Nat.add_eq_zero_iff.mp h).1
  | tail _ _ ih => exact ih (Nat.add_eq_zero_iff.mp h).2

theorem FunctionDeclaration.excess_of_mem {ds : List FunctionDeclaration}
    (h : FunctionDeclaration.excessAll cause ds = 0) : ∀ d ∈ ds, d.excess cause = 0 := by
  intro d hd
  induction hd with
  | head => exact (Nat.add_eq_zero_iff.mp h).1
  | tail _ _ ih => exact ih (Nat.add_eq_zero_iff.mp h).2

theorem FunctionDeclaration.excess_of_mem_body {d : FunctionDeclaration}
    (h : d.excess cause = 0) : ∀ s ∈ d.body, s.excess cause = 0 := by
  obtain ⟨name, params, body⟩ := d
  exact Stmt.excess_of_mem (Nat.add_eq_zero_iff.mp h).2

theorem Expr.excess_of_mem_children (e : Expr) (h : e.excess cause = 0) :
    ∀ x ∈ e.children, x.excess cause = 0 := by
  cases e with
  | unary operator operand => exact List.forall_mem_singleton.mpr h
  | binary left operator right =>
    obtain ⟨hleft, hright⟩ := Nat.add_eq_zero_iff.mp h
    exact List.forall_mem_cons.mpr ⟨hleft, List.forall_mem_singleton.mpr hright⟩
  | logical left operator right =>
    obtain ⟨hleft, hright⟩ := Nat.add_eq_zero_iff.mp h
    exact List.forall_mem_cons.mpr ⟨hleft, List.forall_mem_singleton.mpr hright⟩
  | grouping inner => exact List.forall_mem_singleton.mpr h
  | assign target value => exact List.forall_mem_singleton.mpr h
  | call callee paren arguments =>
    obtain ⟨hcallee, hlist⟩ := Nat.add_eq_zero_iff.mp h
    exact List.forall_mem_cons.mpr
      ⟨hcallee, Expr.excess_of_mem (Nat.add_eq_zero_iff.mp hlist).1⟩
  | get object name => exact List.forall_mem_singleton.mpr h
  | set object name value =>
    obtain ⟨hobject, hvalue⟩ := Nat.add_eq_zero_iff.mp h
    exact List.forall_mem_cons.mpr ⟨hobject, List.forall_mem_singleton.mpr hvalue⟩
  | _ => exact List.forall_mem_nil _

theorem Stmt.excess_of_mem_children (s : Stmt) (h : s.excess cause = 0) :
    ∀ t ∈ s.children, t.excess cause = 0 := by
  cases s with
  | block body => exact Stmt.excess_of_mem h
  | conditional condition thenBranch elseBranch =>
    cases elseBranch with
    | none => exact List.forall_mem_singleton.mpr (Nat.add_eq_zero_iff.mp h).2
    | some elseBranch =>
      obtain ⟨hthen, helse⟩ := Nat.add_eq_zero_iff.mp (Nat.add_eq_zero_iff.mp h).2
      exact List.forall_mem_cons.mpr ⟨hthen, List.forall_mem_singleton.mpr helse⟩
  | loop condition body => exact List.forall_mem_singleton.mpr (Nat.add_eq_zero_iff.mp h).2
  | function declaration => exact FunctionDeclaration.excess_of_mem_body h
  | classDeclaration name superclass methods =>
    intro t ht
    obtain ⟨d, hd, ht⟩ := List.mem_flatMap.mp ht
    have hdeclared := FunctionDeclaration.excess_of_mem (Nat.add_eq_zero_iff.mp h).2 d hd
    exact FunctionDeclaration.excess_of_mem_body hdeclared t ht
  | _ => exact List.forall_mem_nil _

theorem Stmt.excess_of_mem_expressions {s : Stmt} (h : s.excess cause = 0) :
    ∀ e ∈ s.expressions, e.excess cause = 0 := by
  have hoption : ∀ e : Option Expr, Expr.excessOption cause e = 0 →
      ∀ x ∈ e.toList, x.excess cause = 0 := by
    intro e he
    cases e with
    | none => exact List.forall_mem_nil _
    | some e => exact List.forall_mem_singleton.mpr he
  cases s with
  | expression value => exact List.forall_mem_singleton.mpr h
  | print keyword value => exact List.forall_mem_singleton.mpr h
  | «variable» name initializer => exact hoption initializer h
  | conditional condition thenBranch elseBranch =>
    cases elseBranch with
    | none => exact List.forall_mem_singleton.mpr (Nat.add_eq_zero_iff.mp h).1
    | some elseBranch => exact List.forall_mem_singleton.mpr (Nat.add_eq_zero_iff.mp h).1
  | loop condition body => exact List.forall_mem_singleton.mpr (Nat.add_eq_zero_iff.mp h).1
  | returnWith keyword value => exact hoption value h
  | classDeclaration name superclass methods =>
    exact hoption superclass (Nat.add_eq_zero_iff.mp h).1
  | _ => exact List.forall_mem_nil _

theorem Stmt.excess_of_mem_functions {s : Stmt} (h : s.excess cause = 0) :
    ∀ d ∈ s.functions, d.excess cause = 0 := by
  cases s with
  | function declaration => exact List.forall_mem_singleton.mpr h
  | classDeclaration name superclass methods =>
    exact FunctionDeclaration.excess_of_mem (Nat.add_eq_zero_iff.mp h).2
  | _ => exact List.forall_mem_nil _

end Excess

/-! ## Programs without faults -/

theorem length_le_of_entriesBeyond {cause : SyntaxCause} {length : Nat}
    (h : entriesBeyond cause cause length = 0) : length ≤ maxArity := by
  rw [entriesBeyond, if_pos rfl] at h
  exact Nat.le_of_sub_eq_zero h

/-- Where nothing is too many, no list is too long. -/
theorem Stmt.inArity_of_excess {s : Stmt} (h : ∀ cause, s.excess cause = 0) : s.InArity := by
  refine ⟨fun t ht e he callee paren arguments hcall => ?_, fun t ht d hd => ?_⟩
  · have hstatement := Stmt.forall_mem_parts Stmt.excess_of_mem_children s (h .tooManyArguments) t ht
    have hexpression := Stmt.excess_of_mem_expressions hstatement e he
    have hexcess := Expr.forall_mem_parts Expr.excess_of_mem_children e hexpression _ hcall
    exact length_le_of_entriesBeyond (Nat.add_eq_zero_iff.mp (Nat.add_eq_zero_iff.mp hexcess).2).2
  · have hstatement := Stmt.forall_mem_parts Stmt.excess_of_mem_children s (h .tooManyParameters) t ht
    have hexcess := Stmt.excess_of_mem_functions hstatement d hd
    obtain ⟨name, params, body⟩ := d
    exact length_le_of_entriesBeyond (Nat.add_eq_zero_iff.mp hexcess).1

/-- What is read without faults has no list that is too long. -/
theorem inArity_of_faultless {tokens : List Token} {nextId : Nat}
    (h : itemFaults (programItems tokens nextId).1 = []) {s : Stmt}
    (hs : .ok s ∈ (programItems tokens nextId).1) : s.InArity := by
  have hexcess : ∀ f ∈ itemFaults (programItems tokens nextId).1, f.cause.Excess := by
    rw [h]
    exact List.forall_mem_nil _
  obtain ⟨readings, hitems, hcounts⟩ := programItemsFrom_tallies rfl hexcess
  change (programItems tokens nextId).1 = itemsOf readings at hitems
  rw [hitems] at h hs
  obtain ⟨reading, hreading, hmem⟩ := List.mem_flatMap.mp hs
  have hnone : reading.1 = [] := by
    refine List.eq_nil_iff_forall_not_mem.mpr fun f hf => ?_
    have hfault : f ∈ itemFaults (itemsOf readings) :=
      List.mem_filterMap.mpr ⟨.error f, List.mem_flatMap.mpr ⟨reading, hreading,
        List.mem_append_left _ (List.mem_map_of_mem hf)⟩, rfl⟩
    rw [h] at hfault
    cases hfault
  rw [hnone] at hmem
  cases List.mem_singleton.mp hmem
  refine Stmt.inArity_of_excess fun cause => ?_
  rw [← hcounts reading hreading cause, hnone]
  rfl

end LoxLang
