import LoxLang.Proofs.Syntax.Program

/-!
The statements inside a statement. `Stmt.parts` lists a statement and all that stand inside it, those
of function and method bodies included. What passes from a statement to those right inside it holds of
all parts (`Stmt.forall_mem_parts`). So what is well formed has well-formed parts
(`wellFormed_of_mem_parts`), and every statement of a tree that was read is well formed
(`Stmt.Parsed.wellFormed`).
-/
namespace LoxLang
set_option autoImplicit false

mutual

/-- A statement and the statements inside it. -/
def Stmt.parts : Stmt → List Stmt
  | .expression value => [.expression value]
  | .print keyword value => [.print keyword value]
  | .variable name initializer => [.variable name initializer]
  | .block body => .block body :: Stmt.partsAll body
  | .conditional condition thenBranch none =>
    .conditional condition thenBranch none :: thenBranch.parts
  | .conditional condition thenBranch (some elseBranch) =>
    .conditional condition thenBranch (some elseBranch) ::
      (thenBranch.parts ++ elseBranch.parts)
  | .loop condition body => .loop condition body :: body.parts
  | .function declaration => .function declaration :: declaration.parts
  | .returnWith keyword value => [.returnWith keyword value]
  | .classDeclaration name superclass methods =>
    .classDeclaration name superclass methods :: FunctionDeclaration.partsAll methods

/-- The statements among and inside some statements. -/
def Stmt.partsAll : List Stmt → List Stmt
  | [] => []
  | s :: rest => s.parts ++ Stmt.partsAll rest

/-- The statements of a function body. -/
def FunctionDeclaration.parts : FunctionDeclaration → List Stmt
  | ⟨_, _, body⟩ => Stmt.partsAll body

/-- The statements of the bodies of methods. -/
def FunctionDeclaration.partsAll : List FunctionDeclaration → List Stmt
  | [] => []
  | d :: rest => d.parts ++ FunctionDeclaration.partsAll rest

end

theorem Stmt.mem_parts_self (s : Stmt) : s ∈ s.parts := by
  cases s with
  | conditional condition thenBranch elseBranch => cases elseBranch <;> exact List.mem_cons_self
  | _ => exact List.mem_cons_self

theorem FunctionDeclaration.mem_partsAll {d : FunctionDeclaration} {ds : List FunctionDeclaration}
    (hd : d ∈ ds) {s : Stmt} (hs : s ∈ d.parts) : s ∈ FunctionDeclaration.partsAll ds := by
  induction hd with
  | head => exact List.mem_append_left _ hs
  | tail _ _ ih => exact List.mem_append_right _ ih

/-! ## What holds of all parts -/

/-- The statements right inside a statement, those of bodies included. -/
def Stmt.children : Stmt → List Stmt
  | .block body => body
  | .conditional _ thenBranch none => [thenBranch]
  | .conditional _ thenBranch (some elseBranch) => [thenBranch, elseBranch]
  | .loop _ body => [body]
  | .function declaration => declaration.body
  | .classDeclaration _ _ methods => methods.flatMap (·.body)
  | _ => []

section Parts
variable {P : Stmt → Prop}

mutual

/-- What passes from statements to those right inside them holds of all parts. -/
theorem Stmt.forall_mem_parts (hP : ∀ s, P s → ∀ t ∈ s.children, P t) (s : Stmt) (h : P s) :
    ∀ t ∈ s.parts, P t := by
  have hchildren := hP s h
  cases s with
  | block body => exact List.forall_mem_cons.mpr ⟨h, Stmt.forall_mem_partsAll hP body hchildren⟩
  | conditional condition thenBranch elseBranch =>
    cases elseBranch with
    | none =>
      have hthen := List.forall_mem_singleton.mp hchildren
      exact List.forall_mem_cons.mpr ⟨h, Stmt.forall_mem_parts hP thenBranch hthen⟩
    | some elseBranch =>
      obtain ⟨hthen, helse⟩ := List.forall_mem_cons.mp hchildren
      have helse := List.forall_mem_singleton.mp helse
      exact List.forall_mem_cons.mpr ⟨h, List.forall_mem_append.mpr
        ⟨Stmt.forall_mem_parts hP thenBranch hthen, Stmt.forall_mem_parts hP elseBranch helse⟩⟩
  | loop condition body =>
    have hbody := List.forall_mem_singleton.mp hchildren
    exact List.forall_mem_cons.mpr ⟨h, Stmt.forall_mem_parts hP body hbody⟩
  | function declaration =>
    exact List.forall_mem_cons.mpr ⟨h, declaration.forall_mem_parts hP hchildren⟩
  | classDeclaration name superclass methods =>
    have hmethods : ∀ d ∈ methods, ∀ s ∈ d.body, P s := fun d hd s hs =>
      hchildren s (List.mem_flatMap.mpr ⟨d, hd, hs⟩)
    exact List.forall_mem_cons.mpr ⟨h, FunctionDeclaration.forall_mem_partsAll hP methods hmethods⟩
  | _ => exact List.forall_mem_singleton.mpr h

theorem Stmt.forall_mem_partsAll (hP : ∀ s, P s → ∀ t ∈ s.children, P t) (body : List Stmt)
    (h : ∀ s ∈ body, P s) : ∀ t ∈ Stmt.partsAll body, P t := by
  cases body with
  | nil => exact List.forall_mem_nil _
  | cons s rest =>
    obtain ⟨hfirst, hrest⟩ := List.forall_mem_cons.mp h
    exact List.forall_mem_append.mpr
      ⟨Stmt.forall_mem_parts hP s hfirst, Stmt.forall_mem_partsAll hP rest hrest⟩

theorem FunctionDeclaration.forall_mem_parts (hP : ∀ s, P s → ∀ t ∈ s.children, P t)
    (d : FunctionDeclaration) (h : ∀ s ∈ d.body, P s) : ∀ t ∈ d.parts, P t := by
  cases d with
  | mk name params body => exact Stmt.forall_mem_partsAll hP body h

theorem FunctionDeclaration.forall_mem_partsAll (hP : ∀ s, P s → ∀ t ∈ s.children, P t)
    (ds : List FunctionDeclaration) (h : ∀ d ∈ ds, ∀ s ∈ d.body, P s) :
    ∀ t ∈ FunctionDeclaration.partsAll ds, P t := by
  cases ds with
  | nil => exact List.forall_mem_nil _
  | cons d rest =>
    obtain ⟨hfirst, hrest⟩ := List.forall_mem_cons.mp h
    exact List.forall_mem_append.mpr
      ⟨d.forall_mem_parts hP hfirst, FunctionDeclaration.forall_mem_partsAll hP rest hrest⟩

end

end Parts

/-! ## Parts of well-formed trees -/

section WellFormed
variable {admits : Token → Prop}

theorem Stmt.wellFormed_of_mem {s : Stmt} {body : List Stmt}
    (h : Stmt.AllWellFormed admits body) (hs : s ∈ body) : s.WellFormed admits := by
  induction hs with
  | head => exact h.1
  | tail _ _ ih => exact ih h.2

theorem Stmt.allWellFormed_of_forall {body : List Stmt}
    (h : ∀ s ∈ body, s.WellFormed admits) : Stmt.AllWellFormed admits body := by
  induction body with
  | nil => trivial
  | cons s rest ih =>
    obtain ⟨hfirst, hrest⟩ := List.forall_mem_cons.mp h
    exact ⟨hfirst, ih hrest⟩

theorem FunctionDeclaration.wellFormed_of_mem {d : FunctionDeclaration}
    {ds : List FunctionDeclaration} (h : FunctionDeclaration.AllWellFormed admits ds)
    (hd : d ∈ ds) : d.WellFormed admits := by
  induction hd with
  | head => exact h.1
  | tail _ _ ih => exact ih h.2

theorem Stmt.wellFormed_of_mem_children (s : Stmt) (h : s.WellFormed admits) :
    ∀ t ∈ s.children, t.WellFormed admits := by
  cases s with
  | block body => exact fun t => Stmt.wellFormed_of_mem h
  | conditional condition thenBranch elseBranch =>
    cases elseBranch with
    | none => exact List.forall_mem_singleton.mpr h.2.2
    | some elseBranch =>
      exact List.forall_mem_cons.mpr ⟨h.2.1.2, List.forall_mem_singleton.mpr h.2.2.2⟩
  | loop condition body => exact List.forall_mem_singleton.mpr h.2.2
  | function declaration =>
    obtain ⟨name, params, body⟩ := declaration
    exact fun t => Stmt.wellFormed_of_mem h.2.2
  | classDeclaration name superclass methods =>
    intro t ht
    obtain ⟨⟨mname, params, body⟩, hd, ht⟩ := List.mem_flatMap.mp ht
    exact Stmt.wellFormed_of_mem (FunctionDeclaration.wellFormed_of_mem h.2.2 hd).2.2 ht
  | _ => exact List.forall_mem_nil _

theorem Stmt.wellFormed_of_mem_parts (s : Stmt) (h : s.WellFormed admits) :
    ∀ t ∈ s.parts, t.WellFormed admits :=
  Stmt.forall_mem_parts Stmt.wellFormed_of_mem_children s h

theorem Stmt.wellFormed_of_mem_partsAll (body : List Stmt) (h : Stmt.AllWellFormed admits body) :
    ∀ t ∈ Stmt.partsAll body, t.WellFormed admits :=
  Stmt.forall_mem_partsAll Stmt.wellFormed_of_mem_children body fun _ => Stmt.wellFormed_of_mem h

end WellFormed

/-! ## Trees that were read -/

/-- A statement stands in a tree that some tokens were read as, next to faults or not. -/
def Stmt.Parsed (s : Stmt) : Prop :=
  ∃ (tokens : List Token) (nextId : Nat) (t : Stmt),
    .ok t ∈ (programItems tokens nextId).1 ∧ s ∈ t.parts

/-- Every declaration that is read is well formed, next to faults or not. -/
theorem programItems_wellFormed {admits : Token → Prop} {tokens : List Token}
    (hadmits : ∀ t ∈ tokens, admits t) {nextId : Nat} {s : Stmt}
    (hs : .ok s ∈ (programItems tokens nextId).1) : s.WellFormed admits := by
  have hmem : s ∈ (programItems tokens nextId).1.filterMap ProgramItem.declaration? :=
    List.mem_filterMap.mpr ⟨.ok s, hs, rfl⟩
  exact Stmt.wellFormed_of_mem (programItems_good hadmits nextId).2.1 hmem

theorem expressionOfTokens_wellFormed {admits : Token → Prop} {tokens : List Token}
    (hadmits : ∀ t ∈ tokens, admits t) {nextId : Nat} {e : Expr}
    (he : (expressionOfTokens tokens nextId).1 = .ok e) : e.WellFormed admits := by
  have hgood := Reading.wholeExpression_reads (depthBound tokens) nextId (.start tokens nextId) rfl
    fun t ht => hadmits t ((List.takeWhile_prefix _).subset ht)
  unfold expressionOfTokens at he
  cases hr : Reading.wholeExpression (depthBound tokens) (.start tokens nextId) with
  | ok e' place =>
    rw [hr] at hgood he
    cases he
    exact hgood.2.2.1
  | error stop place =>
    rw [hr] at he
    cases he

theorem Stmt.Parsed.wellFormed {s : Stmt} (h : s.Parsed) : s.WellFormed fun _ => True := by
  obtain ⟨tokens, nextId, t, ht, hs⟩ := h
  exact t.wellFormed_of_mem_parts (programItems_wellFormed (fun _ _ => trivial) ht) s hs

end LoxLang
