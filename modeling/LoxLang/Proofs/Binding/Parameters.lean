import LoxLang.Proofs.Binding.Agreement
import LoxLang.Proofs.Syntax.Parts

/-!
The parameters of the functions of a program. The parameters of one function are declared one after the
other in the scope of its body, where a survey refuses a name that is declared twice; so in a program
that is surveyed without faults the parameters of every function and method are different names
(`distinct_of_survey`).
-/
namespace LoxLang
set_option autoImplicit false

/-- The parameters of a function are different names. -/
def FunctionDeclaration.Distinct (d : FunctionDeclaration) : Prop :=
  (d.params.map Token.lexeme).Nodup

/-- So are those of each function that a statement itself declares. -/
def Stmt.Distinct : Stmt → Prop
  | .function declaration => declaration.Distinct
  | .classDeclaration _ _ methods => ∀ declaration ∈ methods, declaration.Distinct
  | _ => True

namespace Survey

/-- A name that is introduced without a fault was not in the innermost scope; it is from then on. -/
theorem introduce_clean {s : Survey} {scope : Table Bool} {outer : List (Table Bool)} {name : Token}
    (hscopes : s.scopes = scope :: outer) (h : (s.introduce name).faults = []) :
    scope.contains name.lexeme = false ∧
      (s.introduce name).scopes =
        ((scope.insert name.lexeme false).insert name.lexeme true) :: outer := by
  unfold introduce declare at h ⊢
  rw [faults_define] at h
  rw [hscopes] at h ⊢
  dsimp only at h ⊢
  split at h
  · exact absurd h (faults_blame_ne _ _ _)
  · rename_i hunbound
    rw [if_neg hunbound]
    exact ⟨Bool.eq_false_iff.mpr hunbound, rfl⟩

/-- Names that are introduced without a fault are different, and none was in the scope before. -/
theorem nodup_of_params {params : List Token} {s : Survey} {scope : Table Bool}
    {outer : List (Table Bool)} (hscopes : s.scopes = scope :: outer)
    (h : (params.foldl introduce s).faults = []) :
    (params.map Token.lexeme).Nodup ∧ ∀ x ∈ params.map Token.lexeme, scope.contains x = false := by
  induction params generalizing s scope with
  | nil => exact ⟨List.nodup_nil, List.forall_mem_nil _⟩
  | cons name rest ih =>
    obtain ⟨hfresh, hscopes'⟩ := introduce_clean hscopes (clean_of_params h)
    obtain ⟨hnodup, hrest⟩ := ih hscopes' h
    have hother : ∀ x ∈ rest.map Token.lexeme, name.lexeme ≠ x ∧ scope.contains x = false := by
      intro x hx
      have hunbound := hrest x hx
      simp only [Table.contains, Table.get?_insert] at hunbound ⊢
      by_cases hname : name.lexeme = x
      · rw [if_pos hname] at hunbound
        cases hunbound
      · rw [if_neg hname, if_neg hname] at hunbound
        exact ⟨hname, hunbound⟩
    refine ⟨List.nodup_cons.mpr ⟨fun hmem => (hother _ hmem).1 rfl, hnodup⟩, ?_⟩
    exact List.forall_mem_cons.mpr ⟨hfresh, fun x hx => (hother x hx).2⟩

theorem distinct_of_visitFunction {classContext : ClassContext} (d : FunctionDeclaration) {s : Survey}
    (h : (visitFunction classContext d s).faults = []) : d.Distinct := by
  obtain ⟨name, params, body⟩ := d
  exact (nodup_of_params (s := s.enter []) rfl (clean_of_visitStmts body h)).1

theorem distinct_of_visitMethods {classContext : ClassContext} {methods : List FunctionDeclaration}
    {s : Survey} (h : (visitMethods classContext methods s).faults = []) :
    ∀ d ∈ methods, d.Distinct := by
  induction methods generalizing s with
  | nil => exact List.forall_mem_nil _
  | cons d rest ih =>
    exact List.forall_mem_cons.mpr
      ⟨distinct_of_visitFunction d (clean_of_visitMethods rest h), ih h⟩

mutual

theorem distinct_of_visitStmt {context : BindingContext} (stmt : Stmt) {s : Survey}
    (h : (visitStmt context stmt s).faults = []) : ∀ t ∈ stmt.parts, t.Distinct := by
  cases stmt with
  | block body =>
    exact List.forall_mem_cons.mpr ⟨trivial, distinct_of_visitStmts body (s := s.enter []) h⟩
  | conditional condition thenBranch elseBranch =>
    cases elseBranch with
    | none => exact List.forall_mem_cons.mpr ⟨trivial, distinct_of_visitStmt thenBranch h⟩
    | some elseBranch =>
      refine List.forall_mem_cons.mpr ⟨trivial, List.forall_mem_append.mpr ⟨?_, ?_⟩⟩
      · exact distinct_of_visitStmt thenBranch (clean_of_visitStmt elseBranch h)
      · exact distinct_of_visitStmt elseBranch h
  | loop condition body => exact List.forall_mem_cons.mpr ⟨trivial, distinct_of_visitStmt body h⟩
  | function declaration =>
    exact List.forall_mem_cons.mpr ⟨distinct_of_visitFunction declaration h,
      distinct_of_visitBody declaration h⟩
  | classDeclaration name superclass methods =>
    have hmethods := (faults_leaveClass superclass _).symm.trans h
    exact List.forall_mem_cons.mpr ⟨distinct_of_visitMethods hmethods,
      distinct_of_visitBodies methods hmethods⟩
  | _ => exact List.forall_mem_singleton.mpr trivial

theorem distinct_of_visitStmts {context : BindingContext} (body : List Stmt) {s : Survey}
    (h : (visitStmts context body s).faults = []) : ∀ t ∈ Stmt.partsAll body, t.Distinct := by
  cases body with
  | nil => exact List.forall_mem_nil _
  | cons stmt rest =>
    exact List.forall_mem_append.mpr ⟨distinct_of_visitStmt stmt (clean_of_visitStmts rest h),
      distinct_of_visitStmts rest h⟩

theorem distinct_of_visitBody {classContext : ClassContext} (d : FunctionDeclaration) {s : Survey}
    (h : (visitFunction classContext d s).faults = []) : ∀ t ∈ d.parts, t.Distinct := by
  cases d with
  | mk name params body => exact distinct_of_visitStmts body h

theorem distinct_of_visitBodies {classContext : ClassContext} (methods : List FunctionDeclaration)
    {s : Survey} (h : (visitMethods classContext methods s).faults = []) :
    ∀ t ∈ FunctionDeclaration.partsAll methods, t.Distinct := by
  cases methods with
  | nil => exact List.forall_mem_nil _
  | cons d rest =>
    exact List.forall_mem_append.mpr ⟨distinct_of_visitBody d (clean_of_visitMethods rest h),
      distinct_of_visitBodies rest h⟩

end

end Survey

/-- Of a program that is surveyed without faults, every function and method has different parameters. -/
theorem distinct_of_survey {program : List Stmt} {entries : List DistanceEntry}
    (h : survey program = .ok entries) : ∀ s ∈ Stmt.partsAll program, s.Distinct :=
  Survey.distinct_of_visitStmts program (Survey.clean_of_survey h)

end LoxLang
