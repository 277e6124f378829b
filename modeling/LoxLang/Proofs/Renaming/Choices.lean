import LoxLang.Proofs.Machine.Names
import LoxLang.Proofs.Renaming.Sites
import LoxLang.Proofs.Token.Spelling

/-!
Any local variable can be renamed. `Stmt.renameAll` gives a program in which some chosen regions have the new
name. If each of them declares a variable of the old name, by `var` or as a parameter, then nothing else in
its scope can have that name in a program that is taken; so `renamedAll_renameAll` says that the program is
renamed.
-/
namespace LoxLang
set_option autoImplicit false

/-! ## Renaming -/

section Rename
variable (ρ : Renaming) (chosen : Region → Bool)

def Token.rename (marked : Bool) (t : Token) : Token :=
  { t with lexeme := ρ.name marked t.lexeme }

def Reference.rename (marks : Marks) (r : Reference) : Reference :=
  { r with name := r.name.rename ρ (marks.at? (ρ.distances.get? r)) }

mutual

def Expr.rename (marks : Marks) : Expr → Expr
  | .literal value => .literal value
  | .unary operator operand => .unary operator (operand.rename marks)
  | .binary left operator right => .binary (left.rename marks) operator (right.rename marks)
  | .logical left operator right => .logical (left.rename marks) operator (right.rename marks)
  | .grouping inner => .grouping (inner.rename marks)
  | .variable target => .variable (target.rename ρ marks)
  | .assign target value => .assign (target.rename ρ marks) (value.rename marks)
  | .call callee paren arguments => .call (callee.rename marks) paren (Expr.renameAll marks arguments)
  | .get object name => .get (object.rename marks) name
  | .set object name value => .set (object.rename marks) name (value.rename marks)
  | .thisObject keyword => .thisObject keyword
  | .superMethod keyword method => .superMethod keyword method

def Expr.renameAll (marks : Marks) : List Expr → List Expr
  | [] => []
  | e :: rest => e.rename marks :: Expr.renameAll marks rest

end

mutual

/-- A statement in which the chosen regions have the new name. -/
def Stmt.rename (marks : Marks) : Stmt → Stmt
  | .expression value => .expression (value.rename ρ marks)
  | .print keyword value => .print keyword (value.rename ρ marks)
  | .variable name initializer =>
    .variable (name.rename ρ marks.here) (initializer.map (·.rename ρ marks))
  | .block body => .block (Stmt.renameAll (chosen (.block body) :: marks) body)
  | .conditional condition thenBranch none =>
    .conditional (condition.rename ρ marks) (thenBranch.rename marks) none
  | .conditional condition thenBranch (some elseBranch) =>
    .conditional (condition.rename ρ marks) (thenBranch.rename marks) (some (elseBranch.rename marks))
  | .loop condition body => .loop (condition.rename ρ marks) (body.rename marks)
  | .function declaration => .function (declaration.rename marks)
  | .returnWith keyword value => .returnWith keyword (value.map (·.rename ρ marks))
  | .classDeclaration name superclass methods =>
    .classDeclaration name (superclass.map (·.rename ρ marks))
      (FunctionDeclaration.renameAll (false :: marks.ofClass superclass) methods)

def Stmt.renameAll (marks : Marks) : List Stmt → List Stmt
  | [] => []
  | s :: rest => s.rename marks :: Stmt.renameAll marks rest

def FunctionDeclaration.rename (marks : Marks) : FunctionDeclaration → FunctionDeclaration
  | ⟨name, params, body⟩ =>
    let marked := chosen (.body ⟨name, params, body⟩)
    ⟨name, params.map (·.rename ρ marked), Stmt.renameAll (marked :: marks) body⟩

def FunctionDeclaration.renameAll (marks : Marks) : List FunctionDeclaration → List FunctionDeclaration
  | [] => []
  | d :: rest => d.rename marks :: FunctionDeclaration.renameAll marks rest

end

end Rename

/-! ## Regions that declare a variable -/

/-- Whether a statement declares a variable of some name. -/
def Stmt.isVariable (x : String) : Stmt → Bool
  | .variable name _ => name.lexeme == x
  | _ => false

/-- Whether a region declares a variable of some name, by a statement or as a parameter. -/
def Region.hasVariable (x : String) : Region → Bool
  | .block statements => statements.any (·.isVariable x)
  | .body d => d.params.any (·.lexeme == x) || d.body.any (·.isVariable x)
  | _ => false

/-- What a statement declares under some name is a variable. -/
def Stmt.OnlyVariable (x : String) (s : Stmt) : Prop :=
  ∀ name, s.declared? = some name → name.lexeme = x → s.isVariable x = true

section Declared
variable {Γ : Enclosure} {layer : Layer} {x : String}

theorem Stmt.declared?_of_isVariable {s : Stmt} (h : s.isVariable x = true) :
    ∃ name, s.declared? = some name ∧ name.lexeme = x := by
  cases s with
  | «variable» name initializer => exact ⟨name, rfl, eq_of_beq h⟩
  | _ => cases h

theorem Stmt.onlyVariable_of_isDeclaration {s : Stmt} (h : s.isDeclaration = false) :
    s.OnlyVariable x := by
  intro name hname
  cases s with
  | «variable» declared initializer => cases h
  | function declaration => cases h
  | classDeclaration declared superclass methods => cases h
  | _ => cases hname

theorem Stmt.declaration_mem_spots (Γ : Enclosure) {s : Stmt} {name : Token}
    (h : s.declared? = some name) : .declaration name Γ ∈ s.spots Γ := by
  cases s with
  | «variable» declared initializer =>
    cases h
    exact List.mem_cons_self
  | function declaration =>
    cases h
    exact List.mem_cons_self
  | classDeclaration declared superclass methods =>
    cases h
    refine List.mem_append_left _ ?_
    cases superclass <;> exact List.mem_cons_self
  | _ => cases h

/-- A statement adds what it declares to the innermost names. -/
theorem Stmt.after_cons (layer : Layer) (Γ : Enclosure) (s : Stmt) :
    ∃ names, s.after (layer :: Γ) = ⟨layer.region, names⟩ :: Γ ∧ layer.names ⊆ names ∧
      ∀ name, s.declared? = some name → name.lexeme ∈ names := by
  have hdeclared : ∀ name : Token, ∃ names,
      Enclosure.declare name.lexeme (layer :: Γ) = ⟨layer.region, names⟩ :: Γ ∧
        layer.names ⊆ names ∧ ∀ other, some name = some other → other.lexeme ∈ names := by
    intro name
    refine ⟨name.lexeme :: layer.names, rfl, List.subset_cons_self _ _, ?_⟩
    rintro other ⟨⟩
    exact List.mem_cons_self
  cases s with
  | «variable» name initializer => exact hdeclared name
  | function declaration => exact hdeclared declaration.name
  | classDeclaration name superclass methods => exact hdeclared name
  | _ => exact ⟨layer.names, rfl, List.Subset.refl _, fun _ h => by cases h⟩

/-- Where no name is declared twice, a name that was declared before is not declared again. -/
theorem Stmt.not_declared_again {body : List Stmt}
    (hspots : ∀ spot ∈ Stmt.spotsAll (layer :: Γ) body, spot.misuse? = none) (hx : x ∈ layer.names) :
    ∀ s ∈ body, ∀ name, s.declared? = some name → name.lexeme ≠ x := by
  induction body generalizing layer with
  | nil => exact List.forall_mem_nil _
  | cons s rest ih =>
    obtain ⟨hfirst, hrest⟩ := List.forall_mem_append.mp hspots
    refine List.forall_mem_cons.mpr ⟨fun name hname heq => ?_, ?_⟩
    · have hmisuse := hfirst _ (s.declaration_mem_spots (layer :: Γ) hname)
      have hduplicate : name.lexeme ∈ Enclosure.innermost (layer :: Γ) := heq ▸ hx
      rw [Spot.misuse?_declaration, if_pos hduplicate] at hmisuse
      cases hmisuse
    · obtain ⟨names, hafter, hkept, -⟩ := s.after_cons layer Γ
      rw [hafter] at hrest
      exact ih hrest (hkept hx)

/-- Where no name is declared twice, a variable is all that is declared under its name. -/
theorem Stmt.onlyVariable_of_any {body : List Stmt}
    (hspots : ∀ spot ∈ Stmt.spotsAll (layer :: Γ) body, spot.misuse? = none)
    (hany : body.any (·.isVariable x) = true) : ∀ s ∈ body, s.OnlyVariable x := by
  induction body generalizing layer with
  | nil => exact List.forall_mem_nil _
  | cons s rest ih =>
    obtain ⟨-, hrest⟩ := List.forall_mem_append.mp hspots
    obtain ⟨names, hafter, -, hdeclared⟩ := s.after_cons layer Γ
    rw [hafter] at hrest
    rw [List.any_cons, Bool.or_eq_true] at hany
    refine List.forall_mem_cons.mpr ⟨fun name hname heq => ?_, fun t ht => ?_⟩
    · refine hany.resolve_right fun hlater => ?_
      obtain ⟨t, ht, hvariable⟩ := List.any_eq_true.mp hlater
      obtain ⟨other, hother, hsame⟩ := Stmt.declared?_of_isVariable hvariable
      exact Stmt.not_declared_again hrest (heq ▸ hdeclared name hname) t ht other hother hsame
    · rcases hany with hvariable | hlater
      · obtain ⟨name, hname, rfl⟩ := Stmt.declared?_of_isVariable hvariable
        exact fun other hother heq => absurd heq
          (Stmt.not_declared_again hrest (hdeclared name hname) t ht other hother)
      · exact ih hrest hlater t ht

theorem Region.onlyVariable_of_body {d : FunctionDeclaration}
    (hspots : ∀ spot ∈ Stmt.spotsAll (Γ.ofFunction d) d.body, spot.misuse? = none)
    (h : (Region.body d).hasVariable x = true) : ∀ s ∈ d.body, s.OnlyVariable x := by
  rcases (Bool.or_eq_true _ _).mp h with hparam | hvariable
  · obtain ⟨param, hmem, hname⟩ := List.any_eq_true.mp hparam
    have hx : x ∈ (d.params.map Token.lexeme).reverse :=
      List.mem_reverse.mpr (List.mem_map.mpr ⟨param, hmem, eq_of_beq hname⟩)
    exact fun s hs name hdeclared heq =>
      absurd heq (Stmt.not_declared_again hspots hx s hs name hdeclared)
  · exact Stmt.onlyVariable_of_any hspots hvariable

end Declared

/-! ## Renamed trees -/

section Renamed
variable {ρ : Renaming}

/-- A word that is spelled as it is in the language, and is not the new name. -/
def Renaming.Spelled (ρ : Renaming) (t : Token) : Prop :=
  t.Spelled ∧ t.lexeme ≠ ρ.new

theorem Token.renamed_rename {t : Token} (h : t.lexeme ≠ ρ.new) (marked : Bool) :
    t.Renamed ρ marked (t.rename ρ marked) :=
  ⟨rfl, fun _ => h⟩

theorem Token.renamed_of_ne {t : Token} (hnew : t.lexeme ≠ ρ.new) {marked : Bool}
    (hold : marked = true → t.lexeme ≠ ρ.old) : t.Renamed ρ marked t := by
  cases marked with
  | false => exact .self ρ t
  | true =>
    refine ⟨?_, fun _ => hnew⟩
    rw [ρ.name_of_ne (hold rfl)]

theorem Reference.renamed_rename {r : Reference} (h : r.name.lexeme ≠ ρ.new) (marks : Marks) :
    r.Renamed ρ marks (r.rename ρ marks) :=
  ⟨rfl, Token.renamed_rename h _⟩

/-- A reserved word is not renamed. -/
theorem Reference.renamed_of_isWord {r : Reference} {k : Keyword} (h : r.name.IsWord ρ.Spelled k)
    (hk : k.spelling ∈ Store.reserved) (marks : Marks) : r.Renamed ρ marks r := by
  obtain ⟨⟨hspelled, hnew⟩, hword⟩ := h
  have hlexeme := hspelled.keyword k hword
  refine ⟨rfl, Token.renamed_of_ne hnew fun _ hold => ?_⟩
  rw [hlexeme] at hold
  exact ρ.old_free (hold ▸ hk)

mutual

theorem Expr.renamed_rename (marks : Marks) (e : Expr) (h : e.WellFormed ρ.Spelled) :
    e.Renamed ρ marks (e.rename ρ marks) := by
  cases e with
  | literal value => exact .literal value
  | unary operator operand => exact .unary operator (operand.renamed_rename marks h.2)
  | binary left operator right =>
    exact .binary operator (left.renamed_rename marks h.2.1) (right.renamed_rename marks h.2.2)
  | logical left operator right =>
    exact .logical operator (left.renamed_rename marks h.2.1) (right.renamed_rename marks h.2.2)
  | grouping inner => exact .grouping (inner.renamed_rename marks h)
  | «variable» target => exact .variable (Reference.renamed_rename h.1.2 marks)
  | assign target value =>
    exact .assign (Reference.renamed_rename h.1.1.2 marks) (value.renamed_rename marks h.2)
  | call callee paren arguments =>
    exact .call paren (callee.renamed_rename marks h.1) (Expr.renamed_renameAll marks arguments h.2)
  | get object name => exact .get name (object.renamed_rename marks h.1)
  | set object name value =>
    exact .set name (object.renamed_rename marks h.1) (value.renamed_rename marks h.2.2)
  | thisObject keyword => exact .thisObject (Reference.renamed_of_isWord h Store.this_mem_reserved marks)
  | superMethod keyword method =>
    exact .superMethod method
      (Reference.renamed_of_isWord h.1 Store.super_mem_reserved marks)

theorem Expr.renamed_renameAll (marks : Marks) (es : List Expr)
    (h : Expr.AllWellFormed ρ.Spelled es) :
    List.Forall₂ (Expr.Renamed ρ marks) es (Expr.renameAll ρ marks es) := by
  cases es with
  | nil => exact .nil
  | cons e rest =>
    exact .cons (e.renamed_rename marks h.1) (Expr.renamed_renameAll marks rest h.2)

end

theorem Expr.renamed_renameOption (marks : Marks) (e : Option Expr)
    (h : Expr.OptionWellFormed ρ.Spelled e) :
    Option.Rel (Expr.Renamed ρ marks) e (e.map (·.rename ρ marks)) := by
  cases e with
  | none => exact .none
  | some e => exact .some (e.renamed_rename marks h)

section Statements
variable {chosen : Region → Bool}

mutual

theorem Stmt.renamed_rename (hchosen : ∀ region, chosen region = true → region.hasVariable ρ.old = true)
    {Γ : Enclosure} {marks : Marks} (s : Stmt) (hwell : s.WellFormed ρ.Spelled)
    (hspots : ∀ spot ∈ s.spots Γ, spot.misuse? = none)
    (honly : marks.here = true → s.OnlyVariable ρ.old) :
    s.Renamed ρ marks (s.rename ρ chosen marks) := by
  cases s with
  | expression value => exact .expression (value.renamed_rename marks hwell)
  | print keyword value => exact .print keyword (value.renamed_rename marks hwell)
  | «variable» name initializer =>
    exact .variable (Token.renamed_rename hwell.1.1.2 _)
      (Expr.renamed_renameOption marks initializer hwell.2)
  | block body =>
    exact .block _ (Stmt.renamed_renameAll hchosen body hwell hspots fun hmarked =>
      Stmt.onlyVariable_of_any hspots (hchosen _ hmarked))
  | conditional condition thenBranch elseBranch =>
    cases elseBranch with
    | none =>
      obtain ⟨-, hthen⟩ := List.forall_mem_append.mp hspots
      exact .conditional (condition.renamed_rename marks hwell.1)
        (thenBranch.renamed_rename hchosen hwell.2.2 hthen fun _ =>
          Stmt.onlyVariable_of_isDeclaration hwell.2.1)
    | some elseBranch =>
      obtain ⟨hfirst, helse⟩ := List.forall_mem_append.mp hspots
      obtain ⟨-, hthen⟩ := List.forall_mem_append.mp hfirst
      obtain ⟨hcondition, ⟨hthenPlain, hthenWell⟩, helsePlain, helseWell⟩ := hwell
      exact .alternative (condition.renamed_rename marks hcondition)
        (thenBranch.renamed_rename hchosen hthenWell hthen fun _ =>
          Stmt.onlyVariable_of_isDeclaration hthenPlain)
        (elseBranch.renamed_rename hchosen helseWell helse fun _ =>
          Stmt.onlyVariable_of_isDeclaration helsePlain)
  | loop condition body =>
    obtain ⟨-, hbody⟩ := List.forall_mem_append.mp hspots
    exact .loop (condition.renamed_rename marks hwell.1)
      (body.renamed_rename hchosen hwell.2.2 hbody fun _ =>
        Stmt.onlyVariable_of_isDeclaration hwell.2.1)
  | function declaration =>
    obtain ⟨name, params, body⟩ := declaration
    obtain ⟨-, hbody⟩ := List.forall_mem_cons.mp hspots
    refine .function (Token.renamed_of_ne hwell.1.1.2 fun hmarked hold => ?_)
      (FunctionDeclaration.renamed_rename hchosen _ hwell hbody)
    cases honly hmarked name rfl hold
  | returnWith keyword value =>
    exact .returnWith keyword (Expr.renamed_renameOption marks value hwell)
  | classDeclaration name superclass methods =>
    obtain ⟨-, hmethods⟩ := List.forall_mem_append.mp hspots
    have hname : name.Renamed ρ marks.here name :=
      Token.renamed_of_ne hwell.1.1.2 fun hmarked hold => by cases honly hmarked name rfl hold
    have hsuperclass := Expr.optionWellFormed_of_isVariable hwell.2.1
    exact .classDeclaration hname (Expr.renamed_renameOption marks superclass hsuperclass)
      (FunctionDeclaration.renamed_renameAll hchosen methods hwell.2.2 hmethods)

theorem Stmt.renamed_renameAll
    (hchosen : ∀ region, chosen region = true → region.hasVariable ρ.old = true) {Γ : Enclosure}
    {marks : Marks} (body : List Stmt) (hwell : Stmt.AllWellFormed ρ.Spelled body)
    (hspots : ∀ spot ∈ Stmt.spotsAll Γ body, spot.misuse? = none)
    (honly : marks.here = true → ∀ s ∈ body, s.OnlyVariable ρ.old) :
    Stmt.RenamedAll ρ marks body (Stmt.renameAll ρ chosen marks body) := by
  cases body with
  | nil => exact .nil
  | cons s rest =>
    obtain ⟨hfirst, hrest⟩ := List.forall_mem_append.mp hspots
    exact .cons
      (s.renamed_rename hchosen hwell.1 hfirst fun hmarked => honly hmarked s List.mem_cons_self)
      (Stmt.renamed_renameAll hchosen rest hwell.2 hrest fun hmarked t ht =>
        honly hmarked t (List.mem_cons_of_mem s ht))

theorem FunctionDeclaration.renamed_rename
    (hchosen : ∀ region, chosen region = true → region.hasVariable ρ.old = true) {Γ : Enclosure}
    {marks : Marks} (d : FunctionDeclaration) (hwell : d.WellFormed ρ.Spelled)
    (hspots : ∀ spot ∈ d.spots Γ, spot.misuse? = none) :
    d.Renamed ρ marks (d.rename ρ chosen marks) := by
  obtain ⟨name, params, body⟩ := d
  obtain ⟨-, hbody⟩ := List.forall_mem_append.mp hspots
  have hparams : List.Forall₂ (Token.Renamed ρ (chosen (.body ⟨name, params, body⟩))) params
      (params.map (·.rename ρ (chosen (.body ⟨name, params, body⟩)))) := by
    rw [List.forall₂_map_right_iff, List.forall₂_same]
    exact fun param hparam => Token.renamed_rename (hwell.2.1 param hparam).1.2 _
  exact .intro _ name hparams (Stmt.renamed_renameAll hchosen body hwell.2.2 hbody fun hmarked =>
    Region.onlyVariable_of_body hbody (hchosen _ hmarked))

theorem FunctionDeclaration.renamed_renameAll
    (hchosen : ∀ region, chosen region = true → region.hasVariable ρ.old = true) {Γ : Enclosure}
    {marks : Marks} (methods : List FunctionDeclaration)
    (hwell : FunctionDeclaration.AllWellFormed ρ.Spelled methods)
    (hspots : ∀ spot ∈ FunctionDeclaration.spotsAll Γ methods, spot.misuse? = none) :
    FunctionDeclaration.RenamedAll ρ marks methods
      (FunctionDeclaration.renameAll ρ chosen marks methods) := by
  cases methods with
  | nil => exact .nil
  | cons d rest =>
    obtain ⟨hfirst, hrest⟩ := List.forall_mem_append.mp hspots
    exact .cons (d.renamed_rename hchosen hwell.1 hfirst)
      (FunctionDeclaration.renamed_renameAll hchosen rest hwell.2 hrest)

end

end Statements

end Renamed

/-- A program that is taken can be renamed in any regions that declare a variable of the old name. -/
theorem program_renamed {ρ : Renaming} {chosen : Region → Bool} {tokens : List Token} {nextId : Nat}
    {program : List Stmt} {found : List DistanceEntry}
    (htokens : ∀ t ∈ tokens, t.Spelled ∧ t.lexeme ≠ ρ.new)
    (hprogram : programOfItems (programItems tokens nextId).1 = .ok program)
    (hsurvey : survey program = .ok found)
    (hchosen : ∀ region, chosen region = true → region.hasVariable ρ.old = true) :
    Stmt.RenamedAll ρ [false] program (Stmt.renameAll ρ chosen [false] program) := by
  have hwell : Stmt.AllWellFormed ρ.Spelled program := (program_good htokens hprogram).1
  exact Stmt.renamed_renameAll hchosen program hwell ((survey_eq_ok_iff hwell).mp hsurvey).1
    fun hmarked => absurd hmarked Bool.false_ne_true

end LoxLang
