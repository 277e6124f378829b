import LoxLang.Binding.Distances
import LoxLang.Proofs.Binding.Enclosure

/-!
The survey gives every site the distance that the text gives it. While it walks, its open scopes hold
the names of the enclosure it has reached (`Tracks`); `visitExpr_finds` and `visitStmts_passes` say
what a walk without faults adds to the distances, and `survey_sites` says it of a program.
-/
namespace LoxLang
set_option autoImplicit false

/-- A local variable that is being initialized has a name that is not declared before in its
layer. -/
def Enclosure.Undeclared (admits : Token → Prop) (p : Option String) (Γ : Enclosure) : Prop :=
  ∀ x ∈ p, Named admits [x] ∧ ∃ layer outer, Γ = layer :: outer ∧ x ∉ layer.names

/-- Where a site can stand in a program without misuses of names. -/
structure Site.Legal (admits : Token → Prop) (site : Site) : Prop where
  proper : site.enclosure.Proper admits
  undeclared : site.enclosure.Undeclared admits site.initializing
  inClass : site.use = .receiver → site.enclosure.classContext ≠ .outside
  inDerived : site.use = .ancestry → site.enclosure.classContext = .derived

namespace Survey

/-! ## Walks without faults -/

section Clean

theorem faults_blame_ne (s : Survey) (cause : BindingCause) (token : Token) :
    (s.blame cause token).faults ≠ [] :=
  List.append_ne_nil_of_right_ne_nil s.faults (List.cons_ne_nil _ _)

theorem clean_of_declare {s : Survey} {name : Token} (h : (s.declare name).faults = []) :
    s.faults = [] := by
  unfold declare at h
  split at h
  · exact h
  · split at h
    · exact absurd h (faults_blame_ne _ _ _)
    · exact h

theorem faults_define (s : Survey) (name : Token) : (s.define name).faults = s.faults := by
  unfold define
  split <;> rfl

theorem clean_of_introduce {s : Survey} {name : Token} (h : (s.introduce name).faults = []) :
    s.faults = [] :=
  clean_of_declare ((faults_define _ name).symm.trans h)

theorem clean_of_params {params : List Token} {s : Survey}
    (h : (params.foldl introduce s).faults = []) : s.faults = [] := by
  induction params generalizing s with
  | nil => exact h
  | cons name rest ih => exact clean_of_introduce (ih h)

theorem faults_resolve (s : Survey) (target : Reference) :
    (s.resolve target).faults = s.faults := by
  unfold resolve
  split <;> rfl

theorem clean_of_resolveRead {s : Survey} {target : Reference}
    (h : (s.resolveRead target).faults = []) : s.faults = [] := by
  unfold resolveRead at h
  split at h
  · exact (faults_resolve s target).symm.trans h
  · split at h
    · split at h
      · exact h
      · exact absurd h (faults_blame_ne _ _ _)
    · exact (faults_resolve s target).symm.trans h

mutual

theorem clean_of_visitExpr {context : BindingContext} (e : Expr) {s : Survey}
    (h : (visitExpr context e s).faults = []) : s.faults = [] := by
  cases e with
  | literal value => exact h
  | unary operator operand => exact clean_of_visitExpr operand h
  | binary left operator right => exact clean_of_visitExpr left (clean_of_visitExpr right h)
  | logical left operator right => exact clean_of_visitExpr left (clean_of_visitExpr right h)
  | grouping inner => exact clean_of_visitExpr inner h
  | «variable» target => exact clean_of_resolveRead h
  | assign target value => exact clean_of_visitExpr value ((faults_resolve _ target).symm.trans h)
  | call callee paren arguments => exact clean_of_visitExpr callee (clean_of_visitExprs arguments h)
  | get object name => exact clean_of_visitExpr object h
  | set object name value => exact clean_of_visitExpr value (clean_of_visitExpr object h)
  | thisObject keyword =>
    rw [visitExpr] at h
    split at h
    · exact absurd h (faults_blame_ne _ _ _)
    · exact (faults_resolve s keyword).symm.trans h
    · exact (faults_resolve s keyword).symm.trans h
  | superMethod keyword method =>
    rw [visitExpr] at h
    split at h
    · exact absurd h (faults_blame_ne _ _ _)
    · exact absurd h (faults_blame_ne _ _ _)
    · exact (faults_resolve s keyword).symm.trans h

theorem clean_of_visitExprs {context : BindingContext} (es : List Expr) {s : Survey}
    (h : (visitExprs context es s).faults = []) : s.faults = [] := by
  cases es with
  | nil => exact h
  | cons e rest => exact clean_of_visitExpr e (clean_of_visitExprs rest h)

end

theorem clean_of_visitOption {context : BindingContext} {e : Option Expr} {s : Survey}
    (h : (visitOption context e s).faults = []) : s.faults = [] := by
  cases e with
  | none => exact h
  | some e => exact clean_of_visitExpr e h

/-- Where the check of a superclass leaves no faults, it finds none. -/
theorem clean_of_checkSuperclass {name : Token} {superclass : Expr} {s : Survey}
    (h : (checkSuperclass name superclass s).faults = []) :
    checkSuperclass name superclass s = s := by
  cases superclass with
  | «variable» parent =>
    rw [checkSuperclass_variable] at h ⊢
    split at h
    · exact absurd h (faults_blame_ne _ _ _)
    · rename_i hother
      exact if_neg hother
  | _ => rfl

/-- A class has another name than a superclass that is found to be in order. -/
theorem ne_of_checkSuperclass {name : Token} {parent : Reference} {s : Survey}
    (h : (checkSuperclass name (.variable parent) s).faults = []) :
    parent.name.lexeme ≠ name.lexeme := by
  intro hself
  rw [checkSuperclass_variable, if_pos hself] at h
  exact faults_blame_ne _ _ _ h

theorem clean_of_enterClass {context : BindingContext} {name : Token} {superclass : Option Expr}
    {s : Survey} (h : (enterClass context name superclass s).faults = []) : s.faults = [] := by
  cases superclass with
  | none => exact clean_of_introduce h
  | some parent =>
    have hcheck := clean_of_visitExpr parent h
    rw [clean_of_checkSuperclass hcheck] at hcheck
    exact clean_of_introduce hcheck

theorem faults_leaveClass (superclass : Option Expr) (s : Survey) :
    (leaveClass superclass s).faults = s.faults := by
  unfold leaveClass
  split <;> rfl

mutual

theorem clean_of_visitStmt {context : BindingContext} (stmt : Stmt) {s : Survey}
    (h : (visitStmt context stmt s).faults = []) : s.faults = [] := by
  cases stmt with
  | expression value => exact clean_of_visitExpr value h
  | print keyword value => exact clean_of_visitExpr value h
  | «variable» name initializer =>
    exact clean_of_declare (clean_of_visitOption ((faults_define _ name).symm.trans h))
  | block body => exact clean_of_visitStmts body (s := s.enter []) h
  | conditional condition thenBranch elseBranch =>
    cases elseBranch with
    | none => exact clean_of_visitExpr condition (clean_of_visitStmt thenBranch h)
    | some elseBranch =>
      exact clean_of_visitExpr condition
        (clean_of_visitStmt thenBranch (clean_of_visitStmt elseBranch h))
  | loop condition body => exact clean_of_visitExpr condition (clean_of_visitStmt body h)
  | function declaration => exact clean_of_introduce (clean_of_visitFunction declaration h)
  | returnWith keyword value =>
    have hvalue := clean_of_visitOption h
    split at hvalue
    · exact hvalue
    · exact absurd hvalue (faults_blame_ne _ _ _)
  | classDeclaration name superclass methods =>
    exact clean_of_enterClass (clean_of_visitMethods methods
      ((faults_leaveClass superclass _).symm.trans h))

theorem clean_of_visitStmts {context : BindingContext} (body : List Stmt) {s : Survey}
    (h : (visitStmts context body s).faults = []) : s.faults = [] := by
  cases body with
  | nil => exact h
  | cons stmt rest => exact clean_of_visitStmt stmt (clean_of_visitStmts rest h)

theorem clean_of_visitFunction {classContext : ClassContext} (d : FunctionDeclaration) {s : Survey}
    (h : (visitFunction classContext d s).faults = []) : s.faults = [] := by
  obtain ⟨name, params, body⟩ := d
  exact clean_of_params (s := s.enter []) (clean_of_visitStmts body h)

theorem clean_of_visitMethods {classContext : ClassContext} (methods : List FunctionDeclaration)
    {s : Survey} (h : (visitMethods classContext methods s).faults = []) : s.faults = [] := by
  cases methods with
  | nil => exact h
  | cons d rest => exact clean_of_visitFunction d (clean_of_visitMethods rest h)

end

theorem clean_of_survey {program : List Stmt} {entries : List DistanceEntry}
    (h : survey program = .ok entries) :
    (visitStmts ⟨false, .outside⟩ program .start).faults = [] := by
  unfold survey at h
  dsimp only at h
  split at h
  · exact List.isEmpty_iff.mp ‹_›
  · cases h

end Clean

/-! ## What the open scopes hold -/

/-- A scope holds the names of a layer, and next to them the variable that is being initialized. -/
def TracksLayer (p : Option String) (scope : Table Bool) (layer : Layer) : Prop :=
  ∀ x, scope.get? x = if p = some x then some false else if x ∈ layer.names then some true else none

/-- The open scopes hold the names of an enclosure. -/
def Tracks : Option String → List (Table Bool) → Enclosure → Prop
  | _, [], [] => True
  | p, scope :: scopes, layer :: outer => TracksLayer p scope layer ∧ Tracks none scopes outer
  | _, _, _ => False

theorem TracksLayer.contains {p : Option String} {scope : Table Bool} {layer : Layer}
    (h : TracksLayer p scope layer) (x : String) :
    scope.contains x = decide (p = some x ∨ x ∈ layer.names) := by
  unfold Table.contains
  rw [h x]
  grind

theorem TracksLayer.empty (region : Region) : TracksLayer none Table.empty ⟨region, []⟩ := by
  intro x
  simp

theorem TracksLayer.single (x : String) (region : Region) :
    TracksLayer none (Table.ofList [(x, true)]) ⟨region, [x]⟩ := by
  intro y
  simp only [Table.ofList, List.foldl_cons, List.foldl_nil, Table.get?_insert, Table.get?_empty,
    List.mem_singleton, reduceCtorEq, if_false]
  grind

theorem TracksLayer.declare {scope : Table Bool} {layer : Layer} (h : TracksLayer none scope layer)
    (x : String) : TracksLayer (some x) (scope.insert x false) layer := by
  intro y
  rw [Table.get?_insert, h y]
  grind

theorem TracksLayer.define {scope : Table Bool} {region : Region} {names : List String} {x : String}
    (h : TracksLayer (some x) scope ⟨region, names⟩) :
    TracksLayer none (scope.insert x true) ⟨region, x :: names⟩ := by
  intro y
  rw [Table.get?_insert, h y]
  grind

theorem Tracks.enter_single {s : Survey} {Γ : Enclosure} (h : Tracks none s.scopes Γ) (x : String)
    (region : Region) : Tracks none (s.enter [x]).scopes (⟨region, [x]⟩ :: Γ) :=
  ⟨TracksLayer.single x region, h⟩

theorem Tracks.distanceIn? {scopes : List (Table Bool)} {Γ : Enclosure} (h : Tracks none scopes Γ)
    (x : String) : distanceIn? scopes x = Γ.distance? x := by
  induction scopes generalizing Γ with
  | nil =>
    cases Γ with
    | nil => rfl
    | cons layer outer => exact h.elim
  | cons scope scopes ih =>
    cases Γ with
    | nil => exact h.elim
    | cons layer outer =>
      have hrest : scopes.findIdx? (·.contains x) = Enclosure.distance? x outer := ih h.2
      simp only [Survey.distanceIn?, Enclosure.distance?, List.findIdx?_cons] at hrest ⊢
      rw [h.1.contains x, hrest]
      simp

/-! ## References -/

/-- The survey after some sites have been found. -/
def found (s : Survey) (sites : List Site) : Survey :=
  { s with distances := s.distances ++ sites.filterMap Site.toEntry }

theorem found_nil (s : Survey) : s.found [] = s := by
  simp [found]

theorem found_found (s : Survey) (first second : List Site) :
    (s.found first).found second = s.found (first ++ second) := by
  simp [found]

theorem found_single {s : Survey} {site : Site} {distance : Nat}
    (h : site.distance? = some distance) : s.record site.reference distance = s.found [site] := by
  simp [found, record, Site.toEntry, h]

theorem found_global {s : Survey} {site : Site} (h : site.distance? = none) :
    s = s.found [site] := by
  simp [found, Site.toEntry, h]

theorem resolve_finds {s : Survey} (site : Site)
    (h : distanceIn? s.scopes site.name = site.distance?) :
    s.resolve site.reference = s.found [site] := by
  unfold resolve
  rw [show site.reference.name.lexeme = site.name from rfl, h]
  split
  · rename_i distance hd
    exact found_single hd
  · rename_i hd
    exact found_global hd

/-- A reference that counts the variable being initialized. -/
theorem Tracks.distanceIn?_pending {admits : Token → Prop} {p : Option String} {s : Survey}
    {Γ : Enclosure} (h : Tracks p s.scopes Γ) (hp : Γ.Undeclared admits p) (x : String) :
    Survey.distanceIn? s.scopes x = if p = some x then some 0 else Γ.distance? x := by
  cases p with
  | none => simpa using h.distanceIn? x
  | some y =>
    obtain ⟨-, layer, outer, rfl, hy⟩ := hp y rfl
    cases hscopes : s.scopes with
    | nil =>
      rw [hscopes] at h
      exact h.elim
    | cons scope scopes =>
      rw [hscopes] at h
      have hrest : scopes.findIdx? (·.contains x) = Enclosure.distance? x outer := h.2.distanceIn? x
      simp only [Survey.distanceIn?, Enclosure.distance?, List.findIdx?_cons] at hrest ⊢
      rw [h.1.contains x, hrest]
      grind

/-- A reading of a variable skips the variable being initialized. -/
theorem resolveRead_finds {admits : Token → Prop} {p : Option String} {s : Survey} {Γ : Enclosure}
    (h : Tracks p s.scopes Γ) (hp : Γ.Undeclared admits p) (target : Reference)
    (hclean : (s.resolveRead target).faults = []) :
    s.resolveRead target = s.found [⟨target, .read, Γ, p⟩] := by
  unfold resolveRead at hclean ⊢
  cases hscopes : s.scopes with
  | nil =>
    rw [hscopes] at h
    cases Γ with
    | cons layer outer => exact h.elim
    | nil => exact resolve_finds ⟨target, .read, [], p⟩ (by rw [hscopes]; rfl)
  | cons scope scopes =>
    rw [hscopes] at h
    cases Γ with
    | nil => exact h.elim
    | cons layer outer =>
      rw [hscopes] at hclean
      dsimp only at hclean ⊢
      have hname := h.1 target.name.lexeme
      split at hclean
      · -- The name is open in the innermost scope, and the text looks for it from the next layer on.
        rename_i hpending
        rw [if_pos hpending]
        have hp' : p = some target.name.lexeme := by grind
        obtain ⟨-, _, _, heq, hfresh⟩ := hp _ hp'
        cases heq
        have hd : (⟨target, .read, layer :: outer, p⟩ : Site).distance? =
            (distanceIn? scopes target.name.lexeme).map (· + 1) := by
          rw [h.2.distanceIn?]
          simp [Site.distance?, Enclosure.distance?, List.findIdx?_cons, hfresh]
        cases houter : distanceIn? scopes target.name.lexeme with
        | none =>
          rw [houter] at hclean
          exact absurd hclean (faults_blame_ne _ _ _)
        | some distance =>
          rw [houter] at hd
          exact found_single hd
      · rename_i hcomplete
        rw [if_neg hcomplete]
        refine resolve_finds ⟨target, .read, layer :: outer, p⟩ ?_
        have hp' : p ≠ some target.name.lexeme := by grind
        rw [← hscopes] at h
        rw [h.distanceIn?_pending hp, if_neg hp']
        rfl

/-! ## Expressions -/

/-- A walk has reached a point: the open scopes and the context are those of its enclosure. -/
structure At (admits : Token → Prop) (context : BindingContext) (p : Option String) (Γ : Enclosure)
    (s : Survey) : Prop where
  tracks : Tracks p s.scopes Γ
  undeclared : Γ.Undeclared admits p
  proper : Γ.Proper admits
  context_eq : context.classContext = Γ.classContext

/-- A walk finds some sites, all of them legal, and changes nothing but the distances. -/
def Finds (admits : Token → Prop) (s : Survey) (sites : List Site) (s' : Survey) : Prop :=
  s' = s.found sites ∧ ∀ site ∈ sites, site.Legal admits

section Walks
variable {admits : Token → Prop} {context : BindingContext} {p : Option String} {Γ : Enclosure}

theorem At.found {s : Survey} (h : At admits context p Γ s) (sites : List Site) :
    At admits context p Γ (s.found sites) :=
  ⟨h.tracks, h.undeclared, h.proper, h.context_eq⟩

theorem Finds.nil (s : Survey) : Finds admits s [] s :=
  ⟨s.found_nil.symm, fun _ hsite => absurd hsite List.not_mem_nil⟩

theorem Finds.append {s s' s'' : Survey} {first second : List Site} (h1 : Finds admits s first s')
    (h2 : Finds admits s' second s'') : Finds admits s (first ++ second) s'' := by
  refine ⟨?_, List.forall_mem_append.mpr ⟨h1.2, h2.2⟩⟩
  rw [h2.1, h1.1, found_found]

theorem At.after {s s' : Survey} {sites : List Site} (h : At admits context p Γ s)
    (hf : Finds admits s sites s') : At admits context p Γ s' := by
  rw [hf.1]
  exact h.found sites

theorem At.resolve_finds {s : Survey} (h : At admits context p Γ s) (target : Reference) {use : Use}
    (huse : use ≠ .read) (hclass : use = .receiver → Γ.classContext ≠ .outside)
    (hderived : use = .ancestry → Γ.classContext = .derived) :
    Finds admits s [⟨target, use, Γ, p⟩] (s.resolve target) := by
  refine ⟨Survey.resolve_finds ⟨target, use, Γ, p⟩ ?_, ?_⟩
  · rw [h.tracks.distanceIn?_pending h.undeclared]
    cases use with
    | read => exact absurd rfl huse
    | _ => rfl
  · rintro _ (_ | ⟨_, ⟨⟩⟩)
    exact ⟨h.proper, h.undeclared, hclass, hderived⟩

mutual

/-- What a walk over an expression finds. -/
theorem visitExpr_finds (e : Expr) {s : Survey} (h : At admits context p Γ s)
    (hclean : (visitExpr context e s).faults = []) :
    Finds admits s (e.sites Γ p) (visitExpr context e s) := by
  cases e with
  | literal value => exact Finds.nil s
  | unary operator operand => exact visitExpr_finds operand h hclean
  | binary left operator right =>
    have hleft := visitExpr_finds left h (clean_of_visitExpr right hclean)
    exact hleft.append (visitExpr_finds right (h.after hleft) hclean)
  | logical left operator right =>
    have hleft := visitExpr_finds left h (clean_of_visitExpr right hclean)
    exact hleft.append (visitExpr_finds right (h.after hleft) hclean)
  | grouping inner => exact visitExpr_finds inner h hclean
  | «variable» target =>
    refine ⟨resolveRead_finds h.tracks h.undeclared target hclean, ?_⟩
    rintro _ (_ | ⟨_, ⟨⟩⟩)
    exact ⟨h.proper, h.undeclared, nofun, nofun⟩
  | assign target value =>
    have hvalue := visitExpr_finds value h ((faults_resolve _ target).symm.trans hclean)
    exact hvalue.append ((h.after hvalue).resolve_finds target nofun nofun nofun)
  | call callee paren arguments =>
    have hcallee := visitExpr_finds callee h (clean_of_visitExprs arguments hclean)
    exact hcallee.append (visitExprs_finds arguments (h.after hcallee) hclean)
  | get object name => exact visitExpr_finds object h hclean
  | set object name value =>
    have hvalue := visitExpr_finds value h (clean_of_visitExpr object hclean)
    exact hvalue.append (visitExpr_finds object (h.after hvalue) hclean)
  | thisObject keyword =>
    rw [visitExpr] at hclean ⊢
    split at hclean
    · exact absurd hclean (faults_blame_ne _ _ _)
    · rename_i hplain
      have hc := h.context_eq.symm.trans hplain
      exact h.resolve_finds keyword nofun (fun _ => by rw [hc]; decide) nofun
    · rename_i hderived
      have hc := h.context_eq.symm.trans hderived
      exact h.resolve_finds keyword nofun (fun _ => by rw [hc]; decide) nofun
  | superMethod keyword method =>
    rw [visitExpr] at hclean ⊢
    split at hclean
    · exact absurd hclean (faults_blame_ne _ _ _)
    · exact absurd hclean (faults_blame_ne _ _ _)
    · rename_i hderived
      exact h.resolve_finds keyword nofun nofun fun _ => h.context_eq.symm.trans hderived

theorem visitExprs_finds (es : List Expr) {s : Survey} (h : At admits context p Γ s)
    (hclean : (visitExprs context es s).faults = []) :
    Finds admits s (Expr.sitesAll Γ p es) (visitExprs context es s) := by
  cases es with
  | nil => exact Finds.nil s
  | cons e rest =>
    have hfirst := visitExpr_finds e h (clean_of_visitExprs rest hclean)
    exact hfirst.append (visitExprs_finds rest (h.after hfirst) hclean)

end

theorem visitOption_finds (e : Option Expr) {s : Survey} (h : At admits context p Γ s)
    (hclean : (visitOption context e s).faults = []) :
    Finds admits s (Expr.sitesOption Γ p e) (visitOption context e s) := by
  cases e with
  | none => exact Finds.nil s
  | some e => exact visitExpr_finds e h hclean

/-! ## Declarations and scopes -/

theorem Tracks.tail {scopes : List (Table Bool)} (h : Tracks p scopes Γ) :
    Tracks none scopes.tail Γ.tail := by
  cases scopes <;> cases Γ
  · trivial
  · exact h.elim
  · exact h.elim
  · exact h.2

/-- A declared name is not declared before, and is not complete. -/
theorem At.declare {s : Survey} (h : At admits context none Γ s) {name : Token}
    (hname : name.IsName admits) (hclean : (s.declare name).faults = []) :
    At admits context (Γ.pending name.lexeme) Γ (s.declare name) ∧
      (s.declare name).distances = s.distances := by
  have htracks := h.tracks
  unfold Survey.declare at hclean ⊢
  cases hscopes : s.scopes with
  | nil =>
    rw [hscopes] at htracks
    cases Γ with
    | cons layer outer => exact htracks.elim
    | nil => exact ⟨h, rfl⟩
  | cons scope scopes =>
    rw [hscopes] at htracks hclean
    cases Γ with
    | nil => exact htracks.elim
    | cons layer outer =>
      dsimp only at hclean ⊢
      split at hclean
      · exact absurd hclean (faults_blame_ne _ _ _)
      · rename_i hnew
        rw [if_neg hnew]
        rw [htracks.1.contains] at hnew
        refine ⟨⟨⟨htracks.1.declare _, htracks.2⟩, ?_, h.proper, h.context_eq⟩, rfl⟩
        rintro _ ⟨⟩
        refine ⟨List.forall_mem_singleton.mpr ⟨name, hname, rfl⟩, layer, outer, rfl, ?_⟩
        simpa using hnew

/-- A complete name is declared in the enclosure from then on. -/
theorem At.define {s : Survey} {name : Token} (hname : name.IsName admits)
    (h : At admits context (Γ.pending name.lexeme) Γ s) :
    At admits context none (Γ.declare name.lexeme) (s.define name) ∧
      (s.define name).distances = s.distances := by
  have htracks := h.tracks
  have hproper := h.proper.declare hname
  have hcontext := h.context_eq.trans (Enclosure.classContext_declare name.lexeme Γ).symm
  unfold Survey.define
  cases hscopes : s.scopes with
  | nil =>
    rw [hscopes] at htracks
    cases Γ with
    | cons layer outer => exact htracks.elim
    | nil => exact ⟨h, rfl⟩
  | cons scope scopes =>
    rw [hscopes] at htracks
    cases Γ with
    | nil => exact htracks.elim
    | cons layer outer => exact ⟨⟨⟨htracks.1.define, htracks.2⟩, nofun, hproper, hcontext⟩, rfl⟩

theorem At.introduce {s : Survey} (h : At admits context none Γ s) {name : Token}
    (hname : name.IsName admits) (hclean : (s.introduce name).faults = []) :
    At admits context none (Γ.declare name.lexeme) (s.introduce name) ∧
      (s.introduce name).distances = s.distances := by
  have hdeclare := h.declare hname ((faults_define _ name).symm.trans hclean)
  have hdefine := hdeclare.1.define hname
  exact ⟨hdefine.1, hdefine.2.trans hdeclare.2⟩

theorem At.params {region : Region} {params : List Token} {names : List String} {s : Survey}
    (h : At admits context none (⟨region, names⟩ :: Γ) s)
    (hparams : ∀ t ∈ params, t.IsName admits) (hclean : (params.foldl Survey.introduce s).faults = []) :
    At admits context none (⟨region, (params.map Token.lexeme).reverse ++ names⟩ :: Γ)
        (params.foldl Survey.introduce s) ∧
      (params.foldl Survey.introduce s).distances = s.distances := by
  induction params generalizing names s with
  | nil => exact ⟨h, rfl⟩
  | cons name rest ih =>
    obtain ⟨hname, hrest⟩ := List.forall_mem_cons.mp hparams
    have hfirst := h.introduce hname (clean_of_params hclean)
    have hall := ih hfirst.1 hrest hclean
    refine ⟨?_, hall.2.trans hfirst.2⟩
    simpa using hall.1

/-! ## Statements -/

/-- A walk over statements finds some legal sites and ends in an enclosure. -/
structure Passes (admits : Token → Prop) (s : Survey) (sites : List Site) (Γ : Enclosure)
    (s' : Survey) : Prop where
  tracks : Tracks none s'.scopes Γ
  distances : s'.distances = s.distances ++ sites.filterMap Site.toEntry
  legal : ∀ site ∈ sites, site.Legal admits

theorem Finds.passes {s s' : Survey} {sites : List Site} (h : Finds admits s sites s')
    (ht : Tracks none s.scopes Γ) : Passes admits s sites Γ s' := by
  obtain ⟨rfl, hlegal⟩ := h
  exact ⟨ht, rfl, hlegal⟩

theorem Passes.append {s s' s'' : Survey} {first second : List Site} {Γ' : Enclosure}
    (h1 : Passes admits s first Γ s') (h2 : Passes admits s' second Γ' s'') :
    Passes admits s (first ++ second) Γ' s'' := by
  refine ⟨h2.tracks, ?_, List.forall_mem_append.mpr ⟨h1.legal, h2.legal⟩⟩
  rw [h2.distances, h1.distances, List.filterMap_append, List.append_assoc]

theorem Passes.of_eq {s s' s'' : Survey} {sites : List Site} (h : Passes admits s sites Γ s'')
    (hs : s.distances = s'.distances) : Passes admits s' sites Γ s'' :=
  ⟨h.tracks, by rw [h.distances, hs], h.legal⟩

theorem Passes.at {s s' : Survey} {sites : List Site} (h : Passes admits s sites Γ s')
    (hproper : Γ.Proper admits) (hcontext : context.classContext = Γ.classContext) :
    At admits context none Γ s' :=
  ⟨h.tracks, nofun, hproper, hcontext⟩

theorem Passes.leave {s s' : Survey} {sites : List Site} (h : Passes admits s sites Γ s') :
    Passes admits s sites Γ.tail s'.leave :=
  ⟨h.tracks.tail, h.distances, h.legal⟩

/-- The scopes around the methods of a class, after the survey of its name and superclass. -/
theorem enterClass_passes {s : Survey} (h : At admits context none Γ s) {name : Token}
    (hname : name.IsName admits) {superclass : Option Expr}
    (hsuperclass : ∀ parent ∈ superclass, parent.IsVariable admits)
    (methods : List FunctionDeclaration)
    (hclean : (enterClass context name superclass s).faults = []) (d : FunctionDeclaration) :
    Passes admits s (Expr.sitesOption Γ none superclass)
      ((Γ.ofClass name superclass methods).ofMethod d) (enterClass context name superclass s) := by
  cases superclass with
  | none =>
    have hintro := h.introduce hname hclean
    refine ⟨hintro.1.tracks.enter_single "this" _, ?_, fun _ hsite => absurd hsite List.not_mem_nil⟩
    exact hintro.2.trans (by simp [Expr.sitesOption])
  | some parent =>
    have hcheck := clean_of_visitExpr parent hclean
    have hchecked := clean_of_checkSuperclass hcheck
    obtain ⟨parent, rfl, -⟩ := hsuperclass parent rfl
    have hother := ne_of_checkSuperclass hcheck
    rw [hchecked] at hcheck
    have hintro := h.introduce hname hcheck
    have hvisit : enterClass context name (some (.variable parent)) s =
        ((visitExpr context (.variable parent) (s.introduce name)).enter ["super"]).enter
          ["this"] := by
      rw [enterClass, hchecked]
      rfl
    rw [hvisit] at hclean ⊢
    have hfound := visitExpr_finds (.variable parent) hintro.1 hclean
    -- The class is declared when its superclass is looked up; the two names differ.
    have hentry : (⟨parent, .read, Γ.declare name.lexeme, none⟩ : Site).toEntry =
        (⟨parent, .read, Γ, none⟩ : Site).toEntry := by
      simp only [Site.toEntry, Site.distance?, Site.name]
      rw [Γ.distance?_declare_ne hother]
    have hscopes : (visitExpr context (.variable parent) (s.introduce name)).scopes =
        (s.introduce name).scopes := by
      rw [hfound.1]
      rfl
    have htracks := hintro.1.tracks
    rw [← hscopes] at htracks
    refine ⟨(htracks.enter_single "super" _).enter_single "this" _, ?_, ?_⟩
    · rw [enter, enter, hfound.1]
      simp only [Survey.found, Expr.sites, Expr.sitesOption, hintro.2]
      simp only [List.filterMap_cons, hentry]
    · rintro _ (_ | ⟨_, ⟨⟩⟩)
      have hnone : Γ.Undeclared admits none := fun _ hx => absurd hx (Option.some_ne_none _).symm
      have hreceiver : Use.read ≠ .receiver := by decide
      have hancestry : Use.read ≠ .ancestry := by decide
      exact ⟨h.proper, hnone, fun huse => absurd huse hreceiver, fun huse => absurd huse hancestry⟩

theorem leaveClass_tracks {s : Survey} {name : Token} {superclass : Option Expr}
    {methods : List FunctionDeclaration} {d : FunctionDeclaration}
    (h : Tracks none s.scopes ((Γ.ofClass name superclass methods).ofMethod d)) :
    Tracks none (leaveClass superclass s).scopes (Γ.declare name.lexeme) := by
  cases superclass with
  | none => exact h.tail
  | some parent => exact h.tail.tail

theorem distances_leaveClass (superclass : Option Expr) (s : Survey) :
    (leaveClass superclass s).distances = s.distances := by
  unfold leaveClass
  split <;> rfl

end Walks

section Statements
variable {admits : Token → Prop}

mutual

/-- What a walk over a statement finds, and where it ends. -/
theorem visitStmt_passes {context : BindingContext} {Γ : Enclosure} (stmt : Stmt) {s : Survey}
    (h : At admits context none Γ s) (hwell : stmt.WellFormed admits)
    (hclean : (visitStmt context stmt s).faults = []) :
    Passes admits s (stmt.sites Γ) (stmt.after Γ) (visitStmt context stmt s) := by
  cases stmt with
  | expression value => exact (visitExpr_finds value h hclean).passes h.tracks
  | print keyword value => exact (visitExpr_finds value h hclean).passes h.tracks
  | «variable» name initializer =>
    have hinit := (faults_define _ name).symm.trans hclean
    have hdeclare := h.declare hwell.1 (clean_of_visitOption hinit)
    have hfound := visitOption_finds initializer hdeclare.1 hinit
    have hdefine := (hdeclare.1.after hfound).define hwell.1
    refine ⟨hdefine.1.tracks, ?_, hfound.2⟩
    rw [visitStmt, hdefine.2, hfound.1]
    exact congrArg (· ++ _) hdeclare.2
  | block body =>
    have henter : At admits context none (⟨.block body, []⟩ :: Γ) (s.enter []) :=
      ⟨⟨TracksLayer.empty _, h.tracks⟩, nofun, .block nofun h.proper, h.context_eq⟩
    have hbody := (visitStmts_passes body henter hwell hclean).leave
    rw [Stmt.tail_afterAll] at hbody
    exact hbody.of_eq rfl
  | conditional condition thenBranch elseBranch =>
    cases elseBranch with
    | none =>
      have hcondition := visitExpr_finds condition h (clean_of_visitStmt thenBranch hclean)
      have hthen := visitStmt_passes thenBranch (h.after hcondition) hwell.2.2 hclean
      rw [Stmt.after_of_isDeclaration Γ hwell.2.1] at hthen
      exact (hcondition.passes h.tracks).append hthen
    | some elseBranch =>
      have hmid := clean_of_visitStmt elseBranch hclean
      have hcondition := visitExpr_finds condition h (clean_of_visitStmt thenBranch hmid)
      have hthen := visitStmt_passes thenBranch (h.after hcondition) hwell.2.1.2 hmid
      rw [Stmt.after_of_isDeclaration Γ hwell.2.1.1] at hthen
      have helse := visitStmt_passes elseBranch (hthen.at h.proper h.context_eq) hwell.2.2.2 hclean
      rw [Stmt.after_of_isDeclaration Γ hwell.2.2.1] at helse
      exact ((hcondition.passes h.tracks).append hthen).append helse
  | loop condition body =>
    have hcondition := visitExpr_finds condition h (clean_of_visitStmt body hclean)
    have hbody := visitStmt_passes body (h.after hcondition) hwell.2.2 hclean
    rw [Stmt.after_of_isDeclaration Γ hwell.2.1] at hbody
    exact (hcondition.passes h.tracks).append hbody
  | function declaration =>
    obtain ⟨name, params, body⟩ := declaration
    have hintro := h.introduce hwell.1 (clean_of_visitFunction ⟨name, params, body⟩ hclean)
    exact (visitFunction_passes ⟨name, params, body⟩ hintro.1.tracks
      (fun hn => .function hn hintro.1.proper) hintro.1.context_eq hwell hclean).of_eq hintro.2
  | returnWith keyword value =>
    have hvalue := clean_of_visitOption hclean
    rw [visitStmt] at hclean ⊢
    split at hvalue
    · rename_i hinside
      rw [if_pos hinside] at hclean ⊢
      exact (visitOption_finds value h hclean).passes h.tracks
    · exact absurd hvalue (faults_blame_ne _ _ _)
  | classDeclaration name superclass methods =>
    have hmethods := (faults_leaveClass superclass _).symm.trans hclean
    have henter := enterClass_passes h hwell.1 hwell.2.1 methods
      (clean_of_visitMethods methods hmethods)
    have hcontext : ∀ d, Survey.classContext superclass =
        ((Γ.ofClass name superclass methods).ofMethod d).classContext := by
      intro d
      cases superclass with
      | none => exact ((h.proper.declare hwell.1).classContext_plain _ _).symm
      | some parent => rfl
    have hall := visitMethods_passes methods (fun d => (henter d).tracks)
      (fun d hd _ hn => h.proper.ofMethod hwell.1 superclass hd hn) hcontext hwell.2.2 hmethods
    have hpass := (henter ⟨name, [], []⟩).append (hall ⟨name, [], []⟩)
    exact ⟨leaveClass_tracks hpass.tracks, (distances_leaveClass _ _).trans hpass.distances,
      hpass.legal⟩

theorem visitStmts_passes {context : BindingContext} {Γ : Enclosure} (body : List Stmt) {s : Survey}
    (h : At admits context none Γ s) (hwell : Stmt.AllWellFormed admits body)
    (hclean : (visitStmts context body s).faults = []) :
    Passes admits s (Stmt.sitesAll Γ body) (Stmt.afterAll Γ body) (visitStmts context body s) := by
  cases body with
  | nil => exact (Finds.nil s).passes h.tracks
  | cons stmt rest =>
    have hfirst := visitStmt_passes stmt h hwell.1 (clean_of_visitStmts rest hclean)
    have hnext : At admits context none (stmt.after Γ) _ := hfirst.at (h.proper.after hwell.1)
      (h.context_eq.trans (stmt.classContext_after Γ).symm)
    exact hfirst.append (visitStmts_passes rest hnext hwell.2 hclean)

theorem visitFunction_passes {classContext : ClassContext} {Γ : Enclosure} (d : FunctionDeclaration)
    {s : Survey} (ht : Tracks none s.scopes Γ)
    (hproper : ∀ {names}, Named admits names → Enclosure.Proper admits (⟨.body d, names⟩ :: Γ))
    (hcontext : classContext = Γ.classContext) (hwell : d.WellFormed admits)
    (hclean : (visitFunction classContext d s).faults = []) :
    Passes admits s (d.sites Γ) Γ (visitFunction classContext d s) := by
  obtain ⟨name, params, body⟩ := d
  have henter : At admits ⟨true, classContext⟩ none (⟨.body ⟨name, params, body⟩, []⟩ :: Γ)
      (s.enter []) := ⟨⟨TracksLayer.empty _, ht⟩, nofun, hproper nofun, hcontext⟩
  have hparams := henter.params hwell.2.1 (clean_of_visitStmts body hclean)
  rw [List.append_nil] at hparams
  have hbody := (visitStmts_passes body hparams.1 hwell.2.2 hclean).leave
  rw [Stmt.tail_afterAll] at hbody
  exact hbody.of_eq hparams.2

theorem visitMethods_passes {classContext : ClassContext} {Γ : Enclosure}
    (methods : List FunctionDeclaration) {s : Survey}
    (ht : ∀ d, Tracks none s.scopes (Γ.ofMethod d))
    (hproper : ∀ d ∈ methods, ∀ {names}, Named admits names →
      Enclosure.Proper admits (⟨.body d, names⟩ :: Γ.ofMethod d))
    (hcontext : ∀ d, classContext = (Γ.ofMethod d).classContext)
    (hwell : FunctionDeclaration.AllWellFormed admits methods)
    (hclean : (visitMethods classContext methods s).faults = []) (last : FunctionDeclaration) :
    Passes admits s (FunctionDeclaration.sitesAll Γ methods) (Γ.ofMethod last)
      (visitMethods classContext methods s) := by
  cases methods with
  | nil => exact (Finds.nil s).passes (ht last)
  | cons d rest =>
    obtain ⟨hd, hrest⟩ := List.forall_mem_cons.mp hproper
    have hfirst := visitFunction_passes d (ht d) hd (hcontext d) hwell.1
      (clean_of_visitMethods rest hclean)
    have hnext : ∀ d', Tracks none (visitFunction classContext d s).scopes (Γ.ofMethod d') := by
      intro d'
      have htracks := hfirst.tracks
      revert htracks
      cases (visitFunction classContext d s).scopes with
      | nil => exact id
      | cons scope scopes => exact id
    have hlast := visitMethods_passes rest hnext hrest hcontext hwell.2 hclean last
    exact Passes.append hfirst hlast

end

end Statements

end Survey

/-- The distances of a program are those that the text gives to its sites, all of which are legal. -/
theorem survey_sites {admits : Token → Prop} {program : List Stmt} {entries : List DistanceEntry}
    (hwell : Stmt.AllWellFormed admits program) (h : survey program = .ok entries) :
    entries = (Stmt.sitesAll [] program).filterMap Site.toEntry ∧
      ∀ site ∈ Stmt.sitesAll [] program, site.Legal admits := by
  unfold survey at h
  dsimp only at h
  split at h
  · rename_i hclean
    cases h
    have hstart : Survey.At admits ⟨false, .outside⟩ none [] .start :=
      ⟨trivial, nofun, .globals, rfl⟩
    have hpass := Survey.visitStmts_passes program hstart hwell (List.isEmpty_iff.mp hclean)
    exact ⟨hpass.distances, hpass.legal⟩
  · cases h

/-! ## Recorded distances -/

/-- The identities of sites. -/
def siteIds (sites : List Site) : List Nat :=
  referenceIds (sites.map Site.reference)

theorem mem_siteIds {sites : List Site} {site : Site} (h : site ∈ sites) :
    site.reference.id ∈ siteIds sites :=
  List.mem_map_of_mem (List.mem_map_of_mem h)

theorem mem_siteIds_of_entry {sites : List Site} {entry : DistanceEntry}
    (h : entry ∈ sites.filterMap Site.toEntry) : entry.id ∈ siteIds sites := by
  obtain ⟨site, hsite, hentry⟩ := List.mem_filterMap.mp h
  obtain ⟨distance, -, rfl⟩ := Option.map_eq_some_iff.mp hentry
  exact mem_siteIds hsite

/-- The identities of the sites that have a distance, in the order of the sites. -/
theorem entryIds_sublist (sites : List Site) :
    ((sites.filterMap Site.toEntry).map DistanceEntry.id).Sublist (siteIds sites) := by
  induction sites with
  | nil => exact List.Sublist.slnil
  | cons site rest ih =>
    rw [List.filterMap_cons]
    unfold Site.toEntry at ih ⊢
    cases site.distance? with
    | none => exact ih.cons _
    | some distance => exact ih.cons_cons _

namespace Distances

theorem get?_record_of_not_mem {d : Distances} {entries : List DistanceEntry} {target : Reference}
    (h : ∀ entry ∈ entries, entry.id ≠ target.id) :
    (d.record entries).get? target = d.get? target := by
  induction entries generalizing d with
  | nil => rfl
  | cons entry rest ih =>
    obtain ⟨hentry, hrest⟩ := List.forall_mem_cons.mp h
    have hnext := ih (d := d.insert entry.id entry.distance) hrest
    rw [get?_insert, if_neg hentry] at hnext
    exact hnext

/-- What is recorded for sites leaves other references alone. -/
theorem get?_record_other {d : Distances} {sites : List Site} {target : Reference}
    (h : ∀ site ∈ sites, site.reference.id ≠ target.id) :
    (d.record (sites.filterMap Site.toEntry)).get? target = d.get? target := by
  refine get?_record_of_not_mem fun entry hentry heq => ?_
  obtain ⟨site, hsite, htoEntry⟩ := List.mem_filterMap.mp hentry
  obtain ⟨distance, -, rfl⟩ := Option.map_eq_some_iff.mp htoEntry
  exact h site hsite heq

/-- What is recorded for sites with identities of their own is found again. -/
theorem get?_record_sites {d : Distances} {sites : List Site} (hnodup : (siteIds sites).Nodup)
    {site : Site} (hsite : site ∈ sites) (hnew : d.get? site.reference = none) :
    (d.record (sites.filterMap Site.toEntry)).get? site.reference = site.distance? := by
  induction sites generalizing d with
  | nil => cases hsite
  | cons first rest ih =>
    obtain ⟨hfirst, hrest⟩ := List.nodup_cons.mp hnodup
    rw [List.filterMap_cons]
    rcases List.mem_cons.mp hsite with rfl | hmem
    · have hother : ∀ entry ∈ rest.filterMap Site.toEntry, entry.id ≠ site.reference.id :=
        fun entry hentry heq => hfirst (heq ▸ mem_siteIds_of_entry hentry)
      unfold Site.toEntry at hother ⊢
      cases hd : site.distance? with
      | none => exact (get?_record_of_not_mem hother).trans hnew
      | some distance =>
        refine (get?_record_of_not_mem (d := d.insert _ _) hother).trans ?_
        rw [get?_insert, if_pos rfl]
    · have hne : first.reference.id ≠ site.reference.id :=
        fun heq => hfirst (heq ▸ mem_siteIds hmem)
      cases hentry : first.toEntry with
      | none => exact ih hrest hmem hnew
      | some entry =>
        obtain ⟨distance, -, rfl⟩ := Option.map_eq_some_iff.mp hentry
        refine ih (d := d.insert _ _) hrest hmem ?_
        rw [get?_insert, if_neg hne, hnew]

end Distances

end LoxLang
