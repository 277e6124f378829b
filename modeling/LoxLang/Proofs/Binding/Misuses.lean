import LoxLang.Proofs.Binding.Agreement
import LoxLang.Proofs.Syntax.Program

/-!
Misuses of names and words. A `Spot` is a place of a program at which a name or word can be misused,
together with what lies around it; `Stmt.spots` lists the spots of a statement, and `Spot.misuse?` tells
what is wrong at one. The survey reports exactly what is wrong at the spots of a program
(`survey_reports_misuses`): while it walks, its open scopes follow the enclosure, whatever it has
reported on the way.
-/
namespace LoxLang
set_option autoImplicit false

/-! ## Spots and misuses -/

/-- A place at which a name or word can be misused. -/
inductive Spot where
  | declaration (name : Token) (enclosure : Enclosure)
  /-- The word `return`. -/
  | exit (keyword : Token) (enclosure : Enclosure)
  /-- A class and the name of its superclass. -/
  | inheritance (name parent : Token)
  | use (site : Site)

/-- Whether a region is the body of a function or method. -/
def Region.isBody : Region → Bool
  | .body _ => true
  | _ => false

/-- Whether a point lies in the body of a function or method. -/
def Enclosure.inFunction (Γ : Enclosure) : Bool :=
  Γ.any (·.region.isBody)

/-- What is wrong with a use. A local variable is not read in its own initializer unless a scope farther
out has declared the name before; `this` stands in the body of a class, and `super` in the body of one
that has a superclass, the innermost class deciding. -/
def Site.misuse? (site : Site) : Option BindingCause :=
  match site.use with
  | .read =>
    if site.initializing = some site.name ∧
        ∀ layer ∈ site.enclosure.tail, site.name ∉ layer.names then
      some .selfReferencingInitializer
    else none
  | .write => none
  | .receiver => if site.enclosure.classContext = .outside then some .thisOutsideClass else none
  | .ancestry =>
    match site.enclosure.classContext with
    | .outside => some .superOutsideClass
    | .plain => some .superWithoutSuperclass
    | .derived => none

namespace Spot

/-- The token at which a misuse is reported. -/
def token : Spot → Token
  | .declaration name _ => name
  | .exit keyword _ => keyword
  | .inheritance _ parent => parent
  | .use site => site.reference.name

/-- What is wrong at a spot. A name is declared once in a scope, `return` stands in the body of a function,
and a class has another name than its superclass. -/
def misuse? : Spot → Option BindingCause
  | .declaration name Γ =>
    if name.lexeme ∈ Γ.innermost then some .duplicateDeclaration else none
  | .exit _ Γ => if Γ.inFunction then none else some .returnOutsideFunction
  | .inheritance name parent =>
    if parent.lexeme = name.lexeme then some .selfInheritance else none
  | .use site => site.misuse?

theorem misuse?_read_of_ne {target : Reference} {Γ : Enclosure} {p : Option String}
    (h : p ≠ some target.name.lexeme) : misuse? (.use ⟨target, .read, Γ, p⟩) = none :=
  if_neg fun hown => h hown.1

/-- A reading outside of initializers is never a misuse. -/
theorem misuse?_read_elsewhere (target : Reference) (Γ : Enclosure) :
    misuse? (.use ⟨target, .read, Γ, none⟩) = none :=
  misuse?_read_of_ne (Option.some_ne_none _).symm

theorem misuse?_read_own (target : Reference) (Γ : Enclosure) :
    misuse? (.use ⟨target, .read, Γ, some target.name.lexeme⟩) =
      if Enclosure.distance? target.name.lexeme Γ.tail = none then some .selfReferencingInitializer
      else none := by
  have hlost : (∀ layer ∈ Γ.tail, target.name.lexeme ∉ layer.names) ↔
      Enclosure.distance? target.name.lexeme Γ.tail = none := Enclosure.distance?_eq_none.symm
  simp [misuse?, Site.misuse?, Site.name, hlost]

theorem misuse?_receiver (keyword : Reference) (Γ : Enclosure) (p : Option String) :
    misuse? (.use ⟨keyword, .receiver, Γ, p⟩) =
      if Γ.classContext = .outside then some .thisOutsideClass else none :=
  rfl

theorem misuse?_ancestry (keyword : Reference) (Γ : Enclosure) (p : Option String) :
    misuse? (.use ⟨keyword, .ancestry, Γ, p⟩) =
      match Γ.classContext with
      | .outside => some .superOutsideClass
      | .plain => some .superWithoutSuperclass
      | .derived => none :=
  rfl

theorem misuse?_declaration (name : Token) (Γ : Enclosure) :
    misuse? (.declaration name Γ) =
      if name.lexeme ∈ Γ.innermost then some .duplicateDeclaration else none :=
  rfl

/-- The fault that a misuse is. -/
def fault? (spot : Spot) : Option BindingFault :=
  spot.misuse?.map (⟨·, spot.token⟩)

theorem fault?_eq_none {spot : Spot} (h : spot.misuse? = none) : spot.fault? = none := by
  rw [fault?, h]
  rfl

theorem fault?_eq_some {spot : Spot} {cause : BindingCause} (h : spot.misuse? = some cause) :
    spot.fault? = some ⟨cause, spot.token⟩ := by
  rw [fault?, h]
  rfl

/-- The spots of names that are declared one after the other. -/
def declarations (Γ : Enclosure) : List Token → List Spot
  | [] => []
  | name :: rest => .declaration name Γ :: declarations (Γ.declare name.lexeme) rest

/-- A superclass that is a variable must not be the class itself. -/
def ofSuperclass (name : Token) (superclass : Expr) : List Spot :=
  superclass.target?.toList.map fun parent => .inheritance name parent.name

/-- The spots of a class outside of its methods. -/
def ofClass (Γ : Enclosure) (name : Token) : Option Expr → List Spot
  | none => [.declaration name Γ]
  | some parent =>
    .declaration name Γ :: (ofSuperclass name parent ++ (parent.sites Γ none).map .use)

end Spot

mutual

/-- The spots of a statement, in the order in which a walk comes to them. -/
def Stmt.spots (Γ : Enclosure) : Stmt → List Spot
  | .expression value => (value.sites Γ none).map .use
  | .print _ value => (value.sites Γ none).map .use
  | .variable name initializer =>
    .declaration name Γ :: (Expr.sitesOption Γ (Γ.pending name.lexeme) initializer).map .use
  | .block body => Stmt.spotsAll (⟨.block body, []⟩ :: Γ) body
  | .conditional condition thenBranch none =>
    (condition.sites Γ none).map .use ++ thenBranch.spots Γ
  | .conditional condition thenBranch (some elseBranch) =>
    (condition.sites Γ none).map .use ++ thenBranch.spots Γ ++ elseBranch.spots Γ
  | .loop condition body => (condition.sites Γ none).map .use ++ body.spots Γ
  | .function declaration =>
    .declaration declaration.name Γ :: declaration.spots (Γ.declare declaration.name.lexeme)
  | .returnWith keyword value => .exit keyword Γ :: (Expr.sitesOption Γ none value).map .use
  | .classDeclaration name superclass methods =>
    Spot.ofClass Γ name superclass ++
      FunctionDeclaration.spotsAll (Γ.ofClass name superclass methods) methods

/-- The spots of statements, each in the enclosure that those before it leave. -/
def Stmt.spotsAll (Γ : Enclosure) : List Stmt → List Spot
  | [] => []
  | s :: rest => s.spots Γ ++ Stmt.spotsAll (s.after Γ) rest

/-- The spots of a function: its parameters are declared in the scope of its body. -/
def FunctionDeclaration.spots (Γ : Enclosure) : FunctionDeclaration → List Spot
  | ⟨name, params, body⟩ =>
    Spot.declarations (⟨.body ⟨name, params, body⟩, []⟩ :: Γ) params ++
      Stmt.spotsAll (Γ.ofFunction ⟨name, params, body⟩) body

/-- The spots of the methods of a class. -/
def FunctionDeclaration.spotsAll (Γ : Enclosure) : List FunctionDeclaration → List Spot
  | [] => []
  | d :: rest => d.spots (Γ.ofMethod d) ++ FunctionDeclaration.spotsAll Γ rest

end

/-- Everything that is wrong with the names and words of a program. -/
def misuses (program : List Stmt) : List BindingFault :=
  (Stmt.spotsAll [] program).filterMap Spot.fault?

theorem Enclosure.inFunction_declare (name : String) (Γ : Enclosure) :
    (Γ.declare name).inFunction = Γ.inFunction := by
  cases Γ <;> rfl

theorem Stmt.inFunction_after (Γ : Enclosure) (s : Stmt) :
    (s.after Γ).inFunction = Γ.inFunction := by
  cases s with
  | «variable» name initializer => exact Γ.inFunction_declare name.lexeme
  | function declaration => exact Γ.inFunction_declare declaration.name.lexeme
  | classDeclaration name superclass methods => exact Γ.inFunction_declare name.lexeme
  | _ => rfl

namespace Survey

/-! ## Walks that report -/

/-- A walk has reached a point, whatever it has reported before: the open scopes and the context are
those of the enclosure. -/
structure Reaches (admits : Token → Prop) (context : BindingContext) (p : Option String)
    (Γ : Enclosure) (s : Survey) : Prop where
  tracks : Tracks p s.scopes Γ
  proper : Γ.Proper admits
  initializing : Γ = [] → p = none
  class_eq : context.classContext = Γ.classContext
  function_eq : context.inFunction = Γ.inFunction

/-- A walk reports what is wrong at some spots, and ends in an enclosure. -/
structure Reports (s : Survey) (spots : List Spot) (p : Option String) (Γ : Enclosure)
    (s' : Survey) : Prop where
  tracks : Tracks p s'.scopes Γ
  faults : s'.faults = s.faults ++ spots.filterMap Spot.fault?

section Parts
variable {admits : Token → Prop} {context : BindingContext} {p : Option String} {Γ : Enclosure}
  {s s' s'' : Survey}

theorem Reports.nil (h : Tracks p s.scopes Γ) : Reports s [] p Γ s :=
  ⟨h, (List.append_nil _).symm⟩

theorem Reports.append {first second : List Spot} {p' : Option String} {Γ' : Enclosure}
    (h1 : Reports s first p Γ s') (h2 : Reports s' second p' Γ' s'') :
    Reports s (first ++ second) p' Γ' s'' := by
  refine ⟨h2.tracks, ?_⟩
  rw [h2.faults, h1.faults, List.filterMap_append, List.append_assoc]

/-- Nothing is reported at a spot where nothing is wrong. -/
theorem Reports.silent {spot : Spot} (hspot : spot.misuse? = none) (ht : Tracks p s'.scopes Γ)
    (hf : s'.faults = s.faults) : Reports s [spot] p Γ s' := by
  refine ⟨ht, ?_⟩
  rw [hf, List.filterMap_cons_none (Spot.fault?_eq_none hspot)]
  exact (List.append_nil _).symm

theorem Reports.blamed {spot : Spot} {cause : BindingCause} (hspot : spot.misuse? = some cause)
    (ht : Tracks p s.scopes Γ) : Reports s [spot] p Γ (s.blame cause spot.token) := by
  refine ⟨ht, ?_⟩
  rw [List.filterMap_cons_some (Spot.fault?_eq_some hspot)]
  rfl

theorem Reaches.after (h : Reaches admits context p Γ s) {spots : List Spot}
    (hr : Reports s spots p Γ s') : Reaches admits context p Γ s' :=
  ⟨hr.tracks, h.proper, h.initializing, h.class_eq, h.function_eq⟩

theorem scopes_resolve (s : Survey) (target : Reference) :
    (s.resolve target).scopes = s.scopes := by
  unfold resolve
  split <;> rfl

theorem Reports.resolve {spot : Spot} (hspot : spot.misuse? = none) (ht : Tracks p s.scopes Γ)
    (target : Reference) : Reports s [spot] p Γ (s.resolve target) :=
  .silent hspot (by rwa [scopes_resolve]) (faults_resolve s target)

/-- A reading in the initializer of the variable is blamed if no scope farther out has its name. -/
theorem Reaches.resolveRead (h : Reaches admits context p Γ s) (target : Reference) :
    Reports s [.use ⟨target, .read, Γ, p⟩] p Γ (s.resolveRead target) := by
  have htracks := h.tracks
  unfold Survey.resolveRead
  cases hscopes : s.scopes with
  | nil =>
    rw [hscopes] at htracks
    cases Γ with
    | cons layer outer => exact htracks.elim
    | nil =>
      have hglobal : p ≠ some target.name.lexeme := by
        rw [h.initializing rfl]
        nofun
      exact .resolve (Spot.misuse?_read_of_ne hglobal) h.tracks target
  | cons scope scopes =>
    rw [hscopes] at htracks
    cases Γ with
    | nil => exact htracks.elim
    | cons layer outer =>
      have hname := htracks.1 target.name.lexeme
      dsimp only
      by_cases hown : p = some target.name.lexeme
      · subst hown
        have hmisuse := Spot.misuse?_read_own target (layer :: outer)
        rw [if_pos rfl] at hname
        rw [if_pos hname, htracks.2.distanceIn?]
        rw [List.tail_cons] at hmisuse
        cases hd : Enclosure.distance? target.name.lexeme outer with
        | none =>
          rw [if_pos hd] at hmisuse
          exact .blamed hmisuse h.tracks
        | some distance =>
          rw [if_neg (by rw [hd]; nofun)] at hmisuse
          exact .silent hmisuse h.tracks rfl
      · have hcomplete : scope.get? target.name.lexeme ≠ some false := by
          rw [hname, if_neg hown]
          split <;> nofun
        rw [if_neg hcomplete]
        exact .resolve (Spot.misuse?_read_of_ne hown) h.tracks target

mutual

/-- A walk over an expression reports what is wrong at its sites, and leaves the scopes as they are. -/
theorem visitExpr_reports (e : Expr) {s : Survey} (h : Reaches admits context p Γ s) :
    Reports s ((e.sites Γ p).map .use) p Γ (visitExpr context e s) := by
  cases e with
  | literal value => exact .nil h.tracks
  | unary operator operand => exact visitExpr_reports operand h
  | binary left operator right =>
    rw [Expr.sites, List.map_append]
    have hleft := visitExpr_reports left h
    exact hleft.append (visitExpr_reports right (h.after hleft))
  | logical left operator right =>
    rw [Expr.sites, List.map_append]
    have hleft := visitExpr_reports left h
    exact hleft.append (visitExpr_reports right (h.after hleft))
  | grouping inner => exact visitExpr_reports inner h
  | «variable» target => exact h.resolveRead target
  | assign target value =>
    rw [Expr.sites, List.map_append]
    have hvalue := visitExpr_reports value h
    exact hvalue.append (.resolve rfl hvalue.tracks target)
  | call callee paren arguments =>
    rw [Expr.sites, List.map_append]
    have hcallee := visitExpr_reports callee h
    exact hcallee.append (visitExprs_reports arguments (h.after hcallee))
  | get object name => exact visitExpr_reports object h
  | set object name value =>
    rw [Expr.sites, List.map_append]
    have hvalue := visitExpr_reports value h
    exact hvalue.append (visitExpr_reports object (h.after hvalue))
  | thisObject keyword =>
    have hmisuse := Spot.misuse?_receiver keyword Γ p
    rw [visitExpr, h.class_eq]
    cases hclass : Γ.classContext with
    | outside =>
      rw [if_pos hclass] at hmisuse
      exact .blamed hmisuse h.tracks
    | plain | derived =>
      rw [if_neg (by rw [hclass]; decide)] at hmisuse
      exact .resolve hmisuse h.tracks keyword
  | superMethod keyword method =>
    have hmisuse := Spot.misuse?_ancestry keyword Γ p
    rw [visitExpr, h.class_eq]
    cases hclass : Γ.classContext with
    | outside | plain =>
      rw [hclass] at hmisuse
      exact .blamed hmisuse h.tracks
    | derived =>
      rw [hclass] at hmisuse
      exact .resolve hmisuse h.tracks keyword

theorem visitExprs_reports (es : List Expr) {s : Survey} (h : Reaches admits context p Γ s) :
    Reports s ((Expr.sitesAll Γ p es).map .use) p Γ (visitExprs context es s) := by
  cases es with
  | nil => exact .nil h.tracks
  | cons e rest =>
    rw [Expr.sitesAll, List.map_append]
    have hfirst := visitExpr_reports e h
    exact hfirst.append (visitExprs_reports rest (h.after hfirst))

end

theorem visitOption_reports (e : Option Expr) (h : Reaches admits context p Γ s) :
    Reports s ((Expr.sitesOption Γ p e).map .use) p Γ (visitOption context e s) := by
  cases e with
  | none => exact .nil h.tracks
  | some e => exact visitExpr_reports e h

/-! ## Declarations and scopes -/

/-- A name that the innermost scope has already is blamed, and becomes incomplete all the same. -/
theorem Reports.declare (h : Tracks none s.scopes Γ) (name : Token) :
    Reports s [.declaration name Γ] (Γ.pending name.lexeme) Γ (s.declare name) := by
  have hmisuse := Spot.misuse?_declaration name Γ
  unfold Survey.declare
  cases hscopes : s.scopes with
  | nil =>
    rw [hscopes] at h
    cases Γ with
    | cons layer outer => exact h.elim
    | nil =>
      refine .silent hmisuse ?_ rfl
      rw [hscopes]
      trivial
  | cons scope scopes =>
    rw [hscopes] at h
    cases Γ with
    | nil => exact h.elim
    | cons layer outer =>
      have hdeclared : Tracks (some name.lexeme) (scope.insert name.lexeme false :: scopes)
          (layer :: outer) := ⟨h.1.declare _, h.2⟩
      have hcontains : scope.contains name.lexeme = decide (name.lexeme ∈ layer.names) := by
        simpa using h.1.contains name.lexeme
      rw [Enclosure.innermost] at hmisuse
      dsimp only
      by_cases hold : name.lexeme ∈ layer.names
      · rw [if_pos (hcontains.trans (decide_eq_true hold))]
        rw [if_pos hold] at hmisuse
        exact ⟨hdeclared, (Reports.blamed hmisuse hdeclared).faults⟩
      · rw [if_neg (by rw [hcontains]; simpa using hold)]
        rw [if_neg hold] at hmisuse
        exact .silent hmisuse hdeclared rfl

theorem Reports.define {name : Token} (h : Tracks (Γ.pending name.lexeme) s.scopes Γ) :
    Reports s [] none (Γ.declare name.lexeme) (s.define name) := by
  refine ⟨?_, (faults_define s name).trans (List.append_nil _).symm⟩
  unfold Survey.define
  cases hscopes : s.scopes with
  | nil =>
    rw [hscopes] at h
    cases Γ with
    | cons layer outer => exact h.elim
    | nil =>
      rw [hscopes]
      trivial
  | cons scope scopes =>
    rw [hscopes] at h
    cases Γ with
    | nil => exact h.elim
    | cons layer outer => exact ⟨h.1.define, h.2⟩

theorem Reports.introduce (h : Tracks none s.scopes Γ) (name : Token) :
    Reports s [.declaration name Γ] none (Γ.declare name.lexeme) (s.introduce name) := by
  have hdeclare := Reports.declare h name
  exact hdeclare.append (.define hdeclare.tracks)

theorem Reports.params {region : Region} {names : List String}
    (h : Tracks none s.scopes (⟨region, names⟩ :: Γ)) (params : List Token) :
    Reports s (Spot.declarations (⟨region, names⟩ :: Γ) params) none
      (⟨region, (params.map Token.lexeme).reverse ++ names⟩ :: Γ)
      (params.foldl Survey.introduce s) := by
  induction params generalizing names s with
  | nil => exact .nil h
  | cons name rest ih =>
    have hfirst := Reports.introduce h name
    have hall := hfirst.append (ih hfirst.tracks)
    simpa [Spot.declarations, Enclosure.declare] using hall

theorem Reports.leave {spots : List Spot} (h : Reports s spots none Γ s') :
    Reports s spots none Γ.tail s'.leave :=
  ⟨h.tracks.tail, h.faults⟩

theorem checkSuperclass_reports (h : Tracks none s.scopes Γ) (name : Token) (parent : Reference) :
    Reports s [.inheritance name parent.name] none Γ
      (checkSuperclass name (.variable parent) s) := by
  rw [checkSuperclass_variable]
  split
  · rename_i hself
    have hmisuse : (Spot.inheritance name parent.name).misuse? = some .selfInheritance :=
      if_pos hself
    exact .blamed hmisuse h
  · rename_i hother
    exact .silent (if_neg hother) h rfl

/-- After its name a class knows its superclass, which must not be itself. -/
theorem enterClass_reports (h : Reaches admits context none Γ s) {name : Token}
    (hname : name.IsName admits) {superclass : Option Expr}
    (hsuperclass : ∀ parent ∈ superclass, parent.IsVariable admits)
    (methods : List FunctionDeclaration) (d : FunctionDeclaration) :
    Reports s (Spot.ofClass Γ name superclass) none
      ((Γ.ofClass name superclass methods).ofMethod d)
      (enterClass context name superclass s) := by
  have hintro := Reports.introduce h.tracks name
  cases superclass with
  | none => exact ⟨hintro.tracks.enter_single "this" _, hintro.faults⟩
  | some parent =>
    obtain ⟨parent, rfl, -⟩ := hsuperclass parent rfl
    have hinheritance := checkSuperclass_reports hintro.tracks name parent
    have hat : Reaches admits context none (Γ.declare name.lexeme)
        (checkSuperclass name (.variable parent) (s.introduce name)) :=
      ⟨hinheritance.tracks, h.proper.declare hname, fun _ => rfl,
        h.class_eq.trans (Γ.classContext_declare _).symm,
        h.function_eq.trans (Γ.inFunction_declare _).symm⟩
    -- The class is declared already when its superclass is read, which is a misuse neither way.
    have hread : Reports (checkSuperclass name (.variable parent) (s.introduce name))
        [.use ⟨parent, .read, Γ, none⟩] none (Γ.declare name.lexeme)
        ((checkSuperclass name (.variable parent) (s.introduce name)).resolveRead parent) := by
      have hdeclared := hat.resolveRead parent
      refine .silent (Spot.misuse?_read_elsewhere parent Γ) hdeclared.tracks ?_
      have hnothing := Spot.fault?_eq_none
        (Spot.misuse?_read_elsewhere parent (Γ.declare name.lexeme))
      rw [hdeclared.faults, List.filterMap_cons_none hnothing]
      exact List.append_nil _
    have hall := hintro.append (hinheritance.append hread)
    exact ⟨(hall.tracks.enter_single "super" _).enter_single "this" _, hall.faults⟩

end Parts

/-! ## Statements -/

section Statements
variable {admits : Token → Prop}

mutual

/-- A walk over a statement reports what is wrong at its spots, and ends in the enclosure after it. -/
theorem visitStmt_reports {context : BindingContext} {Γ : Enclosure} (stmt : Stmt) {s : Survey}
    (h : Reaches admits context none Γ s) (hwell : stmt.WellFormed admits) :
    Reports s (stmt.spots Γ) none (stmt.after Γ) (visitStmt context stmt s) := by
  cases stmt with
  | expression value => exact visitExpr_reports value h
  | print keyword value => exact visitExpr_reports value h
  | «variable» name initializer =>
    have hdeclare := Reports.declare h.tracks name
    have hat : Reaches admits context (Γ.pending name.lexeme) Γ (s.declare name) :=
      ⟨hdeclare.tracks, h.proper, by rintro rfl; rfl, h.class_eq, h.function_eq⟩
    have hvalue := hdeclare.append (visitOption_reports initializer hat)
    have hall := hvalue.append (.define hvalue.tracks)
    rwa [List.append_nil] at hall
  | block body =>
    have henter : Reaches admits context none (⟨.block body, []⟩ :: Γ) (s.enter []) :=
      ⟨⟨TracksLayer.empty _, h.tracks⟩, .block nofun h.proper, fun _ => rfl, h.class_eq,
        h.function_eq⟩
    have hbody := (visitStmts_reports body henter hwell).leave
    rw [Stmt.tail_afterAll] at hbody
    exact ⟨hbody.tracks, hbody.faults⟩
  | conditional condition thenBranch elseBranch =>
    have hcondition := visitExpr_reports condition h
    cases elseBranch with
    | none =>
      have hthen := visitStmt_reports thenBranch (h.after hcondition) hwell.2.2
      rw [Stmt.after_of_isDeclaration Γ hwell.2.1] at hthen
      exact hcondition.append hthen
    | some elseBranch =>
      have hthen := visitStmt_reports thenBranch (h.after hcondition) hwell.2.1.2
      rw [Stmt.after_of_isDeclaration Γ hwell.2.1.1] at hthen
      have helse := visitStmt_reports elseBranch ((h.after hcondition).after hthen) hwell.2.2.2
      rw [Stmt.after_of_isDeclaration Γ hwell.2.2.1] at helse
      exact (hcondition.append hthen).append helse
  | loop condition body =>
    have hcondition := visitExpr_reports condition h
    have hbody := visitStmt_reports body (h.after hcondition) hwell.2.2
    rw [Stmt.after_of_isDeclaration Γ hwell.2.1] at hbody
    exact hcondition.append hbody
  | function declaration =>
    obtain ⟨name, params, body⟩ := declaration
    have hintro := Reports.introduce h.tracks name
    have hproper := h.proper.declare hwell.1
    have hclass := h.class_eq.trans (Γ.classContext_declare name.lexeme).symm
    exact hintro.append (visitFunction_reports ⟨name, params, body⟩ hintro.tracks
      (fun hn => .function hn hproper) hclass hwell)
  | returnWith keyword value =>
    have hexit : Reports s [.exit keyword Γ] none Γ
        (if context.inFunction then s else s.blame .returnOutsideFunction keyword) := by
      rw [h.function_eq]
      split
      · rename_i hinside
        exact .silent (if_pos hinside) h.tracks rfl
      · rename_i houtside
        have hmisuse : (Spot.exit keyword Γ).misuse? = some .returnOutsideFunction :=
          if_neg houtside
        exact .blamed hmisuse h.tracks
    exact hexit.append (visitOption_reports value (h.after hexit))
  | classDeclaration name superclass methods =>
    have henter := enterClass_reports h hwell.1 hwell.2.1 methods
    have hcontext : ∀ d, Survey.classContext superclass =
        ((Γ.ofClass name superclass methods).ofMethod d).classContext := by
      intro d
      cases superclass with
      | none => exact ((h.proper.declare hwell.1).classContext_plain _ _).symm
      | some parent => rfl
    have hall := (henter ⟨name, [], []⟩).append (visitMethods_reports methods
      (fun d => (henter d).tracks) (fun d hd _ hn => h.proper.ofMethod hwell.1 superclass hd hn)
      hcontext hwell.2.2 ⟨name, [], []⟩)
    exact ⟨leaveClass_tracks hall.tracks, (faults_leaveClass _ _).trans hall.faults⟩

theorem visitStmts_reports {context : BindingContext} {Γ : Enclosure} (body : List Stmt)
    {s : Survey} (h : Reaches admits context none Γ s) (hwell : Stmt.AllWellFormed admits body) :
    Reports s (Stmt.spotsAll Γ body) none (Stmt.afterAll Γ body) (visitStmts context body s) := by
  cases body with
  | nil => exact .nil h.tracks
  | cons stmt rest =>
    have hfirst := visitStmt_reports stmt h hwell.1
    have hnext : Reaches admits context none (stmt.after Γ) (visitStmt context stmt s) :=
      ⟨hfirst.tracks, h.proper.after hwell.1, fun _ => rfl,
        h.class_eq.trans (stmt.classContext_after Γ).symm,
        h.function_eq.trans (stmt.inFunction_after Γ).symm⟩
    exact hfirst.append (visitStmts_reports rest hnext hwell.2)

theorem visitFunction_reports {classContext : ClassContext} {Γ : Enclosure}
    (d : FunctionDeclaration) {s : Survey} (ht : Tracks none s.scopes Γ)
    (hproper : ∀ {names}, Named admits names → Enclosure.Proper admits (⟨.body d, names⟩ :: Γ))
    (hclass : classContext = Γ.classContext) (hwell : d.WellFormed admits) :
    Reports s (d.spots Γ) none Γ (visitFunction classContext d s) := by
  obtain ⟨name, params, body⟩ := d
  have hopen : Tracks none (s.enter []).scopes (⟨.body ⟨name, params, body⟩, []⟩ :: Γ) :=
    ⟨TracksLayer.empty _, ht⟩
  have hparams := Reports.params hopen params
  rw [List.append_nil] at hparams
  have hnamed : Named admits (params.map Token.lexeme).reverse := by
    intro x hx
    obtain ⟨t, ht, rfl⟩ := List.mem_map.mp (List.mem_reverse.mp hx)
    exact ⟨t, hwell.2.1 t ht, rfl⟩
  have hat : Reaches admits ⟨true, classContext⟩ none (Γ.ofFunction ⟨name, params, body⟩)
      (params.foldl introduce (s.enter [])) :=
    ⟨hparams.tracks, hproper hnamed, fun _ => rfl, hclass, rfl⟩
  have hbody := (hparams.append (visitStmts_reports body hat hwell.2.2)).leave
  rw [Stmt.tail_afterAll] at hbody
  exact ⟨hbody.tracks, hbody.faults⟩

theorem visitMethods_reports {classContext : ClassContext} {Γ : Enclosure}
    (methods : List FunctionDeclaration) {s : Survey}
    (ht : ∀ d, Tracks none s.scopes (Γ.ofMethod d))
    (hproper : ∀ d ∈ methods, ∀ {names}, Named admits names →
      Enclosure.Proper admits (⟨.body d, names⟩ :: Γ.ofMethod d))
    (hclass : ∀ d, classContext = (Γ.ofMethod d).classContext)
    (hwell : FunctionDeclaration.AllWellFormed admits methods) (last : FunctionDeclaration) :
    Reports s (FunctionDeclaration.spotsAll Γ methods) none (Γ.ofMethod last)
      (visitMethods classContext methods s) := by
  cases methods with
  | nil => exact .nil (ht last)
  | cons d rest =>
    obtain ⟨hd, hrest⟩ := List.forall_mem_cons.mp hproper
    have hfirst := visitFunction_reports d (ht d) hd (hclass d) hwell.1
    have hnext : ∀ d', Tracks none (visitFunction classContext d s).scopes (Γ.ofMethod d') := by
      intro d'
      have htracks := hfirst.tracks
      revert htracks
      cases (visitFunction classContext d s).scopes with
      | nil => exact id
      | cons scope scopes => exact id
    exact Reports.append hfirst (visitMethods_reports rest hnext hrest hclass hwell.2 last)

end

end Statements

end Survey

/-- The survey of a program that has been read reports everything that is wrong with its names and
words, each misuse once and in the order of the text, and nothing else. It gives distances exactly if
nothing is wrong. -/
theorem survey_reports_misuses {tokens : List Token} {nextId : Nat} {program : List Stmt}
    (h : programOfItems (programItems tokens nextId).1 = .ok program) :
    (∀ faults, survey program = .error faults ↔ faults = misuses program ∧ faults ≠ []) ∧
      ((∃ distances, survey program = .ok distances) ↔ misuses program = []) := by
  have hwell := (@program_good (fun _ => True) _ _ _ (fun _ _ => trivial) h).1
  have hstart : Survey.Reaches (fun _ => True) ⟨false, .outside⟩ none [] .start :=
    ⟨trivial, .globals, fun _ => rfl, rfl, rfl⟩
  have hfaults : (Survey.visitStmts ⟨false, .outside⟩ program .start).faults = misuses program :=
    (Survey.visitStmts_reports program hstart hwell).faults
  have hsurvey : survey program = if (misuses program).isEmpty
      then .ok (Survey.visitStmts ⟨false, .outside⟩ program .start).distances
      else .error (misuses program) := by
    rw [← hfaults]
    rfl
  rw [hsurvey]
  cases hm : misuses program with
  | nil => simp
  | cons first rest =>
    refine ⟨fun faults => ⟨?_, ?_⟩, ?_⟩
    · rintro ⟨⟩
      exact ⟨rfl, List.cons_ne_nil first rest⟩
    · rintro ⟨rfl, -⟩
      rfl
    · simp

/-- In the program

    return super.a; { var a; var a = a; } class A < A {} class B { a(a, a) { super.a; this; } } this;

every kind of misuse is reported. -/
theorem survey_reports_misuses_of_every_kind :
    let name (text : String) : Token := ⟨.identifier, text, 1⟩
    let word (k : Keyword) : Token := ⟨.keyword k, k.spelling, 1⟩
    let sign (s : Symbol) : Token := ⟨.symbol s, "", 1⟩
    let tokens : List Token :=
      [word .returnWord, word .superWord, sign .dot, name "a", sign .semicolon, sign .leftBrace,
        word .varWord, name "a", sign .semicolon, word .varWord, name "a", sign .equal, name "a",
        sign .semicolon, sign .rightBrace, word .classWord, name "A", sign .less, name "A",
        sign .leftBrace, sign .rightBrace, word .classWord, name "B", sign .leftBrace, name "a",
        sign .leftParen, name "a", sign .comma, name "a", sign .rightParen, sign .leftBrace,
        word .superWord, sign .dot, name "a", sign .semicolon, word .thisWord, sign .semicolon,
        sign .rightBrace, sign .rightBrace, word .thisWord, sign .semicolon]
    ∃ program, programOfItems (programItems tokens 0).1 = .ok program ∧
      survey program = .error (misuses program) ∧
      (misuses program).map BindingFault.cause =
        [.returnOutsideFunction, .superOutsideClass, .duplicateDeclaration,
          .selfReferencingInitializer, .selfInheritance, .duplicateDeclaration,
          .superWithoutSuperclass, .thisOutsideClass] := by
  intro name word sign tokens
  have hread : (programOfItems (programItems tokens 0).1).toOption.any (fun program =>
      (misuses program).map BindingFault.cause ==
        [.returnOutsideFunction, .superOutsideClass, .duplicateDeclaration,
          .selfReferencingInitializer, .selfInheritance, .duplicateDeclaration,
          .superWithoutSuperclass, .thisOutsideClass]) = true := by
    decide +kernel
  obtain ⟨program, hprogram, hcauses⟩ := (Option.any_eq_true _ _).mp hread
  have hcauses := eq_of_beq hcauses
  have hok : programOfItems (programItems tokens 0).1 = .ok program := by
    revert hprogram
    cases programOfItems (programItems tokens 0).1 with
    | error faults => nofun
    | ok found =>
      rintro ⟨⟩
      rfl
  have hsome : misuses program ≠ [] := by
    intro hnil
    rw [hnil] at hcauses
    cases hcauses
  exact ⟨program, hok, ((survey_reports_misuses hok).1 _).mpr ⟨rfl, hsome⟩, hcauses⟩

end LoxLang
