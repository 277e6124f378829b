import LoxLang.Binding.Survey
import LoxLang.Proofs.Syntax.Trees

/-!
Where references stand. An enclosure lists what lies around a point of a program from the innermost
region outward, each region with the names declared in it before that point; the global scope is not
among them. A site is a reference together with its enclosure, and `Stmt.sites` lists the sites of a
statement. `Site.distance?` is the distance that the text alone gives to a site.
-/
namespace LoxLang
set_option autoImplicit false

/-! ## Regions and enclosures -/

/-- A piece of text that has a scope of its own each time it is entered. -/
inductive Region where
  | block (body : List Stmt)
  /-- The parameters of a function or method together with its body. -/
  | body (declaration : FunctionDeclaration)
  /-- Around a single method; `this` is declared here. -/
  | receiver (method : FunctionDeclaration)
  /-- Around the methods of a class with a superclass; `super` is declared here. -/
  | ancestry (name : Token) (methods : List FunctionDeclaration)

/-- A region and the names declared in it so far, the latest first. -/
structure Layer where
  region : Region
  names : List String

/-- The layers around a point from the innermost outward. -/
abbrev Enclosure := List Layer

namespace Enclosure

/-- The names declared in the innermost layer. -/
def innermost : Enclosure → List String
  | [] => []
  | layer :: _ => layer.names

/-- The enclosure after the declaration of a name. Global names are in no layer. -/
def declare (name : String) : Enclosure → Enclosure
  | [] => []
  | ⟨region, names⟩ :: outer => ⟨region, name :: names⟩ :: outer

/-- The variable that is being initialized in its initializer, unless it is global. -/
def pending (name : String) : Enclosure → Option String
  | [] => none
  | _ :: _ => some name

/-- The number of layers between a point and the innermost layer that declares a name. -/
def distance? (name : String) (Γ : Enclosure) : Option Nat :=
  Γ.findIdx? fun layer => decide (name ∈ layer.names)

/-- The enclosure of the methods of a class. -/
def ofClass (name : Token) (superclass : Option Expr) (methods : List FunctionDeclaration)
    (Γ : Enclosure) : Enclosure :=
  match superclass with
  | none => Γ.declare name.lexeme
  | some _ => ⟨.ancestry name methods, ["super"]⟩ :: Γ.declare name.lexeme

/-- The enclosure of the body of a function. -/
def ofFunction (declaration : FunctionDeclaration) (Γ : Enclosure) : Enclosure :=
  ⟨.body declaration, (declaration.params.map Token.lexeme).reverse⟩ :: Γ

/-- The enclosure of a single method among those of its class. -/
def ofMethod (method : FunctionDeclaration) (Γ : Enclosure) : Enclosure :=
  ⟨.receiver method, ["this"]⟩ :: Γ

/-- The class body around a point, as far as the layers tell. -/
def classContext : Enclosure → ClassContext
  | [] => .outside
  | ⟨.receiver _, _⟩ :: ⟨.ancestry _ _, _⟩ :: _ => .derived
  | ⟨.receiver _, _⟩ :: _ => .plain
  | _ :: outer => classContext outer

theorem classContext_declare (name : String) (Γ : Enclosure) :
    (Γ.declare name).classContext = Γ.classContext := by
  cases Γ with
  | nil => rfl
  | cons layer outer =>
    obtain ⟨region, names⟩ := layer
    cases region with
    | receiver method =>
      cases outer with
      | nil => rfl
      | cons next rest =>
        obtain ⟨region, names⟩ := next
        cases region <;> rfl
    | _ => rfl

theorem tail_declare (name : String) (Γ : Enclosure) : (Γ.declare name).tail = Γ.tail := by
  cases Γ <;> rfl

theorem distance?_declare_ne {name other : String} (h : other ≠ name) (Γ : Enclosure) :
    (Γ.declare name).distance? other = Γ.distance? other := by
  cases Γ with
  | nil => rfl
  | cons layer outer => simp [declare, distance?, List.findIdx?_cons, h]

/-- A distance is that of the innermost layer that declares the name. -/
theorem distance?_eq_some {x : String} {d : Nat} {Γ : Enclosure} (h : Γ.distance? x = some d) :
    (∃ layer, Γ[d]? = some layer ∧ x ∈ layer.names) ∧
      ∀ k < d, ∀ layer, Γ[k]? = some layer → x ∉ layer.names := by
  obtain ⟨hlt, hdeclares, hbefore⟩ := List.findIdx?_eq_some_iff_getElem.mp h
  refine ⟨⟨Γ[d], List.getElem?_eq_getElem hlt, by simpa using hdeclares⟩, fun k hk layer hl => ?_⟩
  obtain ⟨hk', rfl⟩ := List.getElem?_eq_some_iff.mp hl
  simpa using hbefore k hk

theorem distance?_eq_none {x : String} {Γ : Enclosure} :
    Γ.distance? x = none ↔ ∀ layer ∈ Γ, x ∉ layer.names := by
  unfold distance?
  rw [List.findIdx?_eq_none_iff]
  simp

end Enclosure

/-! ## Sites -/

/-- What a reference is used for. -/
inductive Use where
  | read
  | write
  | receiver
  | ancestry
  deriving DecidableEq

/-- A reference and where it stands; `initializing` is the local variable whose initializer it stands
in. -/
structure Site where
  reference : Reference
  use : Use
  enclosure : Enclosure
  initializing : Option String

/-- The name of a reference. -/
abbrev Site.name (site : Site) : String :=
  site.reference.name.lexeme

/-- The distance that the text gives to a site. A variable that is being initialized does not count
for reads, and counts for everything else. -/
def Site.distance? (site : Site) : Option Nat :=
  match site.use with
  | .read => site.enclosure.distance? site.name
  | _ =>
    if site.initializing = some site.name then some 0 else site.enclosure.distance? site.name

/-- The entry of a site in a list of distances, unless it is global. -/
def Site.toEntry (site : Site) : Option DistanceEntry :=
  site.distance?.map (⟨site.reference.id, ·⟩)

mutual

/-- The sites of an expression, each after those it waits for. -/
def Expr.sites (Γ : Enclosure) (p : Option String) : Expr → List Site
  | .literal _ => []
  | .unary _ operand => operand.sites Γ p
  | .binary left _ right => left.sites Γ p ++ right.sites Γ p
  | .logical left _ right => left.sites Γ p ++ right.sites Γ p
  | .grouping inner => inner.sites Γ p
  | .variable target => [⟨target, .read, Γ, p⟩]
  | .assign target value => value.sites Γ p ++ [⟨target, .write, Γ, p⟩]
  | .call callee _ arguments => callee.sites Γ p ++ Expr.sitesAll Γ p arguments
  | .get object _ => object.sites Γ p
  | .set object _ value => value.sites Γ p ++ object.sites Γ p
  | .thisObject keyword => [⟨keyword, .receiver, Γ, p⟩]
  | .superMethod keyword _ => [⟨keyword, .ancestry, Γ, p⟩]

def Expr.sitesAll (Γ : Enclosure) (p : Option String) : List Expr → List Site
  | [] => []
  | e :: rest => e.sites Γ p ++ Expr.sitesAll Γ p rest

end

def Expr.sitesOption (Γ : Enclosure) (p : Option String) : Option Expr → List Site
  | none => []
  | some e => e.sites Γ p

/-- The enclosure after a statement. -/
def Stmt.after (Γ : Enclosure) : Stmt → Enclosure
  | .variable name _ => Γ.declare name.lexeme
  | .function declaration => Γ.declare declaration.name.lexeme
  | .classDeclaration name _ _ => Γ.declare name.lexeme
  | _ => Γ

def Stmt.afterAll (Γ : Enclosure) (body : List Stmt) : Enclosure :=
  body.foldl Stmt.after Γ

theorem Stmt.after_of_isDeclaration (Γ : Enclosure) {s : Stmt} (h : s.isDeclaration = false) :
    s.after Γ = Γ := by
  cases s <;> first | rfl | cases h

theorem Stmt.classContext_after (Γ : Enclosure) (s : Stmt) :
    (s.after Γ).classContext = Γ.classContext := by
  cases s with
  | «variable» name initializer => exact Γ.classContext_declare name.lexeme
  | function declaration => exact Γ.classContext_declare declaration.name.lexeme
  | classDeclaration name superclass methods => exact Γ.classContext_declare name.lexeme
  | _ => rfl

theorem Stmt.tail_after (Γ : Enclosure) (s : Stmt) : (s.after Γ).tail = Γ.tail := by
  cases s with
  | «variable» name initializer => exact Γ.tail_declare name.lexeme
  | function declaration => exact Γ.tail_declare declaration.name.lexeme
  | classDeclaration name superclass methods => exact Γ.tail_declare name.lexeme
  | _ => rfl

theorem Stmt.afterAll_globals (body : List Stmt) : Stmt.afterAll [] body = [] := by
  induction body with
  | nil => rfl
  | cons s rest ih =>
    have hafter : s.after [] = [] := by cases s <;> rfl
    exact (congrArg (Stmt.afterAll · rest) hafter).trans ih

theorem Stmt.tail_afterAll (Γ : Enclosure) (body : List Stmt) :
    (Stmt.afterAll Γ body).tail = Γ.tail := by
  induction body generalizing Γ with
  | nil => rfl
  | cons s rest ih => exact (ih (s.after Γ)).trans (s.tail_after Γ)

mutual

/-- The sites of a statement. A superclass stands outside of its class, and a function inside its own
name. -/
def Stmt.sites (Γ : Enclosure) : Stmt → List Site
  | .expression value => value.sites Γ none
  | .print _ value => value.sites Γ none
  | .variable name initializer => Expr.sitesOption Γ (Γ.pending name.lexeme) initializer
  | .block body => Stmt.sitesAll (⟨.block body, []⟩ :: Γ) body
  | .conditional condition thenBranch none => condition.sites Γ none ++ thenBranch.sites Γ
  | .conditional condition thenBranch (some elseBranch) =>
    condition.sites Γ none ++ thenBranch.sites Γ ++ elseBranch.sites Γ
  | .loop condition body => condition.sites Γ none ++ body.sites Γ
  | .function declaration => declaration.sites (Γ.declare declaration.name.lexeme)
  | .returnWith _ value => Expr.sitesOption Γ none value
  | .classDeclaration name superclass methods =>
    Expr.sitesOption Γ none superclass ++
      FunctionDeclaration.sitesAll (Γ.ofClass name superclass methods) methods

/-- The sites of statements, each in the enclosure that those before it leave. -/
def Stmt.sitesAll (Γ : Enclosure) : List Stmt → List Site
  | [] => []
  | s :: rest => s.sites Γ ++ Stmt.sitesAll (s.after Γ) rest

def FunctionDeclaration.sites (Γ : Enclosure) : FunctionDeclaration → List Site
  | ⟨name, params, body⟩ => Stmt.sitesAll (Γ.ofFunction ⟨name, params, body⟩) body

/-- The sites of the methods of a class. -/
def FunctionDeclaration.sitesAll (Γ : Enclosure) : List FunctionDeclaration → List Site
  | [] => []
  | d :: rest => d.sites (Γ.ofMethod d) ++ FunctionDeclaration.sitesAll Γ rest

end

/-! ## Sites and references -/

section References
variable (Γ : Enclosure) (p : Option String)

mutual

/-- The sites of an expression are its references, in another order. -/
theorem Expr.sites_perm (e : Expr) : ((e.sites Γ p).map Site.reference).Perm e.references := by
  cases e with
  | literal value => exact .nil
  | unary operator operand => exact operand.sites_perm
  | binary left operator right =>
    rw [Expr.sites, List.map_append]
    exact left.sites_perm.append right.sites_perm
  | logical left operator right =>
    rw [Expr.sites, List.map_append]
    exact left.sites_perm.append right.sites_perm
  | grouping inner => exact inner.sites_perm
  | «variable» target => exact .refl _
  | assign target value =>
    rw [Expr.sites, List.map_append]
    exact (value.sites_perm.append_right _).trans List.perm_append_comm
  | call callee paren arguments =>
    rw [Expr.sites, List.map_append]
    exact callee.sites_perm.append (Expr.sitesAll_perm arguments)
  | get object name => exact object.sites_perm
  | set object name value =>
    rw [Expr.sites, List.map_append]
    exact (value.sites_perm.append object.sites_perm).trans List.perm_append_comm
  | thisObject keyword => exact .refl _
  | superMethod keyword method => exact .refl _

theorem Expr.sitesAll_perm (es : List Expr) :
    ((Expr.sitesAll Γ p es).map Site.reference).Perm (Expr.referencesAll es) := by
  cases es with
  | nil => exact .nil
  | cons e rest =>
    rw [Expr.sitesAll, List.map_append]
    exact e.sites_perm.append (Expr.sitesAll_perm rest)

end

theorem Expr.sitesOption_perm (e : Option Expr) :
    ((Expr.sitesOption Γ p e).map Site.reference).Perm (Expr.referencesOption e) := by
  cases e with
  | none => exact .nil
  | some e => exact e.sites_perm Γ p

end References

mutual

theorem Stmt.sites_perm (Γ : Enclosure) (s : Stmt) :
    ((s.sites Γ).map Site.reference).Perm s.references := by
  cases s with
  | expression value => exact value.sites_perm Γ none
  | print keyword value => exact value.sites_perm Γ none
  | «variable» name initializer => exact Expr.sitesOption_perm Γ _ initializer
  | block body => exact Stmt.sitesAll_perm _ body
  | conditional condition thenBranch elseBranch =>
    cases elseBranch with
    | none =>
      rw [Stmt.sites, List.map_append]
      exact (condition.sites_perm Γ none).append (thenBranch.sites_perm Γ)
    | some elseBranch =>
      rw [Stmt.sites, List.map_append, List.map_append]
      exact ((condition.sites_perm Γ none).append (thenBranch.sites_perm Γ)).append
        (elseBranch.sites_perm Γ)
  | loop condition body =>
    rw [Stmt.sites, List.map_append]
    exact (condition.sites_perm Γ none).append (body.sites_perm Γ)
  | function declaration => exact declaration.sites_perm _
  | returnWith keyword value => exact Expr.sitesOption_perm Γ none value
  | classDeclaration name superclass methods =>
    rw [Stmt.sites, List.map_append]
    exact (Expr.sitesOption_perm Γ none superclass).append
      (FunctionDeclaration.sitesAll_perm _ methods)

theorem Stmt.sitesAll_perm (Γ : Enclosure) (body : List Stmt) :
    ((Stmt.sitesAll Γ body).map Site.reference).Perm (Stmt.referencesAll body) := by
  cases body with
  | nil => exact .nil
  | cons s rest =>
    rw [Stmt.sitesAll, List.map_append]
    exact (s.sites_perm Γ).append (Stmt.sitesAll_perm (s.after Γ) rest)

theorem FunctionDeclaration.sites_perm (Γ : Enclosure) (d : FunctionDeclaration) :
    ((d.sites Γ).map Site.reference).Perm d.references := by
  obtain ⟨name, params, body⟩ := d
  exact Stmt.sitesAll_perm _ body

theorem FunctionDeclaration.sitesAll_perm (Γ : Enclosure) (methods : List FunctionDeclaration) :
    ((FunctionDeclaration.sitesAll Γ methods).map Site.reference).Perm
      (FunctionDeclaration.referencesAll methods) := by
  cases methods with
  | nil => exact .nil
  | cons d rest =>
    rw [FunctionDeclaration.sitesAll, List.map_append]
    exact (d.sites_perm _).append (FunctionDeclaration.sitesAll_perm Γ rest)

end

/-! ## How regions nest -/

/-- Names that are declared by admitted tokens. -/
def Named (admits : Token → Prop) (names : List String) : Prop :=
  ∀ x ∈ names, ∃ t : Token, t.IsName admits ∧ t.lexeme = x

/-- Enclosures of statements: around the body of a method lies its receiver, and around that, if the
class has a superclass, what the methods of the class share. -/
inductive Enclosure.Proper (admits : Token → Prop) : Enclosure → Prop
  | globals : Proper admits []
  | block {body : List Stmt} {names : List String} {outer : Enclosure} :
    Named admits names → Proper admits outer → Proper admits (⟨.block body, names⟩ :: outer)
  | function {d : FunctionDeclaration} {names : List String} {outer : Enclosure} :
    Named admits names → Proper admits outer → Proper admits (⟨.body d, names⟩ :: outer)
  | method {d : FunctionDeclaration} {names : List String} {outer : Enclosure} :
    Named admits names → Proper admits outer →
    Proper admits (⟨.body d, names⟩ :: ⟨.receiver d, ["this"]⟩ :: outer)
  | inheriting {d : FunctionDeclaration} {names : List String} {name : Token}
    {methods : List FunctionDeclaration} {outer : Enclosure} :
    Named admits names → d ∈ methods → Proper admits outer →
    Proper admits (⟨.body d, names⟩ :: ⟨.receiver d, ["this"]⟩ ::
      ⟨.ancestry name methods, ["super"]⟩ :: outer)

namespace Enclosure.Proper
variable {admits : Token → Prop} {Γ : Enclosure}

theorem declare (h : Γ.Proper admits) {t : Token} (ht : t.IsName admits) :
    (Γ.declare t.lexeme).Proper admits := by
  have hcons : ∀ {names : List String}, Named admits names → Named admits (t.lexeme :: names) :=
    fun hn => List.forall_mem_cons.mpr ⟨⟨t, ht, rfl⟩, hn⟩
  cases h with
  | globals => exact .globals
  | block hn ho => exact .block (hcons hn) ho
  | function hn ho => exact .function (hcons hn) ho
  | method hn ho => exact .method (hcons hn) ho
  | inheriting hn hd ho => exact .inheriting (hcons hn) hd ho

theorem after (h : Γ.Proper admits) {s : Stmt} (hs : s.WellFormed admits) :
    (s.after Γ).Proper admits := by
  cases s with
  | «variable» name initializer => exact h.declare hs.1
  | function declaration =>
    obtain ⟨name, params, body⟩ := declaration
    exact h.declare hs.1
  | classDeclaration name superclass methods => exact h.declare hs.1
  | _ => exact h

theorem ofMethod (h : Γ.Proper admits) {name : Token} (hname : name.IsName admits)
    (superclass : Option Expr) {methods : List FunctionDeclaration} {d : FunctionDeclaration}
    (hd : d ∈ methods) {names : List String} (hn : Named admits names) :
    Enclosure.Proper admits
      (⟨.body d, names⟩ :: (Γ.ofClass name superclass methods).ofMethod d) := by
  cases superclass with
  | none => exact .method hn (h.declare hname)
  | some parent => exact .inheriting hn hd (h.declare hname)

theorem classContext_plain (h : Γ.Proper admits) (d : FunctionDeclaration) (names : List String) :
    Enclosure.classContext (⟨.receiver d, names⟩ :: Γ) = .plain := by
  cases h <;> rfl

/-- The method around a point inside a class body, its receiver, and the ancestry around that. -/
theorem method_of_classContext (h : Γ.Proper admits) (hc : Γ.classContext ≠ .outside) :
    ∃ inner d names outer, Γ = inner ++ ⟨.body d, names⟩ :: ⟨.receiver d, ["this"]⟩ :: outer ∧
      (∀ layer ∈ inner, Named admits layer.names ∧ ∀ m, layer.region ≠ .receiver m) ∧
      Named admits names ∧
      (Γ.classContext = .derived → ∃ name methods rest,
        outer = ⟨.ancestry name methods, ["super"]⟩ :: rest ∧ d ∈ methods) := by
  induction h with
  | globals => exact absurd rfl hc
  | @block body names outer hn ho ih =>
    obtain ⟨inner, d, names', rest, rfl, hinner, hnames, hderived⟩ := ih hc
    refine ⟨⟨.block body, names⟩ :: inner, d, names', rest, rfl, ?_, hnames, hderived⟩
    exact List.forall_mem_cons.mpr ⟨⟨hn, nofun⟩, hinner⟩
  | @function d' names outer hn ho ih =>
    obtain ⟨inner, d, names', rest, rfl, hinner, hnames, hderived⟩ := ih hc
    refine ⟨⟨.body d', names⟩ :: inner, d, names', rest, rfl, ?_, hnames, hderived⟩
    exact List.forall_mem_cons.mpr ⟨⟨hn, nofun⟩, hinner⟩
  | @method d names outer hn ho ih =>
    refine ⟨[], d, names, outer, rfl, nofun, hn, fun hderived => ?_⟩
    have hplain := ho.classContext_plain d ["this"]
    exact absurd (hplain.symm.trans hderived) nofun
  | @inheriting d names name methods outer hn hd ho ih =>
    exact ⟨[], d, names, _, rfl, nofun, hn, fun _ => ⟨name, methods, outer, rfl, hd⟩⟩

/-- The layers of names that are not reserved are those of blocks and bodies. -/
theorem region_of_mem (h : Γ.Proper admits) {layer : Layer} (hl : layer ∈ Γ) {x : String}
    (hx : x ∈ layer.names) (hthis : x ≠ "this") (hsuper : x ≠ "super") :
    (∃ body, layer.region = .block body) ∨ ∃ d, layer.region = .body d := by
  induction h with
  | globals => cases hl
  | block hn ho ih =>
    rcases List.mem_cons.mp hl with rfl | hl
    · exact .inl ⟨_, rfl⟩
    · exact ih hl
  | function hn ho ih =>
    rcases List.mem_cons.mp hl with rfl | hl
    · exact .inr ⟨_, rfl⟩
    · exact ih hl
  | method hn ho ih =>
    rcases List.mem_cons.mp hl with rfl | hl
    · exact .inr ⟨_, rfl⟩
    · rcases List.mem_cons.mp hl with rfl | hl
      · exact absurd (List.mem_singleton.mp hx) hthis
      · exact ih hl
  | inheriting hn hd ho ih =>
    rcases List.mem_cons.mp hl with rfl | hl
    · exact .inr ⟨_, rfl⟩
    · rcases List.mem_cons.mp hl with rfl | hl
      · exact absurd (List.mem_singleton.mp hx) hthis
      · rcases List.mem_cons.mp hl with rfl | hl
        · exact absurd (List.mem_singleton.mp hx) hsuper
        · exact ih hl

end Enclosure.Proper

end LoxLang
