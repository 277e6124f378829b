import LoxLang.Proofs.Binding.Agreement
import LoxLang.Proofs.Machine.History
import LoxLang.Proofs.Token.Spelling

/-!
What the text says about the scopes of a running program. A `Setting` is what has come about so far:
the sites of the programs taken, the scopes opened and the store. In a setting a chain of scopes
realizes an enclosure if each scope was opened for the region of its layer, inside the scopes of the
layers around it, and binds the names declared in the layer. Everything said of chains and values
stays true while a setting grows (`Setting.Le`).
-/
namespace LoxLang
set_option autoImplicit false

/-! ## Settings -/

/-- A name that is spelled as it is meant is none of the words that scopes are opened for. -/
theorem Token.Spelled.not_reserved {t : Token} (h : t.Spelled)
    (hname : t.kind.same .identifier = true) : t.lexeme ∉ Store.reserved := by
  intro hword
  have hunreserved := h.name hname
  simp only [Store.reserved, List.mem_cons, List.not_mem_nil, or_false] at hword
  rcases hword with hthis | hsuper
  · rw [hthis] at hunreserved
    exact absurd hunreserved (by decide +kernel)
  · rw [hsuper] at hunreserved
    exact absurd hunreserved (by decide +kernel)

/-- The circumstances of a running program. -/
structure Setting where
  admits : Token → Prop
  known : Site → Prop
  opened : Origin → ScopeId → Chain → Prop
  store : Store

namespace Setting

/-- All tokens are spelled as they are meant. -/
def spelled (S : Setting) : Prop :=
  ∀ t, S.admits t → t.Spelled

/-- A setting that has grown. -/
structure Le (S S' : Setting) : Prop where
  admits : S'.admits = S.admits
  known : ∀ site, S.known site → S'.known site
  opened : ∀ origin id outer, S.opened origin id outer → S'.opened origin id outer
  grows : S.store.Grows S.spelled S'.store

theorem Le.spelled_iff {S S' : Setting} (h : S.Le S') : S'.spelled ↔ S.spelled := by
  unfold spelled
  rw [h.admits]

theorem Le.refl (S : Setting) : S.Le S :=
  ⟨rfl, fun _ => id, fun _ _ _ => id, .of_scopes rfl⟩

theorem Le.trans {S S' S'' : Setting} (h1 : S.Le S') (h2 : S'.Le S'') : S.Le S'' := by
  refine ⟨h2.admits.trans h1.admits, fun site h => h2.known site (h1.known site h),
    fun origin id outer h => h2.opened origin id outer (h1.opened origin id outer h), ?_⟩
  have hgrows := h2.grows
  rw [propext h1.spelled_iff] at hgrows
  exact h1.grows.trans hgrows

/-- The setting with another store. -/
def withStore (S : Setting) (s : Store) : Setting :=
  { S with store := s }

/-- The setting after a scope has been opened. -/
def opening (S : Setting) (origin : Origin) (outer : Chain) (bindings : Table Value) : Setting :=
  { S with
    opened := fun o id chain =>
      S.opened o id chain ∨ (o = origin ∧ id = S.store.scopes.size ∧ chain = outer)
    store := (S.store.newScope bindings).2 }

theorem le_withStore {S : Setting} {s : Store} (h : S.store.Grows S.spelled s) :
    S.Le (S.withStore s) :=
  ⟨rfl, fun _ => id, fun _ _ _ => id, h⟩

theorem le_opening (S : Setting) (origin : Origin) (outer : Chain) (bindings : Table Value) :
    S.Le (S.opening origin outer bindings) :=
  ⟨rfl, fun _ => id, fun _ _ _ => .inl, Store.grows_newScope S.store bindings⟩

end Setting

/-! ## Chains -/

/-- What a scope always binds that was opened for a reserved word. -/
def Origin.Pins (bindings : Table Value) : Origin → Prop
  | .binding _ object => bindings.get? "this" = some (.object object)
  | .inheritance _ _ superclass =>
    bindings.get? "super" = some (.callable (.classObject superclass))
  | _ => True

/-- A chain of scopes realizes an enclosure. -/
inductive Setting.Realizes (S : Setting) : Enclosure → Chain → Prop
  | globals : S.Realizes [] .globals
  | layer {origin : Origin} {layer : Layer} {id : ScopeId} {Γ : Enclosure} {outer : Chain} :
    origin.region = layer.region → S.opened origin id outer → id < S.store.scopes.size →
    (∀ x ∈ layer.names, S.store.binds id x = true) → (S.spelled → origin.Pins (S.store.scope id)) →
    S.Realizes Γ outer → S.Realizes (layer :: Γ) (id :: outer)

namespace Setting.Realizes
variable {S S' : Setting} {Γ : Enclosure} {chain : Chain}

theorem mono (hle : S.Le S') (h : S.Realizes Γ chain) : S'.Realizes Γ chain := by
  induction h with
  | globals => exact .globals
  | @layer origin layer id Γ outer hregion hopened hlt hbinds hpins _ ih =>
    refine .layer hregion (hle.opened _ _ _ hopened) (Nat.lt_of_lt_of_le hlt hle.grows.size)
      (fun x hx => hle.grows.binds id x (hbinds x hx)) (fun hs => ?_) ih
    have hs := hle.spelled_iff.mp hs
    have hold := hpins hs
    cases origin with
    | binding method object => exact hle.grows.pins hs id "this" Store.this_mem_reserved _ hold
    | inheritance name methods superclass =>
      exact hle.grows.pins hs id "super" Store.super_mem_reserved _ hold
    | _ => trivial

/-- The scopes from some layer outward realize the layers from there outward. -/
theorem drop (h : S.Realizes Γ chain) {k : Nat} (hk : k ≤ Γ.length) :
    S.Realizes (Γ.drop k) (chain.drop k) := by
  induction k generalizing Γ chain with
  | zero => exact h
  | succ k ih =>
    cases h with
    | globals => cases hk
    | layer _ _ _ _ _ houter => exact ih houter (Nat.le_of_succ_le_succ hk)

theorem scope_at (h : S.Realizes Γ chain) {k : Nat} {layer : Layer} (hk : Γ[k]? = some layer) :
    ∃ origin id, chain[k]? = some id ∧ origin.region = layer.region ∧
      S.opened origin id (chain.drop (k + 1)) ∧ (∀ x ∈ layer.names, S.store.binds id x = true) ∧
      (S.spelled → origin.Pins (S.store.scope id)) := by
  induction k generalizing Γ chain with
  | zero =>
    cases h with
    | globals => cases hk
    | @layer origin _ id _ outer hregion hopened _ hbinds hpins _ =>
      cases hk
      exact ⟨origin, id, rfl, hregion, hopened, hbinds, hpins⟩
  | succ k ih =>
    cases h with
    | globals => cases hk
    | layer _ _ _ _ _ houter => exact ih houter hk

theorem define (h : S.Realizes Γ chain) {x : String} {v : Value}
    (hle : S.Le (S.withStore (S.store.define chain x v))) :
    (S.withStore (S.store.define chain x v)).Realizes (Γ.declare x) chain := by
  have hchain := h.mono hle
  cases hchain with
  | globals => exact .globals
  | @layer origin layer id Γ outer hregion hopened hlt hbinds hpins houter =>
    refine .layer hregion hopened hlt ?_ hpins houter
    refine List.forall_mem_cons.mpr ⟨?_, hbinds⟩
    have hsize : id < S.store.scopes.size := by simpa [Setting.withStore] using hlt
    exact (Store.binds_bind S.store id id x x v).mpr (.inl ⟨rfl, hsize, rfl⟩)

theorem opening (h : S.Realizes Γ chain) (origin : Origin) (layer : Layer)
    (bindings : Table Value) (hregion : origin.region = layer.region)
    (hnames : ∀ x ∈ layer.names, bindings.contains x = true) (hpins : origin.Pins bindings) :
    (S.opening origin chain bindings).Realizes (layer :: Γ) (S.store.scopes.size :: chain) := by
  have hscope : (S.opening origin chain bindings).store.scope S.store.scopes.size = bindings := by
    simp [Setting.opening, Store.scope_newScope]
  refine .layer hregion (.inr ⟨rfl, rfl, rfl⟩) (by simp [Setting.opening]) (fun x hx => ?_)
    (fun _ => ?_) (h.mono (S.le_opening origin chain bindings))
  · exact (S.store.binds_newScope bindings x).trans (hnames x hx)
  · rw [hscope]
    exact hpins

/-- A scope is opened for one name, which is bound from the start. -/
theorem opening_single (h : S.Realizes Γ chain) {origin : Origin} {region : Region} {x : String}
    {v : Value} (hregion : origin.region = region)
    (hpins : origin.Pins (Table.empty.insert x v)) :
    (S.opening origin chain (Table.empty.insert x v)).Realizes (⟨region, [x]⟩ :: Γ)
      (S.store.scopes.size :: chain) := by
  refine h.opening origin ⟨region, [x]⟩ _ hregion (fun y hy => ?_) hpins
  obtain rfl := List.mem_singleton.mp hy
  rw [Table.contains_insert]
  simp

theorem globals_of_nil (h : S.Realizes [] chain) : chain = .globals := by
  cases h
  rfl

theorem head_lt (h : S.Realizes Γ chain) (hpos : 0 < S.store.scopes.size) :
    ∃ id outer, chain = id :: outer ∧ id < S.store.scopes.size := by
  cases h with
  | globals => exact ⟨0, [], rfl, hpos⟩
  | @layer _ _ id _ outer _ _ hlt _ _ _ => exact ⟨id, outer, rfl, hlt⟩

end Setting.Realizes

/-! ## Code -/

/-- An expression of a program that was taken. -/
def Expr.Known (S : Setting) (Γ : Enclosure) (p : Option String) (e : Expr) : Prop :=
  e.WellFormed S.admits ∧ ∀ site ∈ e.sites Γ p, S.known site

def Expr.AllKnown (S : Setting) (Γ : Enclosure) (p : Option String) (es : List Expr) : Prop :=
  Expr.AllWellFormed S.admits es ∧ ∀ site ∈ Expr.sitesAll Γ p es, S.known site

def Stmt.Known (S : Setting) (Γ : Enclosure) (s : Stmt) : Prop :=
  s.WellFormed S.admits ∧ ∀ site ∈ s.sites Γ, S.known site

def Stmt.AllKnown (S : Setting) (Γ : Enclosure) (body : List Stmt) : Prop :=
  Stmt.AllWellFormed S.admits body ∧ ∀ site ∈ Stmt.sitesAll Γ body, S.known site

def FunctionDeclaration.Known (S : Setting) (Γ : Enclosure) (d : FunctionDeclaration) : Prop :=
  d.WellFormed S.admits ∧ ∀ site ∈ d.sites Γ, S.known site

def FunctionDeclaration.AllKnown (S : Setting) (Γ : Enclosure)
    (methods : List FunctionDeclaration) : Prop :=
  FunctionDeclaration.AllWellFormed S.admits methods ∧
    ∀ site ∈ FunctionDeclaration.sitesAll Γ methods, S.known site

section Known
variable {S S' : Setting} {Γ : Enclosure} {p : Option String}

theorem Expr.Known.mono (hle : S.Le S') {e : Expr} (h : e.Known S Γ p) : e.Known S' Γ p :=
  ⟨hle.admits ▸ h.1, fun site hs => hle.known site (h.2 site hs)⟩

theorem Expr.AllKnown.mono (hle : S.Le S') {es : List Expr} (h : Expr.AllKnown S Γ p es) :
    Expr.AllKnown S' Γ p es :=
  ⟨hle.admits ▸ h.1, fun site hs => hle.known site (h.2 site hs)⟩

theorem Stmt.Known.mono (hle : S.Le S') {s : Stmt} (h : s.Known S Γ) : s.Known S' Γ :=
  ⟨hle.admits ▸ h.1, fun site hs => hle.known site (h.2 site hs)⟩

theorem Stmt.AllKnown.mono (hle : S.Le S') {body : List Stmt} (h : Stmt.AllKnown S Γ body) :
    Stmt.AllKnown S' Γ body :=
  ⟨hle.admits ▸ h.1, fun site hs => hle.known site (h.2 site hs)⟩

theorem FunctionDeclaration.Known.mono (hle : S.Le S') {d : FunctionDeclaration}
    (h : d.Known S Γ) : d.Known S' Γ :=
  ⟨hle.admits ▸ h.1, fun site hs => hle.known site (h.2 site hs)⟩

theorem FunctionDeclaration.AllKnown.mono (hle : S.Le S') {methods : List FunctionDeclaration}
    (h : FunctionDeclaration.AllKnown S Γ methods) :
    FunctionDeclaration.AllKnown S' Γ methods :=
  ⟨hle.admits ▸ h.1, fun site hs => hle.known site (h.2 site hs)⟩

theorem Expr.AllKnown.cons {e : Expr} {rest : List Expr} (h : Expr.AllKnown S Γ p (e :: rest)) :
    e.Known S Γ p ∧ Expr.AllKnown S Γ p rest := by
  obtain ⟨hfirst, hrest⟩ := List.forall_mem_append.mp h.2
  exact ⟨⟨h.1.1, hfirst⟩, ⟨h.1.2, hrest⟩⟩

theorem Stmt.AllKnown.cons {s : Stmt} {rest : List Stmt} (h : Stmt.AllKnown S Γ (s :: rest)) :
    s.Known S Γ ∧ Stmt.AllKnown S (s.after Γ) rest := by
  obtain ⟨hfirst, hrest⟩ := List.forall_mem_append.mp h.2
  exact ⟨⟨h.1.1, hfirst⟩, ⟨h.1.2, hrest⟩⟩

theorem FunctionDeclaration.Known.body {d : FunctionDeclaration} (h : d.Known S Γ) :
    Stmt.AllKnown S (Γ.ofFunction d) d.body := by
  obtain ⟨name, params, body⟩ := d
  exact ⟨h.1.2.2, h.2⟩

theorem FunctionDeclaration.Known.name {d : FunctionDeclaration} (h : d.Known S Γ) :
    d.name.IsName S.admits := by
  obtain ⟨name, params, body⟩ := d
  exact h.1.1

theorem FunctionDeclaration.AllKnown.of_mem {methods : List FunctionDeclaration}
    (h : FunctionDeclaration.AllKnown S Γ methods) {d : FunctionDeclaration} (hd : d ∈ methods) :
    d.Known S (Γ.ofMethod d) := by
  induction methods with
  | nil => cases hd
  | cons first rest ih =>
    obtain ⟨hfirst, hrest⟩ := List.forall_mem_append.mp h.2
    rcases List.mem_cons.mp hd with rfl | hmem
    · exact ⟨h.1.1, hfirst⟩
    · exact ih ⟨h.1.2, hrest⟩ hmem

end Known

/-! ## Values -/

/-- A function of a program that was taken, together with the scopes around it. -/
def Closure.Valid (S : Setting) (c : Closure) : Prop :=
  ∃ Γ, S.Realizes Γ c.chain ∧ c.declaration.Known S Γ

/-- A method that is not bound to an object yet. -/
def Closure.ValidMethod (S : Setting) (c : Closure) : Prop :=
  ∃ Γ, S.Realizes Γ c.chain ∧ c.declaration.Known S (Γ.ofMethod c.declaration)

def ClassObject.Valid (S : Setting) (c : ClassObject) : Prop :=
  ∀ name method, c.method? name = some method → method.ValidMethod S

def Value.Valid (S : Setting) : Value → Prop
  | .callable (.function _ closure) => closure.Valid S
  | .callable (.classObject value) => value.Valid S
  | .object value => value.origin.Valid S
  | _ => True

section Values
variable {S S' : Setting}

theorem Closure.Valid.mono (hle : S.Le S') {c : Closure} (h : c.Valid S) : c.Valid S' := by
  obtain ⟨Γ, hchain, hknown⟩ := h
  exact ⟨Γ, hchain.mono hle, hknown.mono hle⟩

theorem ClassObject.Valid.mono (hle : S.Le S') {c : ClassObject} (h : c.Valid S) : c.Valid S' := by
  intro name method hmethod
  obtain ⟨Γ, hchain, hknown⟩ := h name method hmethod
  exact ⟨Γ, hchain.mono hle, hknown.mono hle⟩

theorem Value.Valid.mono (hle : S.Le S') {v : Value} (h : v.Valid S) : v.Valid S' := by
  cases v with
  | callable callable =>
    cases callable with
    | clock => trivial
    | function id closure => exact Closure.Valid.mono hle h
    | classObject value => exact ClassObject.Valid.mono hle h
  | object value => exact ClassObject.Valid.mono hle h
  | _ => trivial

theorem Value.Plain.valid {v : Value} (h : v.Plain) : v.Valid S := by
  cases v with
  | callable callable => exact h.elim
  | object object => exact h.elim
  | _ => trivial

end Values

/-! ## The store -/

/-- All values in the store are valid. -/
structure Setting.Holds (S : Setting) : Prop where
  globals : 0 < S.store.scopes.size
  scopes : ∀ id x v, (S.store.scope id).get? x = some v → v.Valid S
  fields : ∀ object x v, (S.store.fieldsOf object).get? x = some v → v.Valid S

namespace Setting.Holds
variable {S : Setting}

/-- A change of the store after which every value is an old one or a valid one. -/
theorem change (h : S.Holds) {S' : Setting} (hle : S.Le S')
    (hscopes : ∀ id x v, (S'.store.scope id).get? x = some v →
      (S.store.scope id).get? x = some v ∨ v.Valid S')
    (hfields : ∀ object x v, (S'.store.fieldsOf object).get? x = some v →
      (S.store.fieldsOf object).get? x = some v ∨ v.Valid S') : S'.Holds := by
  refine ⟨Nat.lt_of_lt_of_le h.globals hle.grows.size, fun id x v hv => ?_, fun object x v hv => ?_⟩
  · rcases hscopes id x v hv with hold | hnew
    · exact (h.scopes id x v hold).mono hle
    · exact hnew
  · rcases hfields object x v hv with hold | hnew
    · exact (h.fields object x v hold).mono hle
    · exact hnew

theorem bind (h : S.Holds) {id : ScopeId} {x : String} {v : Value}
    (hle : S.Le (S.withStore (S.store.bind id x v)))
    (hv : v.Valid (S.withStore (S.store.bind id x v))) :
    (S.withStore (S.store.bind id x v)).Holds := by
  refine h.change hle (fun other y u hu => ?_) (fun object y u hu => .inl hu)
  change ((S.store.bind id x v).scope other).get? y = some u at hu
  rw [Store.scope_bind] at hu
  split at hu
  · rw [Table.get?_insert] at hu
    split at hu
    · cases hu
      exact .inr hv
    · exact .inl hu
  · exact .inl hu

theorem define (h : S.Holds) {chain : Chain} {x : String} {v : Value}
    (hle : S.Le (S.withStore (S.store.define chain x v)))
    (hv : v.Valid (S.withStore (S.store.define chain x v))) :
    (S.withStore (S.store.define chain x v)).Holds := by
  cases chain with
  | nil => exact h
  | cons id outer => exact h.bind hle hv

theorem opening (h : S.Holds) (origin : Origin) (outer : Chain) (bindings : Table Value)
    (hb : ∀ x v, bindings.get? x = some v → v.Valid S) :
    (S.opening origin outer bindings).Holds := by
  have hle := S.le_opening origin outer bindings
  refine h.change hle (fun id x v hv => ?_) (fun object x v hv => .inl hv)
  change ((S.store.newScope bindings).2.scope id).get? x = some v at hv
  rw [Store.scope_newScope] at hv
  split at hv
  · exact .inr ((hb x v hv).mono hle)
  · exact .inl hv

theorem opening_single (h : S.Holds) (origin : Origin) (outer : Chain) {x : String} {v : Value}
    (hv : v.Valid S) : (S.opening origin outer (Table.empty.insert x v)).Holds := by
  refine h.opening origin outer _ fun y u hu => ?_
  rw [Table.get?_insert] at hu
  split at hu
  · cases hu
    exact hv
  · cases hu

theorem of_eq (h : S.Holds) {s : Store} (hscopes : s.scopes = S.store.scopes)
    (hfields : s.fields = S.store.fields) : (S.withStore s).Holds := by
  refine h.change (Setting.le_withStore (.of_scopes hscopes)) (fun id x v hv => .inl ?_)
    (fun object x v hv => .inl ?_)
  · rw [← hv]
    simp only [Setting.withStore, Store.scope, hscopes]
  · rw [← hv]
    simp only [Setting.withStore, Store.fieldsOf, hfields]

theorem setField (h : S.Holds) (object : ObjectRef) (x : String) {v : Value} (hv : v.Valid S) :
    (S.withStore (S.store.setField object x v)).Holds := by
  have hle : S.Le (S.withStore (S.store.setField object x v)) :=
    Setting.le_withStore (.of_scopes rfl)
  refine h.change hle (fun _ _ _ hu => .inl hu) (fun other y u hu => ?_)
  change ((S.store.setField object x v).fieldsOf other).get? y = some u at hu
  rw [Store.fieldsOf_setField] at hu
  split at hu
  · rw [Table.get?_insert] at hu
    split at hu
    · cases hu
      exact .inr (hv.mono hle)
    · exact .inl hu
  · exact .inl hu

theorem newObject (h : S.Holds) (origin : ClassObject) :
    (S.withStore (S.store.newObject origin).2).Holds := by
  refine h.change (Setting.le_withStore (.of_scopes rfl)) (fun _ _ _ hu => .inl hu)
    (fun other y u hu => ?_)
  change ((S.store.newObject origin).2.fieldsOf other).get? y = some u at hu
  rw [Store.fieldsOf_newObject] at hu
  split at hu
  · cases hu
  · exact .inl hu

theorem valueIn? (h : S.Holds) {binder : Option ScopeId} {x : String} {v : Value}
    (hv : S.store.valueIn? binder x = some v) : v.Valid S := by
  cases binder with
  | none => cases hv
  | some id => exact h.scopes id x v hv

end Setting.Holds

end LoxLang
