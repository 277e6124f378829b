import LoxLang.Proofs.Scope.Reads

/-!
The objects and classes that `this` and `super` stand for. Around a point in a method lie the scope of
its call, the scope in which the method was bound to its object, and, in a class with a superclass, the
scope opened when the class was declared; the distances of both words lead there from any depth of
blocks and functions inside the method. Only sources are considered here, whose tokens are scanned, so
that no name is spelled like one of the two words (`this_and_super`).
-/
namespace LoxLang
set_option autoImplicit false

/-! ## Distances of the two words -/

/-- Names of scanned tokens are not reserved. -/
theorem Named.not_reserved {names : List String} (h : Named Token.Scanned names) {x : String}
    (hx : x ∈ Store.reserved) : x ∉ names := by
  intro hmem
  obtain ⟨t, ⟨hscanned, hname⟩, rfl⟩ := h x hmem
  exact hscanned.spelled.not_reserved hname hx

theorem Enclosure.distance?_of_split {Γ inner outer : Enclosure} {layer : Layer} {x : String}
    (hΓ : Γ = inner ++ layer :: outer) (hinner : ∀ layer ∈ inner, x ∉ layer.names)
    (hx : x ∈ layer.names) : Γ.distance? x = some inner.length := by
  subst hΓ
  induction inner with
  | nil => simp [Enclosure.distance?, List.findIdx?_cons, hx]
  | cons first rest ih =>
    obtain ⟨hfirst, hrest⟩ := List.forall_mem_cons.mp hinner
    have hdistance := ih hrest
    simp only [Enclosure.distance?] at hdistance ⊢
    rw [List.cons_append, List.findIdx?_cons, hdistance]
    simp [hfirst]

/-- A reserved word is never the name of a variable that is being initialized. -/
theorem Site.Legal.distance?_of_reserved {site : Site} (h : site.Legal Token.Scanned) {x : String}
    (hname : site.name = x) (hx : x ∈ Store.reserved) :
    site.distance? = site.enclosure.distance? x := by
  subst hname
  have hother : site.initializing ≠ some site.name := fun hinit =>
    (h.undeclared _ hinit).1.not_reserved hx List.mem_cons_self
  unfold Site.distance?
  split
  · rfl
  · exact if_neg hother

/-! ## Methods -/

/-- The innermost method around a site, and the object to which its activation was bound. The scope of
the call lies directly inside the scope of the binding; `outer` and `around` are what lies around both
in the text and in the chain. -/
structure Site.InMethod (h : History) (w : World) (site : Site) (method : FunctionDeclaration)
    (object : ObjectRef) (inner outer : Enclosure) (around : Chain) : Prop where
  enclosure : ∃ names, site.enclosure =
    inner ++ ⟨.body method, names⟩ :: ⟨.receiver method, ["this"]⟩ :: outer
  innermost : ∀ layer ∈ inner, ∀ other, layer.region ≠ .receiver other
  activation : ∃ call receiver, w.chain.drop inner.length = call :: receiver :: around ∧
    h.Created (.call method) call (receiver :: around) ∧
    h.Created (.binding method object) receiver around

/-- The class around a method, and the class to which its superclass clause came. -/
def History.InSubclass (h : History) (method : FunctionDeclaration) (superclass : ClassObject)
    (outer : Enclosure) (around : Chain) : Prop :=
  ∃ name methods rest id beyond, outer = ⟨.ancestry name methods, ["super"]⟩ :: rest ∧
    method ∈ methods ∧ around = id :: beyond ∧
    h.Created (.inheritance name methods superclass) id beyond

theorem Origin.eq_call {origin : Origin} {d : FunctionDeclaration}
    (h : origin.region = .body d) : origin = .call d := by
  cases origin <;> cases h
  rfl

theorem Origin.eq_binding {origin : Origin} {method : FunctionDeclaration}
    (h : origin.region = .receiver method) : ∃ object, origin = .binding method object := by
  cases origin <;> cases h
  exact ⟨_, rfl⟩

theorem Origin.eq_inheritance {origin : Origin} {name : Token} {methods : List FunctionDeclaration}
    (h : origin.region = .ancestry name methods) :
    ∃ superclass, origin = .inheritance name methods superclass := by
  cases origin <;> cases h
  exact ⟨_, rfl⟩

section Sites
variable {nextId : Nat} {m : Machine} {h : History} {site : Site}

/-- At a site in a class body the innermost method has been bound to an object, which is found as
`this` one layer outside of the body of the method, and in a subclass the superclass is found as
`super` one layer further out. -/
theorem Lived.inMethod (hl : Lived Token.Scanned nextId m h) (hlegal : site.Legal Token.Scanned)
    (hchain : (h.setting Token.Scanned m.world.store).Realizes site.enclosure m.world.chain)
    (hclass : site.enclosure.classContext ≠ .outside) :
    ∃ method object inner outer around, site.InMethod h m.world method object inner outer around ∧
      site.enclosure.distance? "this" = some (inner.length + 1) ∧
      m.world.store.lookupAt? m.world.chain (inner.length + 1) "this" = some (.object object) ∧
      (site.enclosure.classContext = .derived → ∃ superclass,
        h.InSubclass method superclass outer around ∧
        site.enclosure.distance? "super" = some (inner.length + 2) ∧
        m.world.store.lookupAt? m.world.chain (inner.length + 2) "super" =
          some (.callable (.classObject superclass))) := by
  have hspelled : (h.setting Token.Scanned m.world.store).spelled := fun t ht => ht.spelled
  obtain ⟨inner, method, names, outer, hΓ, hinner, hnames, hderived⟩ :=
    hlegal.proper.method_of_classContext hclass
  have hplain : ∀ x ∈ Store.reserved,
      ∀ layer ∈ inner ++ [⟨.body method, names⟩], x ∉ layer.names := by
    intro x hx layer hlayer
    rcases List.mem_append.mp hlayer with hin | hbody
    · exact (hinner layer hin).1.not_reserved hx
    · obtain rfl := List.mem_singleton.mp hbody
      exact hnames.not_reserved hx
  -- Past the layers inside the method, the chain realizes its body, its receiver and what is around.
  have hdrop := hchain.drop (k := inner.length) (by rw [hΓ]; simp)
  rw [hΓ, List.drop_left] at hdrop
  generalize hrest : m.world.chain.drop inner.length = rest at hdrop
  have hat : ∀ k, m.world.chain[inner.length + k]? = rest[k]? := fun k => by
    rw [← hrest, List.getElem?_drop]
  cases hdrop with
  | @layer origin _ call _ _ hregion hcall _ _ _ hdrop =>
  obtain rfl := Origin.eq_call hregion
  cases hdrop with
  | @layer origin _ receiver _ around hregion hbinding _ _ hpins houter =>
  obtain ⟨object, rfl⟩ := Origin.eq_binding hregion
  refine ⟨method, object, inner, outer, around, ⟨⟨names, hΓ⟩, fun layer hl => (hinner layer hl).2,
    call, receiver, hrest, hl.created hcall, hl.created hbinding⟩, ?_, ?_, fun hc => ?_⟩
  · have hdistance := Enclosure.distance?_of_split (hΓ.trans (List.append_cons ..))
      (hplain "this" Store.this_mem_reserved) List.mem_cons_self
    simpa using hdistance
  · exact (Store.lookupAt?_of_getElem? (hat 1) "this").trans (hpins hspelled)
  · obtain ⟨name, methods, beyond, rfl, hmem⟩ := hderived hc
    cases houter with
    | @layer origin _ ancestry _ chain hregion hinheritance _ _ hpins houter =>
    obtain ⟨superclass, rfl⟩ := Origin.eq_inheritance hregion
    refine ⟨superclass, ⟨name, methods, beyond, ancestry, chain, rfl, hmem, rfl,
      hl.created hinheritance⟩, ?_, ?_⟩
    · have hinside : ∀ layer ∈ inner ++ [⟨.body method, names⟩] ++ [⟨.receiver method, ["this"]⟩],
          "super" ∉ layer.names :=
        List.forall_mem_append.mpr ⟨hplain "super" Store.super_mem_reserved, by simp⟩
      have hdistance := Enclosure.distance?_of_split
        (hΓ.trans ((List.append_cons ..).trans (List.append_cons ..))) hinside List.mem_cons_self
      simpa using hdistance
    · exact (Store.lookupAt?_of_getElem? (hat 2) "super").trans (hpins hspelled)

/-- Where `super` is evaluated, it stands for the class to which the superclass clause of the class around
it came, and `this` for the object to which the innermost method around it was bound. -/
theorem Lived.superParts (hl : Lived Token.Scanned nextId m h) {keyword : Reference} {name : Token}
    (hm : m.control = .eval (.superMethod keyword name)) :
    ∃ site, h.HasSite site ∧ site.reference = keyword ∧ site.use = .ancestry ∧
      (∀ other, h.HasSite other → other.reference.id = keyword.id → other = site) ∧
      ∃ method object inner outer around superclass,
        site.InMethod h m.world method object inner outer around ∧
        h.InSubclass method superclass outer around ∧
        Machine.superParts m.world keyword = .ok (superclass, object) := by
  obtain ⟨hsound, hnumbers, -⟩ := hl.agrees
  obtain ⟨w, c, frames⟩ := m
  subst hm
  obtain ⟨Γ, p, hknown, hchain, -⟩ := hsound.placed
  have hsite : h.HasSite ⟨keyword, .ancestry, Γ, p⟩ := hknown.2 _ List.mem_cons_self
  obtain ⟨hlegal, hdistance⟩ := hsound.resolved _ hsite
  have hname : keyword.name.lexeme = "super" := hknown.1.1.1.spelled.keyword _ hknown.1.1.2
  have hderived : Γ.classContext = .derived := hlegal.inDerived rfl
  obtain ⟨method, object, inner, outer, around, hmethod, -, hobject, hsub⟩ :=
    hl.inMethod hlegal hchain (by rw [hderived]; decide)
  obtain ⟨superclass, hsubclass, hsuper, hclass⟩ := hsub hderived
  refine ⟨_, hsite, rfl, rfl, fun other hother heq => hnumbers.unique other _ hother hsite heq,
    method, object, inner, outer, around, superclass, hmethod, hsubclass, ?_⟩
  have hd : w.distances.get? keyword = some (inner.length + 2) :=
    hdistance.trans ((hlegal.distance?_of_reserved hname Store.super_mem_reserved).trans hsuper)
  unfold Machine.superParts
  rw [hd]
  dsimp only at hclass hobject ⊢
  rw [hclass]
  dsimp only
  rw [hobject]

end Sites

/-- Where `this` is evaluated the result is the object to which the innermost method around it was
bound. Where `super` is evaluated the method is looked up from the class to which the superclass clause
of the class around that method came, and is bound to the same object; all that can fail is that there
is no such method. -/
theorem this_and_super {nextId : Nat} {m : Machine} {h : History}
    (hl : Lived Token.Scanned nextId m h) :
    (∀ keyword, m.control = .eval (.thisObject keyword) →
      ∃ site, h.HasSite site ∧ site.reference = keyword ∧ site.use = .receiver ∧
        (∀ other, h.HasSite other → other.reference.id = keyword.id → other = site) ∧
        ∃ method object inner outer around,
          site.InMethod h m.world method object inner outer around ∧
          m.step = ⟨m.world, .value (.object object), m.frames⟩) ∧
    ∀ keyword name, m.control = .eval (.superMethod keyword name) →
      ∃ site, h.HasSite site ∧ site.reference = keyword ∧ site.use = .ancestry ∧
        (∀ other, h.HasSite other → other.reference.id = keyword.id → other = site) ∧
        ∃ method object inner outer around superclass,
          site.InMethod h m.world method object inner outer around ∧
          h.InSubclass method superclass outer around ∧
          m.step = match superclass.method? name.lexeme with
            | some found =>
              let (v, w) := m.world.onStore (·.newMethod found object)
              ⟨w, .value v, m.frames⟩
            | none => ⟨m.world, .fault (name.fault (.undefinedProperty name.lexeme)), m.frames⟩ := by
  obtain ⟨hsound, hnumbers, -⟩ := hl.agrees
  obtain ⟨w, c, frames⟩ := m
  refine ⟨fun keyword hm => ?_, fun keyword name hm => ?_⟩
  · subst hm
    obtain ⟨Γ, p, hknown, hchain, -⟩ := hsound.placed
    have hsite : h.HasSite ⟨keyword, .receiver, Γ, p⟩ := hknown.2 _ List.mem_cons_self
    obtain ⟨hlegal, hdistance⟩ := hsound.resolved _ hsite
    have hname : keyword.name.lexeme = "this" := hknown.1.1.spelled.keyword _ hknown.1.2
    obtain ⟨method, object, inner, outer, around, hmethod, hthis, hobject, -⟩ :=
      hl.inMethod hlegal hchain (hlegal.inClass rfl)
    refine ⟨_, hsite, rfl, rfl, fun other hother heq => hnumbers.unique other _ hother hsite heq,
      method, object, inner, outer, around, hmethod, ?_⟩
    have hd : w.distances.get? keyword = some (inner.length + 1) :=
      hdistance.trans ((hlegal.distance?_of_reserved hname Store.this_mem_reserved).trans hthis)
    have hread : w.read? keyword = some (.object object) := by
      rw [World.read?_of_distance hd, hname]
      exact hobject
    simp only [Machine.step, Machine.stepEval, Machine.read, hread]
  · subst hm
    obtain ⟨site, hsite, href, huse, hunique, method, object, inner, outer, around, superclass, hmethod,
      hsubclass, hparts⟩ := hl.superParts rfl
    refine ⟨site, hsite, href, huse, hunique, method, object, inner, outer, around, superclass, hmethod,
      hsubclass, ?_⟩
    simp only [Machine.step, Machine.stepEval, Machine.readSuper, hparts]
    cases superclass.method? name.lexeme <;> rfl

/-- The keyword of a `this` that comes next. -/
def Control.this? : Control → Option Reference
  | .eval (.thisObject keyword) => some keyword
  | _ => none

/-- The keyword of a `super` that comes next, and the name of the method. -/
def Control.super? : Control → Option (Reference × Token)
  | .eval (.superMethod keyword name) => some (keyword, name)
  | _ => none

theorem Control.this?_eq_some {c : Control} {keyword : Reference} (h : c.this? = some keyword) :
    c = .eval (.thisObject keyword) := by
  unfold this? at h
  split at h
  · cases h
    rfl
  · cases h

theorem Control.super?_eq_some {c : Control} {keyword : Reference} {name : Token}
    (h : c.super? = some (keyword, name)) : c = .eval (.superMethod keyword name) := by
  unfold super? at h
  split at h
  · cases h
    rfl
  · cases h

/-- In a method that an object of a deeper subclass inherits, inside a block and a function, `super`
leads to the method of the class above, and `this` in that method to the object. -/
theorem this_and_super_in_inherited :
    ∃ nextId, (∃ m h keyword object, Lived Token.Scanned nextId m h ∧
      m.control = .eval (.thisObject keyword) ∧
      m.step = ⟨m.world, .value (.object object), m.frames⟩) ∧
    ∃ m h keyword name site method object inner outer around superclass found,
      Lived Token.Scanned nextId m h ∧ m.control = .eval (.superMethod keyword name) ∧
      site.reference = keyword ∧ Site.InMethod h m.world site method object inner outer around ∧
      h.InSubclass method superclass outer around ∧ superclass.method? name.lexeme = some found ∧
      m.step = ⟨(m.world.onStore (·.newMethod found object)).2,
        .value (m.world.onStore (·.newMethod found object)).1, m.frames⟩ := by
  let source := "class A \x7b m() \x7b this; \x7d \x7d
    class B < A \x7b m() \x7b \x7b fun f() \x7b super.m(); \x7d f(); \x7d \x7d \x7d
    class C < B \x7b \x7d
    C().m();"
  let tokens := (tokenize source.toUTF8.toList).1
  let loaded := (Session.fresh (.ofRoom none) (.standing 0)).loadTokens tokens
  have hrun : (loaded.2.any fun program =>
      let m := (loaded.1.world.program program).run 35
      let next := (loaded.1.world.program program).run 39
      m.control.super?.isSome && m.step.control.isValue && next.control.this?.isSome) = true := by
    decide +kernel
  obtain ⟨program, hprogram, hruns⟩ := (Option.any_eq_true _ _).mp hrun
  simp only [Bool.and_eq_true] at hruns
  obtain ⟨⟨hfirst, hfound⟩, hnext⟩ := hruns
  obtain ⟨⟨keyword, name⟩, hfirst⟩ := Option.isSome_iff_exists.mp hfirst
  obtain ⟨keyword', hnext⟩ := Option.isSome_iff_exists.mp hnext
  have hsuper := Control.super?_eq_some hfirst
  have hthis := Control.this?_eq_some hnext
  have hl (n : Nat) : Lived Token.Scanned _ _ _ := Lived.of_load (fun t ht => ⟨_, ht⟩)
    (show loaded = (loaded.1, some program) by rw [← hprogram]) n
  refine ⟨loaded.1.nextId, ?_, ?_⟩
  · obtain ⟨site, -, -, -, -, method, object, -, -, -, -, hstep⟩ :=
      (this_and_super (hl 39)).1 keyword' hthis
    exact ⟨_, _, keyword', object, hl 39, hthis, hstep⟩
  · obtain ⟨site, -, href, -, -, method, object, inner, outer, around, superclass, hmethod, hsub,
      hstep⟩ := (this_and_super (hl 35)).2 keyword name hsuper
    cases hlookup : superclass.method? name.lexeme with
    | none =>
      rw [hstep, hlookup] at hfound
      cases hfound
    | some found =>
      rw [hlookup] at hstep
      exact ⟨_, _, keyword, name, site, method, object, inner, outer, around, superclass, found,
        hl 35, hsuper, href, hmethod, hsub, hlookup, hstep⟩

end LoxLang
