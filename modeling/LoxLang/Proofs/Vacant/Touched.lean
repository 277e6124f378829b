import LoxLang.Proofs.Machine.Termination
import LoxLang.Proofs.Scope.Methods
import LoxLang.Proofs.Scope.Writes
import LoxLang.Proofs.Vacant.Steps

/-!
Sessions and vacant scopes. A world that a session has come to is its own image, as long as nothing is
left out (`Lived.imaged_self`). From there on code never touches a vacant scope: a distance of the text
leads to a scope that binds the name of the reference, and a vacant scope binds nothing. The exceptions
are a declaration and an assignment in the initializer of the variable assigned to, where the scope is
the one of the declaration; so code that declares nothing in the scopes that there were keeps to scopes
with images (`Lived.keepsTo`).
-/
namespace LoxLang
set_option autoImplicit false

/-! ## Worlds that are their own images -/

namespace Layout
variable {L : Layout} {allowed : Stmt → Prop}

theorem HasLinks.imaged_self {chain : Chain} (h : L.HasLinks chain) :
    chain.Imaged (.same L.links.length) chain := by
  induction chain with
  | nil => exact .nil
  | cons id outer ih => exact (ih h.2).cons (Images.keeps_same (lt_of_getElem? h.1))

theorem HasFunction.imaged_self {c : Closure} (h : L.HasFunction allowed c) :
    c.Callable (.same L.links.length) c := by
  refine ⟨⟨rfl, h.1.2.imaged_self, rfl⟩, fun _ id hid => ?_⟩
  rw [List.head?_eq_getElem?] at hid
  exact h.1.2.imaged_self.keeps_at hid (Images.not_vacant_same _ id)

theorem Sound.class_imaged_self (hsound : L.Sound allowed) {c : ClassObject} (h : L.HasClass c) :
    c.Imaged (.same L.links.length) c :=
  ⟨rfl, rfl, fun _ => rel_self fun _ hmethod =>
    (hsound.hasFunction_method? h hmethod).imaged_self.toImaged⟩

theorem Sound.value_imaged_self (hsound : L.Sound allowed) {v : Value} (h : L.HasValue v) :
    v.Imaged (.same L.links.length) v := by
  cases v with
  | callable callable =>
    cases callable with
    | clock => exact .callable .clock
    | function id closure =>
      exact .callable (.function id (hsound.functions id id closure h).2.imaged_self)
    | classObject c => exact .callable (.classObject (hsound.class_imaged_self h))
  | object object =>
    exact .object ⟨rfl, hsound.class_imaged_self (hsound.origins object.id object.origin h)⟩
  | _ => exact .plain trivial

theorem Holds.imaged_self {s : Store} (h : L.Holds allowed s) :
    s.Imaged (.same L.links.length) s := by
  refine ⟨?_, fun hid => ?_, fun hid hother => ?_,
    Images.keeps_same (lt_of_getElem? h.sound.globals), fun hid x => ?_,
    fun hvacant => absurd hvacant (Images.not_vacant_same _ _), rfl, fun {object object'} hid x => ?_,
    rfl⟩
  · rw [Images.same, List.length_map, List.length_range, h.scopes]
  · obtain ⟨rfl, hlt⟩ := Images.eq_of_keeps_same hid
    rwa [← h.scopes]
  · exact (Images.eq_of_keeps_same hother).1.symm.trans (Images.eq_of_keeps_same hid).1
  · obtain ⟨rfl, -⟩ := Images.eq_of_keeps_same hid
    exact rel_self fun v hv => h.sound.value_imaged_self (h.bound _ x v hv)
  · rw [Store.fieldsOf, Store.fieldsOf, hid]
    exact rel_self fun v hv => h.sound.value_imaged_self (h.stored object x v hv)

end Layout

/-- What has been allocated in a session, all statements being allowed. -/
theorem Lived.exists_layout {admits : Token → Prop} {nextId : Nat} {m : Machine} {h : History}
    (hl : Lived admits nextId m h) :
    ∃ L : Layout, L.Holds (fun _ => True) m.world.store ∧ L.HasChain m.world.chain := by
  have hall : ∀ program ∈ h.programs, ∀ s ∈ Stmt.partsAll program, True :=
    fun _ _ _ _ => trivial
  obtain ⟨past, hreached⟩ := hl.reachable hall
  obtain ⟨L, hfits, -⟩ := hreached.fits
  exact ⟨L, hfits.holds, hfits.chain⟩

theorem Lived.imaged_self {admits : Token → Prop} {nextId : Nat} {m : Machine} {h : History}
    (hl : Lived admits nextId m h) : m.world.Imaged (.same m.world.store.scopes.size) m.world := by
  obtain ⟨L, hholds, hchain⟩ := hl.exists_layout
  rw [← hholds.scopes]
  exact ⟨hholds.imaged_self, hchain.2.imaged_self, rfl, rfl, rfl, rfl⟩

theorem Lived.chain_ne_nil {admits : Token → Prop} {nextId : Nat} {m : Machine} {h : History}
    (hl : Lived admits nextId m h) : m.world.chain ≠ [] := by
  obtain ⟨L, -, hchain⟩ := hl.exists_layout
  exact hchain.1

/-! ## Declarations in progress -/

/-- Where the initializer of a variable is evaluated, the scope that is active where it is declared is the
one of the declaration. -/
theorem Setting.Awaits.beyond {S : Setting} {base : List Frame}
    (hbase : ∀ Γ x stack, ¬ S.Awaits (.value Γ (some x)) base stack) {bound : ScopeId}
    {Γ : Enclosure} {x : String} {above : List Frame} {stack : Suspended} {context : Chain × Nat}
    (h : S.Awaits (.value Γ (some x)) (above ++ base) stack)
    (hspare : Frame.AllSpare bound above context) : context.1.Beyond bound := by
  generalize hawaited : Awaited.value Γ (some x) = awaited at h
  induction above generalizing Γ awaited stack context with
  | nil =>
    subst hawaited
    exact absurd h (hbase Γ x stack)
  | cons frame above ih =>
    -- A frame that waits for a part of the initializer does not change the context.
    have hrest : ∀ {stack' : Suspended}, frame.awaitsStatement = false →
        S.Awaits awaited (above ++ base) stack' → context.1.Beyond bound := fun hframe hwait =>
      ih (Machine.spare_pop hspare hframe) _ hawaited hwait
    rw [List.cons_append] at h
    cases h with
    | define _ _ => exact hspare.1.resolve_left False.elim
    | unary h => exact hrest rfl h
    | binaryLeft _ h => exact hrest rfl h
    | binaryRight h => exact hrest rfl h
    | logical _ h => exact hrest rfl h
    | assign _ _ h => exact hrest rfl h
    | callee _ h => exact hrest rfl h
    | argument _ _ _ h => exact hrest rfl h
    | get h => exact hrest rfl h
    | setObject _ h => exact hrest rfl h
    | setValue h => exact hrest rfl h
    | construct _ h => exact hrest rfl h
    | _ => cases hawaited

/-! ## Scopes that are touched -/

section Touched
variable {nextId : Nat} {m : Machine} {h : History}

/-- A distance of the text leads to a scope that binds the name. -/
theorem Lived.binds_at_distance {admits : Token → Prop} (hl : Lived admits nextId m h) {site : Site}
    (hsite : h.HasSite site)
    (hchain : (h.setting admits m.world.store).Realizes site.enclosure m.world.chain)
    (hmeant : site.distance? = site.enclosure.distance? site.name) {distance : Nat} {id : ScopeId}
    (hdistance : m.world.distances.get? site.reference = some distance)
    (hid : m.world.chain[distance]? = some id) : m.world.store.binds id site.name = true := by
  obtain ⟨hlegal, hresolved⟩ := hl.agrees.sound.resolved site hsite
  obtain ⟨found, hmeans⟩ := hl.meansScope hchain hlegal
    (hmeant.symm.trans (hresolved.symm.trans hdistance))
  cases hmeans.chain.symm.trans hid
  exact hmeans.binds

/-- Code that declares nothing in the vacant scopes, above frames none of which waits for an initializer,
keeps to scopes with images. -/
theorem Lived.keepsTo {base : List Frame}
    (hl : Lived Token.Scanned nextId (Machine.lift base m) h) {I : Images} {m' : Machine}
    (hm : m.Imaged I m')
    (hbase : ∀ (S : Setting) Γ x stack, ¬ S.Awaits (.value Γ (some x)) base stack)
    (hspares : ∀ id, I.Vacant id → ∃ s : Store, m.Spares s ∧ id < s.scopes.size) : m.KeepsTo I := by
  obtain ⟨hsound, -, -⟩ := hl.agrees
  have hbound : ∀ {distance : Nat} {id : ScopeId} {x : String},
      m.world.chain[distance]? = some id → m.world.store.binds id x = true →
      ∃ id', I.Keeps id id' := fun hid hbinds =>
    hm.world.chain.keeps_at hid fun hvacant => by
      rw [hm.world.store.vacant hvacant] at hbinds
      cases hbinds
  have hhead : ∀ {id : ScopeId}, m.world.chain.head? = some id →
      (∀ s : Store, m.Spares s → s.scopes.size ≤ id) → ∃ id', I.Keeps id id' := by
    intro id hid hbeyond
    rw [List.head?_eq_getElem?] at hid
    refine hm.world.chain.keeps_at hid fun hvacant => ?_
    obtain ⟨s, hs, hlt⟩ := hspares id hvacant
    exact Nat.not_lt_of_le (hbeyond s hs) hlt
  intro id htouches
  cases htouches with
  | declares hdeclares hid => exact hhead hid fun s hs => hdeclares.le hs hid
  | @reads w e target frames distance id he hdistance hid =>
    obtain ⟨Γ, p, hknown, hchain, -⟩ := hsound.placed
    rcases he with rfl | rfl
    · have hsite : h.HasSite ⟨target, .read, Γ, p⟩ := hknown.2 _ List.mem_cons_self
      exact hbound hid (hl.binds_at_distance hsite hchain rfl hdistance hid)
    · have hsite : h.HasSite ⟨target, .receiver, Γ, p⟩ := hknown.2 _ List.mem_cons_self
      have hname : target.name.lexeme = "this" := hknown.1.1.spelled.keyword _ hknown.1.2
      have hreserved : target.name.lexeme ∈ Store.reserved := hname ▸ Store.this_mem_reserved
      obtain ⟨hlegal, -⟩ := hsound.resolved _ hsite
      have hmeant := hlegal.distance?_of_reserved rfl hreserved
      exact hbound hid (hl.binds_at_distance hsite hchain hmeant hdistance hid)
  | @super w keyword name frames distance id hdistance hid =>
    obtain ⟨Γ, p, hknown, hchain, -⟩ := hsound.placed
    have hsite : h.HasSite ⟨keyword, .ancestry, Γ, p⟩ := hknown.2 _ List.mem_cons_self
    have hname : keyword.name.lexeme = "super" := hknown.1.1.1.spelled.keyword _ hknown.1.1.2
    have hreserved : keyword.name.lexeme ∈ Store.reserved := hname ▸ Store.super_mem_reserved
    obtain ⟨hlegal, -⟩ := hsound.resolved _ hsite
    have hmeant := hlegal.distance?_of_reserved rfl hreserved
    exact hbound hid (hl.binds_at_distance hsite hchain hmeant hdistance hid)
  | @receiver w keyword name frames distance id hdistance hid =>
    obtain ⟨Γ, p, hknown, hchain, -⟩ := hsound.placed
    have hsite : h.HasSite ⟨keyword, .ancestry, Γ, p⟩ := hknown.2 _ List.mem_cons_self
    have hname : keyword.name.lexeme = "super" := hknown.1.1.1.spelled.keyword _ hknown.1.1.2
    obtain ⟨hlegal, hresolved⟩ := hsound.resolved _ hsite
    have hderived : Γ.classContext = .derived := hlegal.inDerived rfl
    obtain ⟨method, object, inner, outer, around, -, -, hthis, hsub⟩ :=
      hl.inMethod hlegal hchain (by rw [hderived]; decide)
    obtain ⟨superclass, -, hsuper, -⟩ := hsub hderived
    -- `this` is bound one scope inside the one to which the distance leads.
    have hmeant := hlegal.distance?_of_reserved hname Store.super_mem_reserved
    cases hdistance.symm.trans (hresolved.trans (hmeant.trans hsuper))
    have hobject : (w.store.scope id).get? "this" = some (.object object) :=
      (Store.lookupAt?_of_getElem? hid "this").symm.trans hthis
    exact hbound hid ((w.store.binds_iff id "this").mpr ⟨_, hobject⟩)
  | @writes w v target frames distance id hdistance hid =>
    obtain ⟨-, Γ, p, hchain, stack, hwait, -⟩ := hsound.placed
    cases hwait with
    | assign _ hsite hrest =>
      have hsite : h.HasSite ⟨target, .write, Γ, p⟩ := hsite
      by_cases hown : p = some target.name.lexeme
      · obtain ⟨-, hresolved⟩ := hsound.resolved _ hsite
        have hzero : Site.distance? ⟨target, .write, Γ, p⟩ = some 0 := if_pos hown
        cases hdistance.symm.trans (hresolved.trans hzero)
        rw [← List.head?_eq_getElem?] at hid
        subst hown
        refine hhead hid fun s hs => ?_
        exact hrest.beyond (hbase _) (Machine.spare_pop hs.frames rfl) id hid
      · exact hbound hid (hl.binds_at_distance hsite hchain (if_neg hown) hdistance hid)

end Touched

end LoxLang
