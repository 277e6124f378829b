import LoxLang.Proofs.Scope.Position

/-!
What a machine keeps while it reads, writes and calls. `Machine.Sound` says that a machine agrees with
a setting: recorded distances are those of the text, stored values are valid, and what comes next is a
part of a program whose enclosure the active chain realizes. `Setting.Leads` says that one machine
comes from another and agrees with a setting that has grown by the scopes opened in between.
-/
namespace LoxLang
set_option autoImplicit false

/-- A machine agrees with a setting. -/
structure Machine.Sound (S : Setting) (m : Machine) : Prop where
  store : m.world.store = S.store
  resolved : ∀ site, S.known site → site.Legal S.admits ∧
    m.world.distances.get? site.reference = site.distance?
  holds : S.Holds
  placed : S.Places m.world.chain m.frames m.control

namespace Setting

/-- One machine comes from another in a setting: the setting has grown by nothing but what the former
opens, and the latter stands at its place. -/
structure Arrives (S S' : Setting) (m m' : Machine) : Prop where
  le : S.Le S'
  known : S'.known = S.known
  opened : ∀ origin id outer, S'.opened origin id outer →
    S.opened origin id outer ∨ m.Opens origin id outer
  store : m'.world.store = S'.store
  distances : m'.world.distances = m.world.distances
  holds : S'.Holds
  placed : S'.Places m'.world.chain m'.frames m'.control

def Leads (S : Setting) (m m' : Machine) : Prop :=
  ∃ S', S.Arrives S' m m'

theorem leads_same {S : Setting} {m m' : Machine} (hholds : S.Holds)
    (hstore : m'.world.store = S.store) (hdistances : m'.world.distances = m.world.distances)
    (hplaced : S.Places m'.world.chain m'.frames m'.control) : S.Leads m m' :=
  ⟨S, .refl S, rfl, fun _ _ _ => .inl, hstore, hdistances, hholds, hplaced⟩

theorem leads_withStore {S : Setting} {m m' : Machine} {s : Store}
    (hgrows : S.store.Grows S.spelled s) (hholds : (S.withStore s).Holds)
    (hstore : m'.world.store = s) (hdistances : m'.world.distances = m.world.distances)
    (hplaced : (S.withStore s).Places m'.world.chain m'.frames m'.control) : S.Leads m m' :=
  ⟨S.withStore s, le_withStore hgrows, rfl, fun _ _ _ => .inl, hstore, hdistances, hholds, hplaced⟩

/-- A step in two parts. -/
theorem Leads.of_le {S S' : Setting} {m m' : Machine} (hle : S.Le S') (hknown : S'.known = S.known)
    (hopened : ∀ origin id outer, S'.opened origin id outer →
      S.opened origin id outer ∨ m.Opens origin id outer) (h : S'.Leads m m') : S.Leads m m' := by
  obtain ⟨S'', ha⟩ := h
  refine ⟨S'', hle.trans ha.le, ha.known.trans hknown, fun origin id outer h => ?_, ha.store,
    ha.distances, ha.holds, ha.placed⟩
  rcases ha.opened origin id outer h with hold | hnew
  · exact hopened origin id outer hold
  · exact .inr hnew

/-! ## References and properties -/

section Values
variable {S : Setting} {m : Machine} {Γ : Enclosure} {p : Option String} {frames : List Frame}

theorem places_value {v : Value} {chain : Chain} (hv : v.Valid S)
    (h : S.Stands Γ (.value Γ p) chain frames) : S.Places chain frames (.value v) :=
  ⟨hv, Γ, p, h⟩

theorem settle_leads (hstore : m.world.store = S.store) (hholds : S.Holds)
    (h : S.Stands Γ (.value Γ p) m.world.chain frames) {result : Except RuntimeFault Value}
    (hv : ∀ v, result = .ok v → v.Valid S) : S.Leads m (Machine.settle m.world frames result) := by
  cases result with
  | error f => exact leads_same hholds hstore rfl trivial
  | ok v => exact leads_same hholds hstore rfl (places_value (hv v rfl) h)

theorem read_leads (hstore : m.world.store = S.store) (hholds : S.Holds)
    (h : S.Stands Γ (.value Γ p) m.world.chain frames) (target : Reference) :
    S.Leads m (Machine.read m.world target frames) := by
  unfold Machine.read
  split
  · rename_i v hread
    unfold World.read? at hread
    rw [hstore] at hread
    exact leads_same hholds hstore rfl (places_value (hholds.valueIn? hread) h)
  · exact leads_same hholds hstore rfl trivial

theorem write_leads (hstore : m.world.store = S.store) (hholds : S.Holds)
    (h : S.Stands Γ (.value Γ p) m.world.chain frames) {target : Reference}
    (hname : target.name.IsName S.admits) {v : Value} (hv : v.Valid S) :
    S.Leads m (Machine.write m.world target v frames) := by
  unfold Machine.write
  split
  · rename_i id hid
    have hbinds := World.binds_of_binder? hid
    rw [hstore] at hbinds
    have hgrows : S.store.Grows S.spelled (S.store.bind id target.name.lexeme v) :=
      Store.grows_bind S.store id v fun hs => (hs _ hname.1).not_reserved hname.2
    have hle := le_withStore hgrows
    refine leads_withStore hgrows (hholds.bind hle (hv.mono hle)) ?_ rfl
      (places_value (hv.mono hle) (h.mono hle fun stack hstack => ?_))
    · simp [hstore]
    · simpa [withStore] using hstack.bind_bound hbinds
  · exact leads_same hholds hstore rfl trivial

/-- A method bound to an object, in the setting after the scope of the object has been opened. -/
theorem valid_bindMethod {method : Closure} (hmethod : method.ValidMethod S) (object : ObjectRef) :
    Closure.Valid
      (S.opening (.binding method.declaration object) method.chain
        (Table.empty.insert "this" (.object object)))
      (S.store.bindMethod method object).1 := by
  obtain ⟨Γ, hchain, hknown⟩ := hmethod
  exact ⟨Γ.ofMethod method.declaration, hchain.opening_single rfl rfl,
    hknown.mono (S.le_opening _ _ _)⟩

/-- Scopes that are only opened leave those in use exact. -/
theorem exact_opening {origin : Origin} {outer : Chain} {bindings : Table Value}
    {stack : Suspended} (h : S.store.Exact S.store.scopes.size stack) :
    (S.opening origin outer bindings).store.Exact
      (S.opening origin outer bindings).store.scopes.size stack :=
  (h.newScope bindings).mono (by simp [opening])

theorem opened_opening {origin : Origin} {outer : Chain} {bindings : Table Value}
    (hopens : m.Opens origin S.store.scopes.size outer) (o : Origin) (id : ScopeId) (chain : Chain)
    (h : (S.opening origin outer bindings).opened o id chain) :
    S.opened o id chain ∨ m.Opens o id chain := by
  rcases h with hold | ⟨rfl, rfl, rfl⟩
  · exact .inl hold
  · exact .inr hopens

theorem newMethod_leads (hstore : m.world.store = S.store) (hholds : S.Holds)
    (h : S.Stands Γ (.value Γ p) m.world.chain frames) {method : Closure}
    (hmethod : method.ValidMethod S) {object : ObjectRef} (hobject : object.origin.Valid S)
    (hopens : m.Opens (.binding method.declaration object) m.world.store.scopes.size method.chain) :
    S.Leads m ⟨(m.world.onStore (·.newMethod method object)).2,
      .value (m.world.onStore (·.newMethod method object)).1, frames⟩ := by
  rw [hstore] at hopens
  have hbound := valid_bindMethod hmethod object
  have hle := S.le_opening (.binding method.declaration object) method.chain
    (Table.empty.insert "this" (.object object))
  have hopened := hholds.opening_single (.binding method.declaration object) method.chain
    (x := "this") (v := .object object) hobject
  have hidentity := le_withStore (S := S.opening (.binding method.declaration object) method.chain
    (Table.empty.insert "this" (.object object))) (s := (S.store.newMethod method object).2)
    (.of_scopes rfl)
  refine .of_le hle rfl (opened_opening hopens) (leads_withStore
    (s := (S.store.newMethod method object).2) (.of_scopes rfl) (hopened.of_eq rfl rfl) ?_ rfl ?_)
  · simp [hstore]
  · have hopening := h.mono hle fun _ => exact_opening
    have hstands := hopening.mono hidentity fun _ hstack => hstack.of_scopes rfl
    refine places_value ?_ hstands
    have hvalid := hbound.mono hidentity
    rw [World.onStore_fst, hstore]
    exact hvalid

theorem readProperty_leads {w : World} (hstore : w.store = S.store) (hholds : S.Holds)
    {v : Value} (hv : v.Valid S) {name : Token} (h : S.Stands Γ (.value Γ p) w.chain frames) :
    S.Leads ⟨w, .value v, .get name :: frames⟩ (Machine.readProperty w v name frames) := by
  unfold Machine.readProperty
  split
  · rename_i object
    cases hfield : (w.store.fieldsOf object).get? name.lexeme with
    | some u =>
      have hu := hholds.fields object name.lexeme u (by rw [← hstore]; exact hfield)
      have hread : w.onStore (·.property? object name.lexeme) = (some u, w) := by
        simp [World.onStore, Store.property?, hfield]
      rw [hread]
      exact leads_same hholds hstore rfl (places_value hu h)
    | none =>
      cases hmethod : object.origin.method? name.lexeme with
      | none =>
        have hread : w.onStore (·.property? object name.lexeme) = (none, w) := by
          simp [World.onStore, Store.property?, hfield, hmethod]
        rw [hread]
        exact leads_same hholds hstore rfl trivial
      | some method =>
        have hread : w.onStore (·.property? object name.lexeme) =
            (some (w.onStore (·.newMethod method object)).1,
              (w.onStore (·.newMethod method object)).2) := by
          simp [World.onStore, Store.property?, hfield, hmethod]
        rw [hread]
        exact newMethod_leads (m := ⟨w, .value (.object object), .get name :: frames⟩) hstore hholds
          h (hv name.lexeme method hmethod) hv (.property hfield hmethod)
  · exact leads_same hholds hstore rfl trivial

/-- What `super` and `this` stand for are valid values. -/
theorem valid_superParts {w : World} (hstore : w.store = S.store) (hholds : S.Holds)
    {keyword : Reference} {superclass : ClassObject} {object : ObjectRef}
    (h : Machine.superParts w keyword = .ok (superclass, object)) :
    superclass.Valid S ∧ object.origin.Valid S := by
  unfold Machine.superParts at h
  split at h
  · cases h
  · split at h
    · cases h
    · rename_i hsuper
      rw [hstore] at hsuper
      have hclass := hholds.valueIn? hsuper
      split at h
      · cases h
      · split at h
        · cases h
        · rename_i hthis
          cases h
          rw [hstore] at hthis
          exact ⟨hclass, hholds.valueIn? hthis⟩
        · cases h
    · cases h

theorem readSuper_leads {w : World} (hstore : w.store = S.store) (hholds : S.Holds)
    {keyword : Reference} {method : Token} (h : S.Stands Γ (.value Γ p) w.chain frames) :
    S.Leads ⟨w, .eval (.superMethod keyword method), frames⟩
      (Machine.readSuper w keyword method frames) := by
  unfold Machine.readSuper
  cases hparts : Machine.superParts w keyword with
  | error f => exact leads_same hholds hstore rfl trivial
  | ok parts =>
    obtain ⟨superclass, object⟩ := parts
    obtain ⟨hclass, hobject⟩ := valid_superParts hstore hholds hparts
    dsimp only
    cases hmethod : superclass.method? method.lexeme with
    | none => exact leads_same hholds hstore rfl trivial
    | some found =>
      exact newMethod_leads (m := ⟨w, .eval (.superMethod keyword method), frames⟩) hstore hholds h
        (hclass method.lexeme found hmethod) hobject (.super hparts hmethod)

/-! ## Calls -/

theorem contains_parameters {closure : Closure} {arguments : List Value}
    (harity : arguments.length = closure.arity) (x : String) :
    (Table.ofList ((closure.declaration.params.map Token.lexeme).zip arguments)).contains x = true ↔
      x ∈ (closure.declaration.params.map Token.lexeme).reverse := by
  rw [Table.contains_ofList, List.map_fst_zip, List.mem_reverse]
  rw [List.length_map, harity]
  exact Nat.le_refl _

theorem enterBody_leads {w : World} (hstore : w.store = S.store)
    (hdistances : w.distances = m.world.distances) (hholds : S.Holds)
    (h : S.Stands Γ (.value Γ p) w.chain frames) {closure : Closure} (hclosure : closure.Valid S)
    {arguments : List Value} (harguments : ∀ v ∈ arguments, v.Valid S)
    (harity : arguments.length = closure.arity)
    (hopens : m.Opens (.call closure.declaration) w.store.scopes.size closure.chain) :
    S.Leads m (Machine.enterBody w closure arguments frames) := by
  obtain ⟨outer, hchain, hknown⟩ := hclosure
  obtain ⟨hcaller, stack, hframes, hexact⟩ := h
  rw [hstore] at hopens
  let bindings := Table.ofList ((closure.declaration.params.map Token.lexeme).zip arguments)
  have hnames := contains_parameters harity
  have hle := S.le_opening (.call closure.declaration) closure.chain bindings
  have hbody : (S.opening (.call closure.declaration) closure.chain bindings).Realizes
      (Enclosure.ofFunction closure.declaration outer) (S.store.scopes.size :: closure.chain) := by
    exact hchain.opening _ _ _ rfl (fun x hx => (hnames x).mpr hx) trivial
  refine ⟨S.opening (.call closure.declaration) closure.chain bindings, hle, rfl,
    opened_opening hopens, ?_, hdistances, ?_, ?_⟩
  · simp [Machine.enterBody, opening, hstore, bindings]
  · refine hholds.opening _ _ _ fun x v hv => harguments v ?_
    exact (List.of_mem_zip (Table.mem_of_get?_ofList hv)).2
  · -- The body starts with its parameters declared; the chain of the caller waits in the frame.
    refine ⟨_, hknown.body.mono hle, ?_, _, .call (hcaller.mono hle) (hframes.mono hle), ?_⟩
    · simpa [Machine.enterBody, hstore] using hbody
    · have hexact := hexact.enter hholds.globals bindings
        ⟨.body closure.declaration, (closure.declaration.params.map Token.lexeme).reverse⟩
        outer closure.chain fun x => (hnames x).mp
      simpa [Machine.enterBody, Enclosure.ofFunction, hstore, opening] using hexact

theorem construct_leads (hstore : m.world.store = S.store) (hholds : S.Holds)
    (h : S.Stands Γ (.value Γ p) m.world.chain frames) {origin : ClassObject}
    (horigin : origin.Valid S) {arguments : List Value} (harguments : ∀ v ∈ arguments, v.Valid S)
    (harity : arguments.length = origin.arity)
    (hstep : m.step = Machine.construct m.world origin arguments frames) :
    S.Leads m m.step := by
  obtain ⟨admits, known, opened, store⟩ := S
  obtain rfl : m.world.store = store := hstore
  let made : Setting := ⟨admits, known, opened, (m.world.store.newObject origin).2⟩
  let object : ObjectRef := (m.world.store.newObject origin).1
  have hle : Le ⟨admits, known, opened, m.world.store⟩ made := le_withStore (.of_scopes rfl)
  have hmade := h.mono hle fun _ hstack => hstack.of_scopes rfl
  have horigin' := horigin.mono hle
  unfold Machine.construct at hstep
  cases hinit : origin.method? initializerName with
  | none =>
    rw [hinit] at hstep
    rw [hstep]
    exact leads_withStore (s := made.store) (.of_scopes rfl) (hholds.newObject origin) rfl rfl
      (places_value (v := .object object) horigin' hmade)
  | some method =>
    rw [hinit] at hstep
    dsimp only at hstep
    -- One step opens two scopes: the initializer is bound to the object, and then entered.
    let origin' := Origin.binding method.declaration object
    let bindings := (Table.empty : Table Value).insert "this" (.object object)
    have hopening := made.le_opening origin' method.chain bindings
    have hheld : (made.opening origin' method.chain bindings).Holds :=
      (hholds.newObject origin).opening_single origin' method.chain horigin'
    have hstands := (hmade.mono hopening fun _ => exact_opening).reframe fun stack hframes =>
      .construct (show object.origin.Valid _ from horigin'.mono hopening) hframes
    have hbind : m.Opens origin' made.store.scopes.size method.chain :=
      .initializer (w := (m.world.onStore (·.newObject origin)).2) (Nat.le_refl _) hinit hstep
    let entered := ((m.world.onStore (·.newObject origin)).2.onStore (·.bindMethod method object)).2
    have hbound := valid_bindMethod (horigin' _ method hinit) object
    rw [hstep]
    refine .of_le (hle.trans hopening) rfl (opened_opening hbind)
      (enterBody_leads (w := entered) rfl rfl hheld hstands hbound
        (fun v hv => ((harguments v hv).mono hle).mono hopening) ?_ (.call ?_ hstep))
    · exact harity.trans (by rw [ClassObject.arity, hinit]; rfl)
    · exact Nat.le_of_lt (by simp [entered, object, Store.bindMethod, Store.newScope, Store.newObject])

theorem enter_leads (hstore : m.world.store = S.store) (hholds : S.Holds)
    (h : S.Stands Γ (.value Γ p) m.world.chain frames) {callable : Callable}
    (hcallable : Value.Valid S (.callable callable)) {arguments : List Value}
    (harguments : ∀ v ∈ arguments, v.Valid S) (harity : arguments.length = callable.arity)
    (hstep : m.step = Machine.enter m.world callable arguments frames) :
    S.Leads m m.step := by
  cases callable with
  | clock =>
    rw [hstep]
    exact leads_same hholds hstore rfl (places_value (v := .number _) trivial h)
  | function id closure =>
    rw [hstep]
    exact enterBody_leads hstore rfl hholds h hcallable harguments harity
      (.call (Nat.le_refl _) hstep)
  | classObject origin =>
    exact construct_leads hstore hholds h hcallable harguments harity hstep

theorem apply_leads (hstore : m.world.store = S.store) (hholds : S.Holds)
    (h : S.Stands Γ (.value Γ p) m.world.chain frames) {callee : Value} (hcallee : callee.Valid S)
    {paren : Token} {arguments : List Value} (harguments : ∀ v ∈ arguments, v.Valid S)
    (hstep : m.step = Machine.apply m.world callee paren arguments frames) :
    S.Leads m m.step := by
  have hfault : ∀ f, m.step = ⟨m.world, .fault f, frames⟩ → S.Leads m m.step := by
    intro f hf
    rw [hf]
    exact leads_same hholds hstore rfl trivial
  unfold Machine.apply at hstep
  split at hstep
  · split at hstep
    · exact hfault _ hstep
    · rename_i harity
      split at hstep
      · exact hfault _ hstep
      · exact enter_leads hstore hholds h hcallee harguments (by simpa using harity) hstep
  · exact hfault _ hstep

theorem evalArguments_leads (hstore : m.world.store = S.store) (hholds : S.Holds)
    (h : S.Stands Γ (.value Γ p) m.world.chain frames) {callee : Value} (hcallee : callee.Valid S)
    {paren : Token} {before : List Value} (hbefore : ∀ v ∈ before, v.Valid S) {rest : List Expr}
    (hrest : Expr.AllKnown S Γ p rest)
    (hstep : m.step = Machine.evalArguments m.world callee paren before rest frames) :
    S.Leads m m.step := by
  cases rest with
  | nil => exact apply_leads hstore hholds h hcallee hbefore hstep
  | cons e rest =>
    obtain ⟨he, hrest⟩ := hrest.cons
    rw [hstep]
    exact leads_same hholds hstore rfl
      ⟨Γ, p, he, h.reframe fun stack hframes => .argument hcallee hbefore hrest hframes⟩

end Values

theorem finishCall_leads {S : Setting} {w : World} {caller : Chain} {closure : Closure}
    {completion : Completion} {Γ : Enclosure} {frames : List Frame} {stack : Suspended}
    (hstore : w.store = S.store) (hholds : S.Holds)
    (hv : ∀ v, completion = .returned v → v.Valid S)
    (h : S.Awaits (.completion Γ) (.call caller closure :: frames) stack)
    (hexact : S.store.Exact S.store.scopes.size stack) :
    S.Leads ⟨w, .done completion, .call caller closure :: frames⟩
      (Machine.finishCall w caller closure completion frames) := by
  cases h with
  | @call _ outer p _ _ _ rest hchain hframes =>
    have hstands : S.Stands outer (.value outer p) caller frames := ⟨hchain, rest, hframes, hexact⟩
    unfold Machine.finishCall
    dsimp only
    split
    · split
      · rename_i v hthis
        have hvalid : v.Valid S := by
          simp only [World.leaveCall_eq, hstore] at hthis
          exact hholds.valueIn? hthis
        exact leads_same hholds hstore rfl (places_value hvalid hstands)
      · exact leads_same hholds hstore rfl trivial
    · cases completion with
      | returned v => exact leads_same hholds hstore rfl (places_value (hv v rfl) hstands)
      | normal => exact leads_same hholds hstore rfl (places_value (v := .nil) trivial hstands)

end Setting

end LoxLang
