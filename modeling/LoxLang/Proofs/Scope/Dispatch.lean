import LoxLang.Proofs.Scope.Initializers
import LoxLang.Proofs.Scope.Methods

/-!
Which property an object has. What its fields hold is what the states of a session have set, the latest
value for each name (`Lived.fieldsOf_eq`), and the methods of a class are the declarations in the body
from which a state of the session made it (`Lived.declared`). So a property is what was set last, or else
the method of the nearest class that declares one, bound to the object in a scope of its own; a method of
`super` is found whatever has been set (`property_dispatch`).
-/
namespace LoxLang
set_option autoImplicit false

/-! ## What has been set -/

namespace Machine

/-- The value that the next step gives a property of the object of an identity. -/
def sets? (id : Nat) (x : String) : Machine → Option Value
  | ⟨_, .value v, .setValue object name :: _⟩ =>
    if object.id = id ∧ name.lexeme = x then some v else none
  | _ => none

/-- The next step sets no property, or a value is handed to a frame that does. -/
theorem sets?_cases (m : Machine) : (∀ id x, m.sets? id x = none) ∨
    ∃ w v object name frames, m = ⟨w, .value v, .setValue object name :: frames⟩ := by
  obtain ⟨w, c, frames⟩ := m
  cases c with
  | value v =>
    cases frames with
    | nil => exact .inl fun _ _ => rfl
    | cons frame frames =>
      cases frame with
      | setValue object name => exact .inr ⟨w, v, object, name, frames, rfl⟩
      | _ => exact .inl fun _ _ => rfl
  | _ => exact .inl fun _ _ => rfl

end Machine

/-- The value that a session gave a property of the object of an identity last. -/
def History.latestSet? (h : History) (id : Nat) (x : String) : Option Value :=
  h.left.findSome? (Machine.sets? id x)

namespace Store

theorem fields_define (s : Store) (chain : Chain) (name : String) (v : Value) :
    (s.define chain name v).fields = s.fields := by
  cases chain <;> rfl

theorem fieldsOf_of_fields {s s' : Store} (h : s'.fields = s.fields) (object : ObjectRef) :
    s'.fieldsOf object = s.fieldsOf object := by
  rw [fieldsOf, fieldsOf, h]

/-- A new object has no fields, as it had none before it was there. -/
theorem get?_fieldsOf_newObject (s : Store) (origin : ClassObject) (object : ObjectRef) (x : String) :
    ((s.newObject origin).2.fieldsOf object).get? x = (s.fieldsOf object).get? x := by
  rw [fieldsOf_newObject]
  split
  · rename_i hid
    rw [fieldsOf, hid, Array.getElem?_eq_none (Nat.le_refl _)]
    rfl
  · rfl

theorem get?_fieldsOf_setField {s : Store} {object : ObjectRef} (h : object.id < s.fields.size)
    (other : ObjectRef) (name x : String) (v : Value) :
    ((s.setField object name v).fieldsOf other).get? x =
      if object.id = other.id ∧ name = x then some v else (s.fieldsOf other).get? x := by
  rw [fieldsOf_setField]
  by_cases hid : object.id = other.id
  · rw [if_pos ⟨hid, hid ▸ h⟩, Table.get?_insert]
    by_cases hname : name = x <;> simp [hid, hname]
  · rw [if_neg fun hboth => hid hboth.1, if_neg fun hboth => hid hboth.1]

end Store

namespace Machine

/-- Only where a property is set a field changes. -/
theorem Move.get?_fieldsOf {m m' : Machine} (h : Move m m') (hset : ∀ id x, m.sets? id x = none)
    (object : ObjectRef) (x : String) :
    (m'.world.store.fieldsOf object).get? x = (m.world.store.fieldsOf object).get? x := by
  have hfields : m'.world.store.fields = m.world.store.fields →
      (m'.world.store.fieldsOf object).get? x = (m.world.store.fieldsOf object).get? x :=
    fun heq => by rw [Store.fieldsOf_of_fields heq]
  cases h with
  | setsField w target name v frames =>
    have hnone := hset target.id name.lexeme
    rw [sets?, if_pos ⟨rfl, rfl⟩] at hnone
    exact absurd hnone (Option.some_ne_none v)
  | @creates w v frame frames origin =>
    exact w.store.get?_fieldsOf_newObject origin object x
  | @initializes w v frame frames origin =>
    -- The scopes that are opened for the initializer leave the fields as they are.
    exact w.store.get?_fieldsOf_newObject origin object x
  | unwinds w f frame frames => cases frame <;> rfl
  | declares w name frames => exact hfields (Store.fields_define _ _ _ _)
  | defines w name v frames => exact hfields (Store.fields_define _ _ _ _)
  | function w declaration frames => exact hfields (Store.fields_define _ _ _ _)
  | root w name methods frames =>
    exact hfields ((Store.fields_define _ _ _ _).trans (Store.fields_define _ _ _ _))
  | inherits w name parent methods superclass frames =>
    exact hfields ((Store.fields_define _ _ _ _).trans (Store.fields_define _ _ _ _))
  | _ => rfl

end Machine

section Sessions
variable {admits : Token → Prop} {nextId : Nat} {m : Machine} {h : History}

theorem History.latestSet?_cons (h : History) (m : Machine) (id : Nat) (x : String) :
    History.latestSet? ⟨h.programs, m :: h.left⟩ id x = (m.sets? id x).or (h.latestSet? id x) := by
  rw [latestSet?, List.findSome?_cons]
  cases m.sets? id x <;> rfl

/-- What an object holds is what a session has set last. -/
theorem Lived.fieldsOf_eq (hl : Lived admits nextId m h) (object : ObjectRef) (x : String) :
    (m.world.store.fieldsOf object).get? x = h.latestSet? object.id x := by
  induction hl with
  | fresh sink clock => rfl
  | @step nextId m h hl ih =>
    rw [History.latestSet?_cons, ← ih]
    rcases m.sets?_cases with hset | ⟨w, v, target, name, frames, rfl⟩
    · rw [hset]
      cases hhalted : m.halted with
      | true =>
        rw [Machine.step_of_halted hhalted]
        rfl
      | false => exact (Machine.move_step hhalted).get?_fieldsOf hset object x
    · -- The object that is set has been allocated, so its field is there.
      obtain ⟨L, hfits, -⟩ := hl.marks
      have hobject : L.HasObject target := hfits.frames _ List.mem_cons_self
      have hlt := Layout.lt_of_getElem? hobject
      rw [hfits.holds.objects] at hlt
      refine (Store.get?_fieldsOf_setField hlt object name.lexeme x v).trans ?_
      rw [Machine.sets?]
      split <;> rfl
  | load _ _ _ hload ih =>
    obtain ⟨-, -, entries, -, hworld⟩ := Session.loadTokens_some hload
    rw [hworld]
    exact ih
  | refuse _ _ _ hload ih =>
    obtain ⟨-, hworld⟩ := Session.loadTokens_none hload
    rw [hworld]
    exact ih

/-! ## What has been declared -/

/-- A state left has made a class from some methods, which see a chain of scopes. -/
def History.Declared (h : History) (c : ClassObject) (methods : List FunctionDeclaration)
    (chain : Chain) : Prop :=
  ∃ m ∈ h.left, m.DeclaresClass c methods chain

/-- A class declares a method: it is the last declaration of the name in the body of the class. -/
def History.Declares (h : History) (c : ClassObject) (x : String) (method : Closure) : Prop :=
  ∃ methods chain declaration, h.Declared c methods chain ∧
    FunctionDeclaration.lastNamed? x methods = some declaration ∧
    method = ⟨declaration, chain, declaration.name.lexeme == initializerName⟩

/-- A class declares no method of a name. -/
def History.Lacks (h : History) (c : ClassObject) (x : String) : Prop :=
  ∃ methods chain, h.Declared c methods chain ∧ ∀ declaration ∈ methods, declaration.name.lexeme ≠ x

/-- The nearest class, from a class upward, that declares a method of a name declares this one. -/
def History.Nearest (h : History) (c : ClassObject) (x : String) (method : Closure) : Prop :=
  ∃ below k above, c.lineage = below ++ k :: above ∧ (∀ j ∈ below, h.Lacks j x) ∧
    h.Declares k x method

/-- No class, from a class upward, declares a method of a name. -/
def History.Nowhere (h : History) (c : ClassObject) (x : String) : Prop :=
  ∀ j ∈ c.lineage, h.Lacks j x

/-- Every class of a session has been declared in it. -/
theorem Lived.declared (hl : Lived admits nextId m h) :
    ∃ L, m.Fits L (fun _ => True) ∧ ∀ c, L.HasClass c →
      ∃ methods chain, h.Declared c methods chain := by
  refine hl.fits_with (P := fun L h _ => ∀ c, L.HasClass c →
    ∃ methods chain, h.Declared c methods chain) (fun _ _ _ _ _ => trivial) ?_ ?_ ?_
  · exact fun _ _ _ hc => absurd hc (Option.some_ne_none _).symm
  · intro L L' m h hm hlists hdeclared c hc
    rcases hlists.new c.id _ hc with hold | hmade
    · obtain ⟨methods, chain, left, hleft, hdeclares⟩ := hdeclared c hold
      exact ⟨methods, chain, left, List.mem_cons_of_mem m hleft, hdeclares⟩
    · cases hmade with
      | classObject hdeclares => exact ⟨_, _, m, List.mem_cons_self, hdeclares⟩
  · exact fun _ _ _ hdeclared => hdeclared

theorem History.Declared.get?_methods {c : ClassObject} {methods : List FunctionDeclaration}
    {chain : Chain} (hc : h.Declared c methods chain) (x : String) :
    c.methods.get? x = (FunctionDeclaration.lastNamed? x methods).map
      fun declaration => ⟨declaration, chain, declaration.name.lexeme == initializerName⟩ := by
  obtain ⟨left, -, hdeclares⟩ := hc
  rw [hdeclares.methods_eq, Machine.get?_methodTable]

theorem History.Declared.declares {c : ClassObject} {methods : List FunctionDeclaration}
    {chain : Chain} (hc : h.Declared c methods chain) {x : String} {method : Closure}
    (hmethod : c.methods.get? x = some method) : h.Declares c x method := by
  rw [hc.get?_methods] at hmethod
  obtain ⟨declaration, hlast, rfl⟩ := Option.map_eq_some_iff.mp hmethod
  exact ⟨methods, chain, declaration, hc, hlast, rfl⟩

theorem History.Declared.lacks {c : ClassObject} {methods : List FunctionDeclaration}
    {chain : Chain} (hc : h.Declared c methods chain) {x : String}
    (hmethod : c.methods.get? x = none) : h.Lacks c x := by
  rw [hc.get?_methods, Option.map_eq_none_iff, FunctionDeclaration.lastNamed?,
    List.findRev?_eq_find?_reverse, List.find?_eq_none] at hmethod
  refine ⟨methods, chain, hc, fun declaration hmem hname => ?_⟩
  exact hmethod declaration (List.mem_reverse.mpr hmem) (beq_iff_eq.mpr hname)

/-- Looking a method up finds the one that the nearest class declares, or no class declares one. -/
theorem Lived.method?_cases (hl : Lived admits nextId m h) {c : ClassObject}
    (hc : ∀ L, m.Fits L (fun _ => True) → L.HasClass c) (x : String) :
    (∃ method, c.method? x = some method ∧ h.Nearest c x method) ∨
      (c.method? x = none ∧ h.Nowhere c x) := by
  obtain ⟨L, hfits, hdeclared⟩ := hl.declared
  have hsound := hfits.holds.sound
  have hlineage : ∀ k ∈ c.lineage, ∃ methods chain, h.Declared k methods chain :=
    fun k hk => hdeclared k ((hsound.lineage_grounded (hc L hfits)).1 k hk).1
  cases hmethod : c.method? x with
  | some method =>
    rw [ClassObject.method?_eq_findSome?] at hmethod
    obtain ⟨below, k, above, hsplit, hown, hbelow⟩ := List.findSome?_eq_some_iff.mp hmethod
    refine .inl ⟨method, rfl, below, k, above, hsplit, fun j hj => ?_, ?_⟩
    · obtain ⟨methods, chain, hj'⟩ := hlineage j (hsplit ▸ List.mem_append_left _ hj)
      exact hj'.lacks (hbelow j hj)
    · obtain ⟨methods, chain, hk⟩ := hlineage k (hsplit ▸ List.mem_append_right _ List.mem_cons_self)
      exact hk.declares hown
  | none =>
    rw [ClassObject.method?_eq_findSome?, List.findSome?_eq_none_iff] at hmethod
    refine .inr ⟨rfl, fun j hj => ?_⟩
    obtain ⟨methods, chain, hj'⟩ := hlineage j hj
    exact hj'.lacks (hmethod j hj)

end Sessions

/-! ## What steps do -/

/-- From one world to another a method has been bound to an object: a function of the next identity, whose
code runs inside a new scope that binds `this` to the object and nothing else. Nothing that was there is
different. -/
structure World.BindsTo (w w' : World) (method : Closure) (object : ObjectRef) (v : Value) : Prop where
  value : v = .callable (.function w.store.nextId
    ⟨method.declaration, w.store.scopes.size :: method.chain, method.isInitializer⟩)
  opened : w.store.Opened w'.store
  this : ∀ x, (w'.store.scope w.store.scopes.size).get? x =
    if "this" = x then some (.object object) else none
  fields : w'.store.fields = w.store.fields
  nextId : w'.store.nextId = w.store.nextId + 1
  rest : w' = { w with store := w'.store }

/-- From one world to another a property of an object has been given a value. No other property of it is
different, no other object, no scope and nothing else. -/
structure World.SetsTo (w w' : World) (object : ObjectRef) (x : String) (v : Value) : Prop where
  fields : ∀ other y, (w'.store.fieldsOf other).get? y =
    if object.id = other.id ∧ x = y then some v else (w.store.fieldsOf other).get? y
  objects : w'.store.fields.size = w.store.fields.size
  scopes : w'.store.scopes = w.store.scopes
  nextId : w'.store.nextId = w.store.nextId
  rest : w' = { w with store := w'.store }

namespace Machine

theorem bindsTo_newMethod (w : World) (method : Closure) (object : ObjectRef) :
    w.BindsTo (w.onStore (·.newMethod method object)).2 method object
      (w.onStore (·.newMethod method object)).1 := by
  have hopened := w.store.opened_newScope (Table.empty.insert "this" (.object object))
  exact ⟨rfl, ⟨hopened.size, hopened.others⟩, w.store.get?_scope_bindMethod method object, rfl, rfl,
    rfl⟩

/-- What the method of a name comes to that is looked up from a class and bound to an object. -/
inductive Finds (h : History) (w : World) (c : ClassObject) (object : ObjectRef) (name : Token)
    (frames : List Frame) : Machine → Prop
  | method {method : Closure} {w' : World} {v : Value} : h.Nearest c name.lexeme method →
    w.BindsTo w' method object v → Finds h w c object name frames ⟨w', .value v, frames⟩
  | undefined : h.Nowhere c name.lexeme → Finds h w c object name frames
    ⟨w, .fault (name.fault (.undefinedProperty name.lexeme)), frames⟩

/-- What the property of a name comes to. -/
inductive Dispatches (h : History) (w : World) (object : ObjectRef) (name : Token)
    (frames : List Frame) : Machine → Prop
  | field {v : Value} : h.latestSet? object.id name.lexeme = some v →
    Dispatches h w object name frames ⟨w, .value v, frames⟩
  | inherited {m : Machine} : h.latestSet? object.id name.lexeme = none →
    Finds h w object.origin object name frames m → Dispatches h w object name frames m

end Machine

section Results
variable {nextId : Nat} {w : World} {h : History} {object : ObjectRef} {name : Token}
  {frames : List Frame}

theorem Lived.dispatches {admits : Token → Prop}
    (hl : Lived admits nextId ⟨w, .value (.object object), .get name :: frames⟩ h) :
    Machine.Dispatches h w object name frames
      (Machine.step ⟨w, .value (.object object), .get name :: frames⟩) := by
  have hfield := hl.fieldsOf_eq object name.lexeme
  dsimp only at hfield
  simp only [Machine.step, Machine.stepValue, Machine.readProperty, World.onStore, Store.property?]
  rw [hfield]
  cases hset : h.latestSet? object.id name.lexeme with
  | some v => exact .field hset
  | none =>
    refine .inherited hset ?_
    rcases hl.method?_cases (fun L hfits => hfits.holds.sound.origins _ _ hfits.control) name.lexeme with
      ⟨method, hmethod, hnearest⟩ | ⟨hmethod, hnowhere⟩
    · rw [hmethod]
      exact .method hnearest (Machine.bindsTo_newMethod w method object)
    · rw [hmethod]
      exact .undefined hnowhere

theorem Lived.setsTo {admits : Token → Prop} {v : Value}
    (hl : Lived admits nextId ⟨w, .value v, .setValue object name :: frames⟩ h) :
    w.SetsTo (w.setField object name.lexeme v) object name.lexeme v := by
  obtain ⟨L, hfits, -⟩ := hl.declared
  have hobject : L.HasObject object := hfits.frames _ List.mem_cons_self
  have hlt := Layout.lt_of_getElem? hobject
  rw [hfits.holds.objects] at hlt
  exact ⟨fun other y => Store.get?_fieldsOf_setField hlt other name.lexeme y v, Array.size_modify, rfl,
    rfl, rfl⟩

theorem Lived.finds_super {keyword : Reference}
    (hl : Lived Token.Scanned nextId ⟨w, .eval (.superMethod keyword name), frames⟩ h) :
    ∃ superclass object, Machine.superParts w keyword = .ok (superclass, object) ∧
      Machine.Finds h w superclass object name frames
        (Machine.step ⟨w, .eval (.superMethod keyword name), frames⟩) := by
  obtain ⟨-, -, -, -, -, -, object, -, -, -, superclass, -, -, hparts⟩ := hl.superParts rfl
  refine ⟨superclass, object, hparts, ?_⟩
  simp only [Machine.step, Machine.stepEval, Machine.readSuper]
  dsimp only at hparts
  rw [hparts]
  dsimp only
  rcases hl.method?_cases (fun L hfits => (hfits.holds.has_superParts hparts).1) name.lexeme with
    ⟨method, hmethod, hnearest⟩ | ⟨hmethod, hnowhere⟩
  · rw [hmethod]
    exact .method hnearest (Machine.bindsTo_newMethod w method object)
  · rw [hmethod]
    exact .undefined hnowhere

end Results

/-- In every state of a session, the property of an object is what the session has set last, or else the
method that the nearest class declares, bound to the object, or else undefined; once it has been set it
is never a method again. To set a property changes nothing else. A method of `super` is found from the
superclass on, whatever has been set. So a method is looked up in one table, in which each class
overrides what it inherits. -/
theorem property_dispatch {nextId : Nat} {m : Machine} {h : History}
    (hl : Lived Token.Scanned nextId m h) :
    (∀ w object name frames, m = ⟨w, .value (.object object), .get name :: frames⟩ →
      Machine.Dispatches h w object name frames m.step ∧
      ∀ left ∈ h.left, ∀ v, left.sets? object.id name.lexeme = some v →
        ∃ latest, h.latestSet? object.id name.lexeme = some latest ∧
          m.step = ⟨w, .value latest, frames⟩) ∧
    (∀ w v object name frames, m = ⟨w, .value v, .setValue object name :: frames⟩ →
      ∃ w', m.step = ⟨w', .value v, frames⟩ ∧ w.SetsTo w' object name.lexeme v) ∧
    (∀ w keyword name frames, m = ⟨w, .eval (.superMethod keyword name), frames⟩ →
      ∃ superclass object, Machine.superParts w keyword = .ok (superclass, object) ∧
        Machine.Finds h w superclass object name frames m.step) ∧
    ∀ (c : ClassObject) (x : String), c.method? x = c.flattened.get? x := by
  refine ⟨?_, ?_, ?_, ClassObject.method?_eq_flattened⟩
  · rintro w object name frames rfl
    have hdispatches := hl.dispatches
    refine ⟨hdispatches, fun left hleft v hset => ?_⟩
    have hsome : h.latestSet? object.id name.lexeme ≠ none := fun hnone =>
      absurd (hset.symm.trans (List.findSome?_eq_none_iff.mp hnone left hleft))
        (Option.some_ne_none v)
    generalize Machine.step ⟨w, .value (.object object), .get name :: frames⟩ = next at hdispatches ⊢
    cases hdispatches with
    | field hlatest => exact ⟨_, hlatest, rfl⟩
    | inherited hnone => exact absurd hnone hsome
  · rintro w v object name frames rfl
    exact ⟨_, rfl, hl.setsTo⟩
  · rintro w keyword name frames rfl
    exact hl.finds_super

/-- The object whose property comes next, and the name. -/
def Machine.gets? : Machine → Option (ObjectRef × Token)
  | ⟨_, .value (.object object), .get name :: _⟩ => some (object, name)
  | _ => none

theorem Machine.gets?_eq_some {m : Machine} {object : ObjectRef} {name : Token}
    (h : m.gets? = some (object, name)) :
    ∃ w frames, m = ⟨w, .value (.object object), .get name :: frames⟩ := by
  unfold gets? at h
  split at h
  · cases h
    exact ⟨_, _, rfl⟩
  · cases h

/-- Whether a property comes next that hides a method, since one of some states has set it. -/
def Machine.getsHidden (past : List Machine) (m : Machine) : Bool :=
  match m.gets? with
  | some (object, name) => (object.origin.method? name.lexeme).isSome &&
      past.any fun left => (left.sets? object.id name.lexeme).isSome
  | none => false

/-- Whether a method of `super` comes next and is found, of a name that one of some states has set. -/
def Machine.findsHidden (past : List Machine) (m : Machine) : Bool :=
  match m.control.super? with
  | some (keyword, name) =>
    match superParts m.world keyword with
    | .ok (_, object) =>
      (past.findSome? (sets? object.id name.lexeme)).isSome && m.step.control.isValue
    | .error _ => false
  | none => false

/-- A property hides a method that is inherited, and `super` still leads to the method. -/
theorem property_dispatch_of_hidden :
    ∃ nextId, (∃ w h object name frames latest,
      Lived Token.Scanned nextId ⟨w, .value (.object object), .get name :: frames⟩ h ∧
      object.origin.method? name.lexeme ≠ none ∧ h.latestSet? object.id name.lexeme = some latest ∧
      Machine.step ⟨w, .value (.object object), .get name :: frames⟩ = ⟨w, .value latest, frames⟩) ∧
    ∃ w h keyword name frames superclass object method w' v,
      Lived Token.Scanned nextId ⟨w, .eval (.superMethod keyword name), frames⟩ h ∧
      Machine.superParts w keyword = .ok (superclass, object) ∧
      (h.latestSet? object.id name.lexeme).isSome = true ∧ h.Nearest superclass name.lexeme method ∧
      w.BindsTo w' method object v ∧
      Machine.step ⟨w, .eval (.superMethod keyword name), frames⟩ = ⟨w', .value v, frames⟩ := by
  let source := "class A \x7b n() \x7b return 1; \x7d n() \x7b return 2; \x7d \x7d
    class B < A \x7b m() \x7b super.n; \x7d \x7d
    var b = B();
    b.n = 5;
    b.n;
    b.m();"
  let tokens := (tokenize source.toUTF8.toList).1
  let loaded := (Session.fresh (.ofRoom none) (.standing 0)).loadTokens tokens
  have hrun : (loaded.2.any fun program =>
      let start := loaded.1.world.program program
      (start.run 28).getsHidden (start.trail 28) &&
        (start.run 40).findsHidden (start.trail 40)) = true := by decide +kernel
  obtain ⟨program, hprogram, hruns⟩ := (Option.any_eq_true _ _).mp hrun
  obtain ⟨hgets, hfinds⟩ := Bool.and_eq_true_iff.mp hruns
  have hl (n : Nat) : Lived Token.Scanned _ _ _ := Lived.of_load (fun t ht => ⟨_, ht⟩)
    (show loaded = (loaded.1, some program) by rw [← hprogram]) n
  refine ⟨loaded.1.nextId, ?_, ?_⟩
  · unfold Machine.getsHidden at hgets
    split at hgets
    · rename_i object name hget
      obtain ⟨hmethod, hset⟩ := Bool.and_eq_true_iff.mp hgets
      obtain ⟨left, hleft, hsome⟩ := List.any_eq_true.mp hset
      obtain ⟨v, hv⟩ := Option.isSome_iff_exists.mp hsome
      obtain ⟨w, frames, hstate⟩ := Machine.gets?_eq_some hget
      obtain ⟨-, hlater⟩ := (property_dispatch (hl 28)).1 w object name frames hstate
      obtain ⟨latest, hlatest, hstep⟩ := hlater left hleft v hv
      rw [hstate] at hstep
      exact ⟨w, _, object, name, frames, latest, hstate ▸ hl 28,
        Option.isSome_iff_ne_none.mp hmethod, hlatest, hstep⟩
    · cases hgets
  · have hlived := hl 40
    generalize (loaded.1.world.program program).run 40 = m at hfinds hlived
    obtain ⟨w, c, frames⟩ := m
    unfold Machine.findsHidden at hfinds
    split at hfinds
    · rename_i keyword name hsuper
      obtain rfl : c = .eval (.superMethod keyword name) := Control.super?_eq_some hsuper
      obtain ⟨superclass, object, hparts, hfound⟩ :=
        (property_dispatch hlived).2.2.1 w keyword name frames rfl
      dsimp only at hfinds
      rw [hparts] at hfinds
      obtain ⟨hset, hvalue⟩ := Bool.and_eq_true_iff.mp hfinds
      generalize hstep : Machine.step ⟨w, .eval (.superMethod keyword name), frames⟩ = next
        at hfound hvalue
      cases hfound with
      | method hnearest hbinds =>
        exact ⟨w, _, keyword, name, frames, superclass, object, _, _, _, hlived, hparts, hset, hnearest,
          hbinds, hstep⟩
      | undefined => cases hvalue
    · cases hfinds

end LoxLang
