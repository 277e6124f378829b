import LoxLang.Proofs.Machine.Frames
import LoxLang.Proofs.Machine.Overriding
import LoxLang.Proofs.Scope.Lifetime

/-!
What initializers yield. A method is marked as an initializer by the name under which it was declared,
and keeps the mark when it is inherited and bound; no other function has it (`Lived.marks`). The object
to which a method was bound stays what `this` is in the scope of the binding, whatever code runs in
between (`Lived.keeps_this`), so a call of an initializer yields its object, and so does the
construction of an object, which is a new one (`initializers_yield_objects`).
-/
namespace LoxLang
set_option autoImplicit false

/-! ## Marks of methods -/

/-- A method that stands in a table under its own name, by which it is marked. -/
structure Closure.Listed (name : String) (method : Closure) : Prop where
  name_eq : method.declaration.name.lexeme = name
  mark : method.isInitializer = (name == initializerName)

theorem Closure.Listed.isInitializer {name : String} {method : Closure} (h : method.Listed name) :
    method.isInitializer = true ↔ method.declaration.name.lexeme = initializerName := by
  rw [h.mark, h.name_eq, beq_iff_eq]

theorem Machine.listed_methodTable {chain : Chain} {methods : List FunctionDeclaration}
    {name : String} {method : Closure} (h : (methodTable chain methods).get? name = some method) :
    method.Listed name := by
  obtain ⟨declaration, -, heq⟩ := List.mem_map.mp (Table.mem_of_get?_ofList h)
  cases heq
  exact ⟨rfl, rfl⟩

/-- The methods of all classes stand under their own names. -/
def Layout.Marked (L : Layout) : Prop :=
  ∀ (id : Nat) (c : ClassObject), L.callables[id]? = some (.classObject c) →
    ∀ name method, c.methods.get? name = some method → method.Listed name

/-- So do those that are inherited. -/
theorem Layout.Marked.method? {L : Layout} {allowed : Stmt → Prop} (h : L.Marked)
    (hsound : L.Sound allowed) {c : ClassObject} (hc : L.HasClass c) {name : String}
    {method : Closure} (hmethod : c.method? name = some method) : method.Listed name := by
  obtain ⟨k, hk, hown⟩ := hsound.exists_own hc hmethod
  exact h k.id k hk name method hown

/-! ## What is made -/

namespace Machine

/-- The next step binds a method to an object: the method is read from the object, where no field
hides it, or it is read of a superclass. -/
inductive Binds : Machine → Closure → ObjectRef → Closure → Prop
  | property {w : World} {frames : List Frame} {object : ObjectRef} {name : Token}
    {method : Closure} : (w.store.fieldsOf object).get? name.lexeme = none →
    object.origin.method? name.lexeme = some method →
    Binds ⟨w, .value (.object object), .get name :: frames⟩ method object
      (w.store.bindMethod method object).1
  | super {w : World} {frames : List Frame} {keyword : Reference} {name : Token}
    {superclass : ClassObject} {object : ObjectRef} {method : Closure} :
    superParts w keyword = .ok (superclass, object) →
    superclass.method? name.lexeme = some method →
    Binds ⟨w, .eval (.superMethod keyword name), frames⟩ method object
      (w.store.bindMethod method object).1

/-- The next step declares a class, with methods that see a chain of scopes: the active one, or for an
heir that in which the superclass is bound. -/
inductive DeclaresClass : Machine → ClassObject → List FunctionDeclaration → Chain → Prop
  | root (w : World) (name : Token) (methods : List FunctionDeclaration) (frames : List Frame) :
    DeclaresClass ⟨w, .exec (.classDeclaration name none methods), frames⟩
      ⟨w.store.nextId, name.lexeme, none, methodTable w.chain methods⟩ methods w.chain
  | heir (w : World) (name parent : Token) (methods : List FunctionDeclaration)
    (superclass : ClassObject) (frames : List Frame) :
    DeclaresClass
      ⟨w, .value (.callable (.classObject superclass)), .superclass name parent methods :: frames⟩
      ⟨w.store.nextId, name.lexeme, some superclass,
        methodTable (w.store.scopes.size :: w.chain) methods⟩
      methods (w.store.scopes.size :: w.chain)

theorem DeclaresClass.methods_eq {m : Machine} {c : ClassObject}
    {methods : List FunctionDeclaration} {chain : Chain} (h : m.DeclaresClass c methods chain) :
    c.methods = methodTable chain methods := by
  cases h <;> rfl

theorem DeclaresClass.id_eq {m : Machine} {c : ClassObject} {methods : List FunctionDeclaration}
    {chain : Chain} (h : m.DeclaresClass c methods chain) : c.id = m.world.store.nextId := by
  cases h <;> rfl

/-- The next step makes a function or class. -/
inductive Makes : Machine → Callable → Prop
  | function (w : World) (declaration : FunctionDeclaration) (frames : List Frame) :
    Makes ⟨w, .exec (.function declaration), frames⟩
      (.function w.store.nextId ⟨declaration, w.chain, false⟩)
  | method {m : Machine} {method : Closure} {object : ObjectRef} {closure : Closure} :
    m.Binds method object closure → Makes m (.function m.world.store.nextId closure)
  | classObject {m : Machine} {c : ClassObject} {methods : List FunctionDeclaration} {chain : Chain} :
    m.DeclaresClass c methods chain → Makes m (.classObject c)

section Steps
variable {L L' : Layout} {allowed : Stmt → Prop} {m m' : Machine}

theorem nextId_define (s : Store) (chain : Chain) (name : String) (v : Value) :
    (s.define chain name v).nextId = s.nextId := by
  cases chain <;> rfl

/-- What is defined in the active scope is found there. -/
theorem Fits.get?_define (h : m.Fits L allowed) {s : Store}
    (hsize : m.world.store.scopes.size ≤ s.scopes.size) (name : String) (v : Value) :
    ∃ id, ((s.define m.world.chain name v).scope id).get? name = some v := by
  obtain ⟨hne, hlinks⟩ := h.chain
  obtain ⟨id, outer, hchain⟩ := List.exists_cons_of_ne_nil hne
  rw [hchain] at hlinks ⊢
  have hlt : id < s.scopes.size :=
    Nat.lt_of_lt_of_le (h.holds.scopes ▸ Layout.lt_of_getElem? hlinks.1) hsize
  refine ⟨id, ?_⟩
  rw [Store.define, Store.scope_bind, if_pos ⟨rfl, hlt⟩, Table.get?_insert, if_pos rfl]

/-- A class takes the next identity, and is defined in the active scope. -/
theorem DeclaresClass.store {m : Machine} {c : ClassObject} {methods : List FunctionDeclaration}
    {chain : Chain} (h : m.DeclaresClass c methods chain) :
    ∃ s : Store, m.world.store.scopes.size ≤ s.scopes.size ∧
      s.nextId = m.world.store.nextId + 1 ∧
      m.step.world.store = s.define m.world.chain c.name (.callable (.classObject c)) := by
  cases h with
  | root w name methods frames =>
    have hid := nextId_define w.store w.chain name.lexeme .nil
    have hsize := Store.size_define w.store w.chain name.lexeme .nil
    refine ⟨(w.store.define w.chain name.lexeme .nil).newIdentity.2, ?_, ?_, ?_⟩
    · exact Nat.le_of_eq hsize.symm
    · exact congrArg (· + 1) hid
    · rw [← hid]
      rfl
  | heir w name parent methods superclass frames =>
    have hid := nextId_define w.store w.chain name.lexeme .nil
    have hsize := Store.size_define w.store w.chain name.lexeme .nil
    let bindings := (Table.empty : Table Value).insert "super" (.callable (.classObject superclass))
    refine ⟨((w.store.define w.chain name.lexeme .nil).newScope bindings).2.newIdentity.2, ?_, ?_, ?_⟩
    · refine Nat.le_trans (Nat.le_of_eq hsize.symm) (Nat.le_trans (Nat.le_succ _) ?_)
      exact Nat.le_of_eq (Store.size_newScope _ bindings).symm
    · exact congrArg (· + 1) hid
    · rw [← hid, ← hsize]
      rfl

/-- A step takes the next identity for what it makes, or none. -/
theorem Move.makes (h : Move m m') (hm : m.Fits L allowed) (hm' : m'.Fits L' allowed) :
    m'.world.store.nextId = m.world.store.nextId ∨
      m'.world.store.nextId = m.world.store.nextId + 1 ∧
        ∃ callable, m.Makes callable ∧ L'.callables[m.world.store.nextId]? = some callable := by
  have hdefined : ∀ {s : Store} {name : String} {callable : Callable},
      m.world.store.scopes.size ≤ s.scopes.size →
      m'.world.store = s.define m.world.chain name (.callable callable) →
      L'.HasValue (.callable callable) := by
    intro s name callable hsize hstore
    obtain ⟨id, hid⟩ := hm.get?_define hsize name (.callable callable)
    rw [← hstore] at hid
    exact hm'.holds.bound id name _ hid
  have hdeclared : ∀ {c : ClassObject} {methods : List FunctionDeclaration} {chain : Chain},
      m.DeclaresClass c methods chain → m.step = m' →
      m'.world.store.nextId = m.world.store.nextId ∨
        m'.world.store.nextId = m.world.store.nextId + 1 ∧
          ∃ callable, m.Makes callable ∧ L'.callables[m.world.store.nextId]? = some callable := by
    intro c methods chain hdeclares hstep
    obtain ⟨s, hsize, hid, hstore⟩ := hdeclares.store
    rw [hstep] at hstore
    have hlisted : L'.callables[c.id]? = some (.classObject c) := hdefined hsize hstore
    rw [hdeclares.id_eq] at hlisted
    refine .inr ⟨?_, _, .classObject hdeclares, hlisted⟩
    rw [hstore, nextId_define, hid]
  cases h with
  | function w declaration frames =>
    refine .inr ⟨nextId_define _ _ _ _, _, .function w declaration frames, ?_⟩
    exact hdefined (s := (w.store.newFunction ⟨declaration, w.chain, false⟩).2) (Nat.le_refl _) rfl
  | method hfield hmethod =>
    exact .inr ⟨rfl, _, .method (.property hfield hmethod), hm'.control⟩
  | super hparts hmethod =>
    exact .inr ⟨rfl, _, .method (.super hparts hmethod), hm'.control⟩
  | root w name methods frames => exact hdeclared (.root w name methods frames) rfl
  | inherits w name parent methods superclass frames =>
    exact hdeclared (.heir w name parent methods superclass frames) rfl
  | unwinds w f frame frames => cases frame <;> exact .inl rfl
  | declares w name frames => exact .inl (nextId_define _ _ _ _)
  | defines w name v frames => exact .inl (nextId_define _ _ _ _)
  | _ => exact .inl rfl

/-- What is listed after a step was listed before, or the step has made it. -/
theorem Move.makes_new (h : Move m m') (hm : m.Fits L allowed) (hm' : m'.Fits L' allowed)
    (hle : L.Le L') {id : Nat} {callable : Callable} (hlisted : L'.callables[id]? = some callable) :
    L.callables[id]? = some callable ∨ m.Makes callable := by
  have hlt := Layout.lt_of_getElem? hlisted
  rw [hm'.holds.identities] at hlt
  by_cases hold : id < L.callables.length
  · have hbefore := List.getElem?_eq_getElem hold
    exact .inl (hbefore.trans ((hle.callables hbefore).symm.trans hlisted))
  · rw [hm.holds.identities] at hold
    rcases h.makes hm hm' with hsame | ⟨hnext, made, hmakes, hmade⟩
    · omega
    · obtain rfl : id = m.world.store.nextId := by omega
      cases hmade.symm.trans hlisted
      exact .inr hmakes

/-- From one layout to another, only what the next step makes has been listed. -/
structure Lists (m : Machine) (L L' : Layout) : Prop where
  le : L.Le L'
  new : ∀ (id : Nat) (callable : Callable), L'.callables[id]? = some callable →
    L.callables[id]? = some callable ∨ m.Makes callable

theorem Fits.step_lists (hm : m.Fits L allowed) : ∃ L', m.Lists L L' ∧ m.step.Fits L' allowed := by
  cases hhalted : m.halted with
  | true =>
    rw [step_of_halted hhalted]
    exact ⟨L, ⟨.refl L, fun _ _ => .inl⟩, hm⟩
  | false =>
    have hmove := move_step hhalted
    obtain ⟨L', hle, hm', -⟩ := move_fits hmove rfl hm
    exact ⟨L', ⟨hle, fun _ _ => hmove.makes_new hm hm' hle⟩, hm'⟩

variable {method closure : Closure} {object : ObjectRef}

theorem Binds.isInitializer (h : m.Binds method object closure) :
    closure.isInitializer = method.isInitializer := by
  cases h <;> rfl

theorem Binds.listed (h : m.Binds method object closure) (hm : m.Fits L allowed)
    (hmarked : L.Marked) : ∃ name, method.Listed name := by
  have hsound := hm.holds.sound
  cases h with
  | property hfield hmethod =>
    exact ⟨_, hmarked.method? hsound (hsound.origins _ _ hm.control) hmethod⟩
  | super hparts hmethod =>
    exact ⟨_, hmarked.method? hsound (hm.holds.has_superParts hparts).1 hmethod⟩

/-- Around a method that is bound a scope is opened in which `this` is the object. -/
theorem Binds.this (h : m.Binds method object closure) :
    ∃ id, closure.chain[0]? = some id ∧
      (m.step.world.store.scope id).get? "this" = some (.object object) := by
  have hbound : ∀ s : Store, ((s.newMethod method object).2.scope s.scopes.size).get? "this" =
      some (.object object) :=
    fun s => (s.get?_scope_bindMethod method object "this").trans (if_pos rfl)
  cases h with
  | @property w frames _ name _ hfield hmethod =>
    refine ⟨w.store.scopes.size, rfl, ?_⟩
    simp only [step, stepValue, readProperty, World.onStore, Store.property?, hfield, hmethod]
    exact hbound w.store
  | @super w frames keyword name superclass _ _ hparts hmethod =>
    refine ⟨w.store.scopes.size, rfl, ?_⟩
    simp only [step, stepEval, readSuper, hparts, hmethod, World.onStore]
    exact hbound w.store

end Steps

/-! ## What is held -/

/-- A state holds a value: as its result, in its store or in a frame that waits. -/
inductive Has : Machine → Value → Prop
  | result (w : World) (v : Value) (frames : List Frame) : Has ⟨w, .value v, frames⟩ v
  | returned (w : World) (v : Value) (frames : List Frame) :
    Has ⟨w, .done (.returned v), frames⟩ v
  | bound {m : Machine} {id : ScopeId} {x : String} {v : Value} :
    (m.world.store.scope id).get? x = some v → Has m v
  | stored {m : Machine} {object : ObjectRef} {x : String} {v : Value} :
    (m.world.store.fieldsOf object).get? x = some v → Has m v
  | operand {m : Machine} {operator : Token} {v : Value} : .binaryRight operator v ∈ m.frames →
    Has m v
  | callee {m : Machine} {paren : Token} {v : Value} {before : List Value} {rest : List Expr} :
    .argument v paren before rest ∈ m.frames → Has m v
  | argument {m : Machine} {callee v : Value} {paren : Token} {before : List Value}
    {rest : List Expr} : .argument callee paren before rest ∈ m.frames → v ∈ before → Has m v
  | target {m : Machine} {object : ObjectRef} {name : Token} :
    .setValue object name ∈ m.frames → Has m (.object object)
  | constructed {m : Machine} {object : ObjectRef} : .construct object ∈ m.frames →
    Has m (.object object)

theorem Fits.hasValue {L : Layout} {allowed : Stmt → Prop} {m : Machine} {v : Value}
    (hm : m.Fits L allowed) (h : m.Has v) : L.HasValue v := by
  cases h with
  | result => exact hm.control
  | returned => exact hm.control
  | bound hv => exact hm.holds.bound _ _ _ hv
  | stored hv => exact hm.holds.stored _ _ _ hv
  | operand hframe => exact hm.frames _ hframe
  | callee hframe => exact (hm.frames _ hframe).1
  | argument hframe hv => exact (hm.frames _ hframe).2 _ hv
  | target hframe => exact hm.frames _ hframe
  | constructed hframe => exact hm.frames _ hframe

end Machine

/-! ## Sessions -/

/-- A method was bound to an object by one of the states left. -/
def History.HasBound (h : History) (method : Closure) (object : ObjectRef) (closure : Closure) :
    Prop :=
  ∃ m ∈ h.left, m.Binds method object closure

/-- What has been allocated in a history: methods under their own names, initializers only by the
binding of a method of their name, and the objects that were held. -/
structure History.Marks (h : History) (L : Layout) : Prop where
  classes : L.Marked
  functions : ∀ (id own : Nat) (closure : Closure),
    L.callables[id]? = some (.function own closure) → closure.isInitializer = true →
    ∃ method object, h.HasBound method object closure ∧
      method.declaration.name.lexeme = initializerName
  bindings : ∀ (method : Closure) (object : ObjectRef) (closure : Closure),
    h.HasBound method object closure → ∃ name, method.Listed name
  objects : ∀ m ∈ h.left, ∀ object, m.Has (.object object) → object.id < L.origins.length

section Sessions
variable {admits : Token → Prop} {nextId : Nat} {m : Machine} {h : History} {L L' : Layout}

theorem History.HasBound.later {method closure : Closure} {object : ObjectRef}
    (hbound : h.HasBound method object closure) (m : Machine) :
    History.HasBound ⟨h.programs, m :: h.left⟩ method object closure :=
  hbound.imp fun _ hm => hm.imp_left (List.mem_cons_of_mem m)

/-- Every state of a session fits a layout. Something else that holds of a layout, a history and a state
goes along, if every step keeps it and every program that is started. -/
theorem Lived.fits_with {allowed : Stmt → Prop}
    (hallowed : ∀ program entries, survey program = .ok entries →
      ∀ s ∈ Stmt.partsAll program, allowed s)
    {P : Layout → History → Machine → Prop}
    (hfresh : ∀ sink clock, P ⟨[none], [], []⟩ ⟨[], []⟩ ⟨.fresh sink clock, .done .normal, []⟩)
    (hstep : ∀ {L L' : Layout} {m : Machine} {h : History}, m.Fits L allowed → m.Lists L L' →
      P L h m → P L' ⟨h.programs, m :: h.left⟩ m.step)
    (hstart : ∀ {L : Layout} {m : Machine} {h : History} programs w c, P L h m →
      P L ⟨programs, h.left⟩ ⟨w, c, []⟩)
    (hl : Lived admits nextId m h) : ∃ L, m.Fits L allowed ∧ P L h m := by
  induction hl with
  | fresh sink clock => exact ⟨_, Machine.fits_fresh allowed sink clock, hfresh sink clock⟩
  | step hl ih =>
    obtain ⟨L, hfits, hP⟩ := ih
    obtain ⟨L', hlists, hfits'⟩ := hfits.step_lists
    exact ⟨L', hfits', hstep hfits hlists hP⟩
  | load hl hhalted hadmits hload ih =>
    obtain ⟨-, -, entries, hentries, hworld⟩ := Session.loadTokens_some hload
    obtain ⟨L, hfits, hP⟩ := ih
    rw [hworld]
    exact ⟨L, ⟨hfits.holds, hfits.chain, hallowed _ _ hentries, List.forall_mem_nil _⟩,
      hstart _ _ _ hP⟩
  | refuse hl hhalted hadmits hload ih =>
    obtain ⟨-, hworld⟩ := Session.loadTokens_none hload
    obtain ⟨L, hfits, hP⟩ := ih
    rw [hworld]
    exact ⟨L, ⟨hfits.holds, hfits.chain, trivial, List.forall_mem_nil _⟩, hstart _ _ _ hP⟩

/-- A state has been left. -/
theorem History.Marks.leave (hmarks : h.Marks L) {allowed : Stmt → Prop} (hm : m.Fits L allowed)
    (hlists : m.Lists L L') : History.Marks ⟨h.programs, m :: h.left⟩ L' := by
  have hbindings : ∀ (method : Closure) (object : ObjectRef) (closure : Closure),
      History.HasBound ⟨h.programs, m :: h.left⟩ method object closure →
      ∃ name, method.Listed name := by
    rintro method object closure ⟨m', hm', hbinds⟩
    rcases List.mem_cons.mp hm' with rfl | hold
    · exact hbinds.listed hm hmarks.classes
    · exact hmarks.bindings method object closure ⟨m', hold, hbinds⟩
  refine ⟨fun id c hc => ?_, fun id own closure hlisted hinitializer => ?_, hbindings,
    fun m' hm' object hhas => ?_⟩
  · rcases hlists.new id _ hc with hold | hmade
    · exact hmarks.classes id c hold
    · cases hmade with
      | classObject hdeclares =>
        rw [hdeclares.methods_eq]
        exact fun name method hmethod => Machine.listed_methodTable hmethod
  · rcases hlists.new id _ hlisted with hold | hmade
    · obtain ⟨method, object, hbound, hname⟩ := hmarks.functions id own closure hold hinitializer
      exact ⟨method, object, hbound.later m, hname⟩
    · cases hmade with
      | function => cases hinitializer
      | @method _ method object _ hbinds =>
        obtain ⟨name, hname⟩ := hbinds.listed hm hmarks.classes
        rw [hbinds.isInitializer] at hinitializer
        exact ⟨method, object, ⟨m, List.mem_cons_self, hbinds⟩, hname.isInitializer.mp hinitializer⟩
  · have hlt : object.id < L.origins.length := by
      rcases List.mem_cons.mp hm' with rfl | hold
      · exact Layout.lt_of_getElem? (hm.hasValue hhas)
      · exact hmarks.objects m' hold object hhas
    exact Layout.lt_of_getElem? (hlists.le.origins (List.getElem?_eq_getElem hlt))

/-- The functions that are initializers are the methods of that name that were bound. -/
theorem History.Marks.isInitializer (hmarks : h.Marks L) {id : Nat} {closure : Closure}
    (hlisted : L.callables[id]? = some (.function id closure)) :
    closure.isInitializer = true ↔ ∃ method object, h.HasBound method object closure ∧
      method.declaration.name.lexeme = initializerName := by
  refine ⟨hmarks.functions id id closure hlisted, ?_⟩
  rintro ⟨method, object, hbound, hname⟩
  obtain ⟨name, hmethod⟩ := hmarks.bindings method object closure hbound
  obtain ⟨left, -, hbinds⟩ := hbound
  rw [hbinds.isInitializer]
  exact hmethod.isInitializer.mpr hname

/-- Every state that a session can come to has a layout with the marks of its history. -/
theorem Lived.marks (hl : Lived admits nextId m h) :
    ∃ L, m.Fits L (fun _ => True) ∧ h.Marks L :=
  hl.fits_with (P := fun L h _ => h.Marks L) (fun _ _ _ _ _ => trivial)
    (fun _ _ => ⟨nofun, nofun, nofun, nofun⟩)
    (fun hm hlists hmarks => hmarks.leave hm hlists)
    (fun _ _ _ hmarks => ⟨hmarks.classes, hmarks.functions, hmarks.bindings, hmarks.objects⟩)

/-- From a state that was left the scopes have only grown. -/
theorem Lived.grows (hl : Lived admits nextId m h) {left : Machine} (hleft : left ∈ h.left) :
    left.step.world.store.Grows (∀ t, admits t → t.Spelled) m.world.store := by
  induction hl with
  | fresh => cases hleft
  | @step nextId m h hl ih =>
    rcases List.mem_cons.mp hleft with rfl | hold
    · exact .of_scopes rfl
    · obtain ⟨S', hs⟩ := Setting.step_leads hl.agrees.sound
      have hgrows := hs.le.grows
      rw [← hs.store] at hgrows
      exact (ih hold).trans hgrows
  | load _ _ _ hload ih =>
    obtain ⟨-, -, entries, -, hworld⟩ := Session.loadTokens_some hload
    rw [hworld]
    exact ih hleft
  | refuse _ _ _ hload ih =>
    obtain ⟨-, hworld⟩ := Session.loadTokens_none hload
    rw [hworld]
    exact ih hleft

/-- `this` keeps its value in a scope that a state left has opened. -/
theorem Lived.keeps_this (hl : Lived Token.Scanned nextId m h) {left : Machine}
    (hleft : left ∈ h.left) {chain : Chain} {id : ScopeId} {object : ObjectRef}
    (hid : chain[0]? = some id)
    (hthis : (left.step.world.store.scope id).get? "this" = some (.object object)) :
    m.world.store.lookupAt? chain 0 "this" = some (.object object) := by
  rw [Store.lookupAt?_of_getElem? hid]
  exact (hl.grows hleft).pins (fun t ht => ht.spelled) id "this" Store.this_mem_reserved _ hthis

end Sessions

/-! ## Calls -/

namespace Machine

/-- A call is refused, or it is entered. -/
theorem step_of_applies {frame : Frame} {v : Value} {callable : Callable} {arguments : List Value}
    (h : frame.Applies v (.callable callable) arguments) (w : World) (frames : List Frame) :
    (∃ f, step ⟨w, .value v, frame :: frames⟩ = ⟨w, .fault f, frames⟩) ∨
      step ⟨w, .value v, frame :: frames⟩ = enter w callable arguments frames := by
  have hstep : ∃ paren, step ⟨w, .value v, frame :: frames⟩ =
      apply w (.callable callable) paren arguments frames := by
    cases h with
    | callee paren => exact ⟨paren, rfl⟩
    | argument _ paren => exact ⟨paren, rfl⟩
  obtain ⟨paren, hstep⟩ := hstep
  rw [hstep]
  unfold apply
  dsimp only
  split
  · exact .inl ⟨_, rfl⟩
  · split
    · exact .inl ⟨_, rfl⟩
    · exact .inr rfl

theorem construct_none {origin : ClassObject} (h : origin.method? initializerName = none) (w : World)
    (arguments : List Value) (frames : List Frame) : construct w origin arguments frames =
      ⟨(w.onStore (·.newObject origin)).2, .value (.object (w.onStore (·.newObject origin)).1),
        frames⟩ := by
  simp only [construct, h]

theorem construct_some {origin : ClassObject} {method : Closure}
    (h : origin.method? initializerName = some method) (w : World) (arguments : List Value)
    (frames : List Frame) :
    construct w origin arguments frames = enterInitializer w origin method arguments frames := by
  simp only [construct, h, enterInitializer]

/-- The object that a construction makes is what it gives. -/
theorem construct_gives (w : World) (origin : ClassObject) (arguments : List Value)
    (frames : List Frame) :
    (construct w origin arguments frames).Gives frames
      (.object ⟨w.store.fields.size, origin⟩) := by
  cases hmethod : origin.method? initializerName with
  | none =>
    rw [construct_none hmethod]
    intro n hfinish
    obtain rfl := hfinish.eq_of_yields (Nat.zero_le n) ⟨rfl, rfl⟩
    exact .inr rfl
  | some method =>
    rw [construct_some hmethod]
    exact gives_of_construct _ frames ⟨_, _, [_]⟩

/-- In the scope in which the initializer of a new object is bound, `this` is the object. -/
theorem enterInitializer_this (w : World) (origin : ClassObject) (method : Closure)
    (arguments : List Value) (frames : List Frame) :
    ((enterInitializer w origin method arguments frames).world.store.scope
      w.store.scopes.size).get? "this" = some (.object ⟨w.store.fields.size, origin⟩) := by
  let object : ObjectRef := ⟨w.store.fields.size, origin⟩
  let made := (w.store.newObject origin).2
  let s := (made.bindMethod method object).2
  have hthis : (s.scope w.store.scopes.size).get? "this" = some (.object object) :=
    (made.get?_scope_bindMethod method object "this").trans (if_pos rfl)
  -- The scope of the call is opened after that.
  have hgrows : s.Grows True (enterInitializer w origin method arguments frames).world.store :=
    Store.grows_newScope s _
  exact hgrows.pins trivial _ "this" Store.this_mem_reserved _ hthis

end Machine

section Calls
variable {nextId : Nat} {m : Machine} {h : History} {v : Value} {frame : Frame}
  {frames : List Frame} {arguments : List Value}

/-- A call of a method that was bound and is an initializer gives its object. -/
theorem Lived.bound_gives {w : World}
    (hl : Lived Token.Scanned nextId ⟨w, .value v, frame :: frames⟩ h) {id : Nat}
    {closure method : Closure} {object : ObjectRef}
    (hcall : frame.Applies v (.callable (.function id closure)) arguments)
    (hbound : h.HasBound method object closure) (hinitializer : closure.isInitializer = true) :
    Machine.Gives frames (.object object) ⟨w, .value v, frame :: frames⟩ := by
  obtain ⟨left, hleft, hbinds⟩ := hbound
  obtain ⟨scope, hscope, hthis⟩ := hbinds.this
  refine Machine.Gives.of_step ?_ (Machine.not_yields_of_cons w _ frame frames)
  have hkept := fun n => (hl.step.run n).keeps_this
    (List.mem_append_right _ (List.mem_cons_of_mem _ hleft)) hscope hthis
  rcases Machine.step_of_applies hcall w frames with ⟨f, hstep⟩ | hstep
  · rw [hstep]
    exact Machine.gives_of_fault w f frames _
  · rw [hstep] at hkept ⊢
    exact Machine.gives_of_initializer hinitializer hkept

/-- The construction of an object gives the object. -/
theorem Machine.construction_gives {origin : ClassObject}
    (hcall : frame.Applies v (.callable (.classObject origin)) arguments) (w : World) :
    Machine.Gives frames (.object ⟨w.store.fields.size, origin⟩) ⟨w, .value v, frame :: frames⟩ := by
  refine Gives.of_step ?_ (not_yields_of_cons w _ frame frames)
  rcases step_of_applies hcall w frames with ⟨f, hstep⟩ | hstep
  · rw [hstep]
    exact gives_of_fault w f frames _
  · rw [hstep]
    exact construct_gives w origin arguments frames

/-- So does the call of the initializer with which an object is constructed. -/
theorem Lived.constructor_gives {w : World}
    (hl : Lived Token.Scanned nextId ⟨w, .value v, frame :: frames⟩ h) {origin : ClassObject}
    {method : Closure} (hcall : frame.Applies v (.callable (.classObject origin)) arguments)
    (hmethod : origin.method? initializerName = some method)
    (hinitializer : method.isInitializer = true) :
    Machine.Gives (.construct ⟨w.store.fields.size, origin⟩ :: frames)
      (.object ⟨w.store.fields.size, origin⟩) ⟨w, .value v, frame :: frames⟩ := by
  refine Machine.Gives.of_step ?_ fun hyields => ?_
  · rcases Machine.step_of_applies hcall w frames with ⟨f, hstep⟩ | hstep
    · rw [hstep]
      exact Machine.gives_of_fault w f frames _
    · rw [Machine.enter, Machine.construct_some hmethod] at hstep
      have hscope : (w.store.scopes.size :: method.chain)[0]? = some w.store.scopes.size := rfl
      have hthis := Machine.enterInitializer_this w origin method arguments frames
      rw [← hstep] at hthis
      have hkept := fun n => (hl.step.run n).keeps_this
        (List.mem_append_right _ List.mem_cons_self) hscope hthis
      rw [hstep] at hkept ⊢
      exact Machine.gives_of_initializer hinitializer hkept
  · cases hyields.1
    cases hcall

end Calls

/-- Consider a call that is about to happen. If a function is called, it is an initializer just if it
is a method declared as such that was bound to an object, and then that object is what the call gives,
unless it fails. If a class is called, the construction gives an object of this class, and so does the
call of its initializer, if it has one; the object comes after all that were held before. -/
theorem initializers_yield_objects {nextId : Nat} {w : World} {h : History} {v callee : Value}
    {frame : Frame} {frames : List Frame} {arguments : List Value}
    (hl : Lived Token.Scanned nextId ⟨w, .value v, frame :: frames⟩ h)
    (hcall : frame.Applies v callee arguments) :
    let m : Machine := ⟨w, .value v, frame :: frames⟩
    (∀ id closure, callee = .callable (.function id closure) →
      (closure.isInitializer = true ↔ ∃ method object, h.HasBound method object closure ∧
        method.declaration.name.lexeme = initializerName) ∧
      ∀ method object, h.HasBound method object closure →
        method.declaration.name.lexeme = initializerName → m.Gives frames (.object object)) ∧
    ∀ origin, callee = .callable (.classObject origin) →
      let object : ObjectRef := ⟨w.store.fields.size, origin⟩
      m.Gives frames (.object object) ∧
      (∀ method, origin.method? initializerName = some method →
        method.declaration.name.lexeme = initializerName ∧
        m.Gives (.construct object :: frames) (.object object)) ∧
      ∀ m' ∈ m :: h.left, ∀ other, m'.Has (.object other) → other.id < object.id := by
  intro m
  obtain ⟨L, hfits, hmarks⟩ := hl.marks
  obtain ⟨hframe, -⟩ := List.forall_mem_cons.mp hfits.frames
  have hcallee := (Machine.has_applies hcall hframe hfits.control).1
  refine ⟨?_, ?_⟩
  · rintro id closure rfl
    have hiff : closure.isInitializer = true ↔ ∃ method object, h.HasBound method object closure ∧
        method.declaration.name.lexeme = initializerName := hmarks.isInitializer hcallee
    exact ⟨hiff, fun method object hbound hname =>
      hl.bound_gives hcall hbound (hiff.mpr ⟨method, object, hbound, hname⟩)⟩
  · rintro origin rfl
    refine ⟨Machine.construction_gives hcall w, fun method hmethod => ?_,
      List.forall_mem_cons.mpr ⟨?_, ?_⟩⟩
    · have hlisted := hmarks.classes.method? hfits.holds.sound hcallee hmethod
      exact ⟨hlisted.name_eq, hl.constructor_gives hcall hmethod
        (hlisted.isInitializer.mpr hlisted.name_eq)⟩
    · intro other hhas
      exact hfits.holds.objects ▸ Layout.lt_of_getElem? (hfits.hasValue hhas)
    · intro m' hm' other hhas
      exact hfits.holds.objects ▸ hmarks.objects m' hm' other hhas

/-- The frames below the call of a class, where the last argument has been found. -/
def Machine.belowClass? : Machine → Option (List Frame)
  | ⟨_, .value _, .argument (.callable (.classObject _)) _ _ [] :: base⟩ => some base
  | _ => none

/-- The frames below the call of an initializer, where the last argument has been found. -/
def Machine.belowInitializer? : Machine → Option (List Frame)
  | ⟨_, .value _, .argument (.callable (.function _ closure)) _ _ [] :: base⟩ =>
    if closure.isInitializer then some base else none
  | _ => none

/-- Whether a value comes down to some frames after some steps and no result before that. -/
def Machine.comesDown (n : Nat) (m : Machine) (base : List Frame) : Bool :=
  (run n m).frames.length == base.length && (run n m).control.isValue &&
    decide (∀ k < n, ¬ ((run k m).frames.length = base.length ∧
      (run k m).control.isResult = true))

theorem Machine.belowClass?_eq_some {m : Machine} {base : List Frame}
    (h : m.belowClass? = some base) : ∃ w v origin paren before,
      m = ⟨w, .value v, .argument (.callable (.classObject origin)) paren before [] :: base⟩ := by
  unfold belowClass? at h
  split at h
  · cases h
    exact ⟨_, _, _, _, _, rfl⟩
  · cases h

theorem Machine.belowInitializer?_eq_some {m : Machine} {base : List Frame}
    (h : m.belowInitializer? = some base) : ∃ w v id closure paren before,
      closure.isInitializer = true ∧
      m = ⟨w, .value v, .argument (.callable (.function id closure)) paren before [] :: base⟩ := by
  unfold belowInitializer? at h
  split at h
  · obtain ⟨hinitializer, hbase⟩ := Option.ite_none_right_eq_some.mp h
    cases hbase
    exact ⟨_, _, _, _, _, _, hinitializer, rfl⟩
  · cases h

theorem Machine.finishesAt_of_comesDown {n : Nat} {w : World} {c : Control} {frame : Frame}
    {base : List Frame} (h : comesDown n ⟨w, c, frame :: base⟩ base = true) :
    FinishesAt base n ⟨w, c, frame :: base⟩ ∧
      ∃ v, (run n ⟨w, c, frame :: base⟩).control = .value v := by
  simp only [comesDown, Bool.and_eq_true, beq_iff_eq, decide_eq_true_eq] at h
  obtain ⟨⟨hlength, hvalue⟩, hwaits⟩ := h
  cases hcontrol : (run n ⟨w, c, frame :: base⟩).control with
  | value v =>
    exact ⟨finishesAt_of_cons rfl hcontrol hlength (.of_lengths hwaits), v, rfl⟩
  | _ =>
    rw [hcontrol] at hvalue
    cases hvalue

/-- A subclass that inherits its initializer, and that initializer kept in a variable, where it comes
to a `return`. -/
theorem initializers_yield_objects_of_inherited :
    ∃ nextId, (∃ w h v frame frames arguments origin n,
      Lived Token.Scanned nextId ⟨w, .value v, frame :: frames⟩ h ∧
      frame.Applies v (.callable (.classObject origin)) arguments ∧
      Machine.FinishesAt frames n ⟨w, .value v, frame :: frames⟩ ∧
      (Machine.run n ⟨w, .value v, frame :: frames⟩).control =
        .value (.object ⟨w.store.fields.size, origin⟩)) ∧
    ∃ w h v frame frames arguments id closure method object n,
      Lived Token.Scanned nextId ⟨w, .value v, frame :: frames⟩ h ∧
      frame.Applies v (.callable (.function id closure)) arguments ∧
      h.HasBound method object closure ∧ method.declaration.name.lexeme = initializerName ∧
      Machine.FinishesAt frames n ⟨w, .value v, frame :: frames⟩ ∧
      (Machine.run n ⟨w, .value v, frame :: frames⟩).control = .value (.object object) := by
  let source := "class A \x7b init(x) \x7b if (x) return; this.x = x; \x7d \x7d
    class B < A \x7b \x7d
    var f = B(nil).init;
    f(true);"
  let tokens := (tokenize source.toUTF8.toList).1
  let loaded := (Session.fresh (.ofRoom none) (.standing 0)).loadTokens tokens
  have hrun : (loaded.2.any fun program =>
      let first := (loaded.1.world.program program).run 15
      let second := (loaded.1.world.program program).run 42
      first.belowClass?.any (first.comesDown 18) &&
        second.belowInitializer?.any (second.comesDown 8)) = true := by decide +kernel
  obtain ⟨program, hprogram, hruns⟩ := (Option.any_eq_true _ _).mp hrun
  obtain ⟨hfirst, hsecond⟩ := Bool.and_eq_true_iff.mp hruns
  obtain ⟨base, hbase, hdown⟩ := (Option.any_eq_true _ _).mp hfirst
  obtain ⟨base', hbase', hdown'⟩ := (Option.any_eq_true _ _).mp hsecond
  obtain ⟨w, v, origin, paren, before, hconstructs⟩ := Machine.belowClass?_eq_some hbase
  obtain ⟨w', v', id, closure, paren', before', hinitializer, hcalls⟩ :=
    Machine.belowInitializer?_eq_some hbase'
  rw [hconstructs] at hdown
  rw [hcalls] at hdown'
  obtain ⟨hfinish, u, hvalue⟩ := Machine.finishesAt_of_comesDown hdown
  obtain ⟨hfinish', u', hvalue'⟩ := Machine.finishesAt_of_comesDown hdown'
  have hl (n : Nat) : Lived Token.Scanned _ _ _ := Lived.of_load (fun t ht => ⟨_, ht⟩)
    (show loaded = (loaded.1, some program) by rw [← hprogram]) n
  have hlived := hl 15
  have hlived' := hl 42
  rw [hconstructs] at hlived
  rw [hcalls] at hlived'
  have happlies := Frame.Applies.argument (.callable (.classObject origin)) paren before v
  have happlies' := Frame.Applies.argument (.callable (.function id closure)) paren' before' v'
  obtain ⟨hgives, -⟩ := (initializers_yield_objects hlived happlies).2 origin rfl
  obtain ⟨hiff, hgives'⟩ := (initializers_yield_objects hlived' happlies').1 id closure rfl
  obtain ⟨method, object, hbound, hname⟩ := hiff.mp hinitializer
  exact ⟨loaded.1.nextId, ⟨w, _, v, _, base, _, origin, 18, hlived, happlies, hfinish,
      hgives.control_eq hfinish hvalue⟩, w', _, v', _, base', _, id, closure, method, object, 8,
    hlived', happlies', hbound, hname, hfinish',
    (hgives' method object hbound hname).control_eq hfinish' hvalue'⟩

end LoxLang
