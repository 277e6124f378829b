import LoxLang.Proofs.Machine.History
import LoxLang.Proofs.Machine.Moves
import LoxLang.Proofs.Syntax.Parts

/-!
The graph of what a program has allocated. A `Layout` lists by their identities the scopes, each with
the link to the scope that encloses it, the objects with their classes, and the functions and classes.
`Layout.Sound` is what makes the graph well-founded although values may refer to each other in a circle:
links and superclasses lead to what was allocated earlier. `Machine.Fits` says that whatever a machine
holds is listed; a step only adds to the lists (`move_fits`), and the code that it holds is of the kinds
that its programs are allowed to have.
-/
namespace LoxLang
set_option autoImplicit false

/-- What has been allocated, by identities: of each scope the one that encloses it, of each object its
class, and the functions and classes themselves. -/
structure Layout where
  links : List (Option ScopeId)
  origins : List ClassObject
  callables : List Callable

namespace Layout

/-! ## Handles -/

section Handles
variable (L : Layout)

/-- Each scope of a chain is enclosed by the next, and the last one by none. -/
def HasLinks : Chain → Prop
  | [] => True
  | id :: outer => L.links[id]? = some outer.head? ∧ HasLinks outer

def HasChain (chain : Chain) : Prop :=
  chain ≠ [] ∧ L.HasLinks chain

def HasClass (c : ClassObject) : Prop :=
  L.callables[c.id]? = some (.classObject c)

def HasObject (object : ObjectRef) : Prop :=
  L.origins[object.id]? = some object.origin

/-- What a value refers to has been allocated as what the value says that it is. -/
def HasValue : Value → Prop
  | .callable (.function id closure) => L.callables[id]? = some (.function id closure)
  | .callable (.classObject c) => L.HasClass c
  | .object object => L.HasObject object
  | _ => True

variable (allowed : Stmt → Prop)

/-- The scopes around a function have been allocated, and its code is allowed. -/
def HasFunction (c : Closure) : Prop :=
  L.HasChain c.chain ∧ ∀ s ∈ c.declaration.parts, allowed s

def HasControl : Control → Prop
  | .exec s => ∀ t ∈ s.parts, allowed t
  | .execAll body => ∀ t ∈ Stmt.partsAll body, allowed t
  | .value v => L.HasValue v
  | .done (.returned v) => L.HasValue v
  | _ => True

def HasFrame : Frame → Prop
  | .binaryRight _ left => L.HasValue left
  | .argument callee _ before _ => L.HasValue callee ∧ ∀ v ∈ before, L.HasValue v
  | .setValue object _ => L.HasObject object
  | .branch thenBranch elseBranch =>
    (∀ t ∈ thenBranch.parts, allowed t) ∧ ∀ s ∈ elseBranch, ∀ t ∈ s.parts, allowed t
  | .loopTest condition body => ∀ t ∈ (Stmt.loop condition body).parts, allowed t
  | .loopBody condition body => ∀ t ∈ (Stmt.loop condition body).parts, allowed t
  | .superclass _ _ methods => ∀ t ∈ FunctionDeclaration.partsAll methods, allowed t
  | .sequence rest => ∀ t ∈ Stmt.partsAll rest, allowed t
  | .block outer => L.HasChain outer
  | .call caller closure => L.HasChain caller ∧ L.HasFunction allowed closure
  | .construct object => L.HasObject object
  | _ => True

/-- A class is the one with an identity, its methods can be called, and its superclass was declared
before it. -/
structure HasDeclared (id : Nat) (c : ClassObject) : Prop where
  identity : c.id = id
  methods : ∀ name method, c.methods.get? name = some method → L.HasFunction allowed method
  superclass : ∀ parent, c.superclass = some parent → L.HasClass parent ∧ parent.id < id

/-- Links and superclasses lead to what was allocated earlier; only the global scope is enclosed by none,
and what is listed refers to what is listed. -/
structure Sound : Prop where
  globals : L.links[0]? = some none
  only : ∀ id : ScopeId, L.links[id]? = some none → id = 0
  outward : ∀ id outer : ScopeId, L.links[id]? = some (some outer) → outer < id
  origins : ∀ (id : Nat) (origin : ClassObject), L.origins[id]? = some origin → L.HasClass origin
  functions : ∀ (id own : Nat) (closure : Closure),
    L.callables[id]? = some (.function own closure) → own = id ∧ L.HasFunction allowed closure
  classes : ∀ (id : Nat) (c : ClassObject), L.callables[id]? = some (.classObject c) →
    L.HasDeclared allowed id c

/-- A store has allocated what is listed, and what it holds is listed. -/
structure Holds (s : Store) : Prop where
  sound : L.Sound allowed
  scopes : L.links.length = s.scopes.size
  objects : L.origins.length = s.fields.size
  identities : L.callables.length = s.nextId
  bound : ∀ (id : ScopeId) (x : String) (v : Value), (s.scope id).get? x = some v → L.HasValue v
  stored : ∀ (object : ObjectRef) (x : String) (v : Value),
    (s.fieldsOf object).get? x = some v → L.HasValue v

end Handles

/-- From one layout more is allocated; nothing that was allocated changes. -/
structure Le (L L' : Layout) : Prop where
  links : ∀ {id : ScopeId} {link : Option ScopeId}, L.links[id]? = some link →
    L'.links[id]? = some link
  origins : ∀ {id : Nat} {origin : ClassObject}, L.origins[id]? = some origin →
    L'.origins[id]? = some origin
  callables : ∀ {id : Nat} {callable : Callable}, L.callables[id]? = some callable →
    L'.callables[id]? = some callable

section Le
variable {L L' L'' : Layout} {allowed : Stmt → Prop}

theorem Le.refl (L : Layout) : L.Le L :=
  ⟨id, id, id⟩

theorem Le.trans (h1 : L.Le L') (h2 : L'.Le L'') : L.Le L'' :=
  ⟨fun h => h2.links (h1.links h), fun h => h2.origins (h1.origins h),
    fun h => h2.callables (h1.callables h)⟩

theorem HasLinks.mono (hle : L.Le L') {chain : Chain} (h : L.HasLinks chain) :
    L'.HasLinks chain := by
  induction chain with
  | nil => trivial
  | cons id outer ih => exact ⟨hle.links h.1, ih h.2⟩

theorem HasChain.mono (hle : L.Le L') {chain : Chain} (h : L.HasChain chain) : L'.HasChain chain :=
  ⟨h.1, h.2.mono hle⟩

theorem HasClass.mono (hle : L.Le L') {c : ClassObject} (h : L.HasClass c) : L'.HasClass c :=
  hle.callables h

theorem HasObject.mono (hle : L.Le L') {object : ObjectRef} (h : L.HasObject object) :
    L'.HasObject object :=
  hle.origins h

theorem HasValue.mono (hle : L.Le L') {v : Value} (h : L.HasValue v) : L'.HasValue v := by
  cases v with
  | callable callable =>
    cases callable with
    | clock => trivial
    | function id closure => exact hle.callables h
    | classObject c => exact hle.callables h
  | object object => exact hle.origins h
  | _ => trivial

theorem HasFunction.mono (hle : L.Le L') {c : Closure} (h : L.HasFunction allowed c) :
    L'.HasFunction allowed c :=
  ⟨h.1.mono hle, h.2⟩

theorem HasDeclared.mono (hle : L.Le L') {id : Nat} {c : ClassObject}
    (h : L.HasDeclared allowed id c) : L'.HasDeclared allowed id c :=
  ⟨h.identity, fun name method hm => (h.methods name method hm).mono hle,
    fun parent hp => (h.superclass parent hp).imp_left (HasClass.mono hle)⟩

theorem HasFrame.mono (hle : L.Le L') {frame : Frame} (h : L.HasFrame allowed frame) :
    L'.HasFrame allowed frame := by
  cases frame with
  | binaryRight operator left => exact HasValue.mono hle h
  | argument callee paren before rest => exact ⟨h.1.mono hle, fun v hv => (h.2 v hv).mono hle⟩
  | setValue object name => exact HasObject.mono hle h
  | block outer => exact HasChain.mono hle h
  | call caller closure => exact ⟨h.1.mono hle, h.2.mono hle⟩
  | construct object => exact HasObject.mono hle h
  | _ => exact h

end Le

/-! ## Allocation -/

/-- Another scope, with its link. -/
def withScope (L : Layout) (link : Option ScopeId) : Layout :=
  { L with links := L.links ++ [link] }

/-- Another object, with its class. -/
def withObject (L : Layout) (origin : ClassObject) : Layout :=
  { L with origins := L.origins ++ [origin] }

/-- Another function or class. -/
def withCallable (L : Layout) (callable : Callable) : Layout :=
  { L with callables := L.callables ++ [callable] }

section Allocation
variable {L : Layout} {allowed : Stmt → Prop} {s : Store}

theorem lt_of_getElem? {α : Type} {l : List α} {i : Nat} {a : α} (h : l[i]? = some a) :
    i < l.length :=
  (List.getElem?_eq_some_iff.mp h).1

theorem getElem?_append_of_some {α : Type} {l : List α} {i : Nat} {a : α} (h : l[i]? = some a)
    (more : List α) : (l ++ more)[i]? = some a := by
  rwa [List.getElem?_append_left (lt_of_getElem? h)]

theorem getElem?_concat_cases {α : Type} {l : List α} {i : Nat} {a b : α}
    (h : (l ++ [b])[i]? = some a) : l[i]? = some a ∨ i = l.length ∧ a = b := by
  rw [List.getElem?_append] at h
  split at h
  · exact .inl h
  · rw [List.getElem?_singleton] at h
    split at h
    · cases h
      exact .inr ⟨by omega, rfl⟩
    · cases h

theorem le_withScope (L : Layout) (link : Option ScopeId) : L.Le (L.withScope link) :=
  ⟨fun h => getElem?_append_of_some h _, id, id⟩

theorem le_withObject (L : Layout) (origin : ClassObject) : L.Le (L.withObject origin) :=
  ⟨id, fun h => getElem?_append_of_some h _, id⟩

theorem le_withCallable (L : Layout) (callable : Callable) : L.Le (L.withCallable callable) :=
  ⟨id, id, fun h => getElem?_append_of_some h _⟩

theorem HasChain.opening {outer : Chain} (h : L.HasChain outer) :
    (L.withScope outer.head?).HasChain (L.links.length :: outer) :=
  ⟨List.cons_ne_nil _ _, List.getElem?_concat_length, h.2.mono (L.le_withScope _)⟩

theorem Sound.withScope (h : L.Sound allowed) {outer : Chain} (houter : L.HasChain outer) :
    (L.withScope outer.head?).Sound allowed := by
  have hle := L.le_withScope outer.head?
  refine ⟨hle.links h.globals, fun id hid => ?_, fun id next hid => ?_,
    fun id origin horigin => (h.origins id origin horigin).mono hle,
    fun id own closure hf => (h.functions id own closure hf).imp_right (HasFunction.mono hle),
    fun id c hc => (h.classes id c hc).mono hle⟩
  · rcases getElem?_concat_cases hid with hold | ⟨-, hnone⟩
    · exact h.only id hold
    · exact absurd (List.head?_eq_none_iff.mp hnone.symm) houter.1
  · rcases getElem?_concat_cases hid with hold | ⟨rfl, hhead⟩
    · exact h.outward id next hold
    · obtain ⟨first, rest, rfl⟩ := List.exists_cons_of_ne_nil houter.1
      cases hhead
      exact lt_of_getElem? houter.2.1

theorem Sound.withObject (h : L.Sound allowed) {origin : ClassObject} (horigin : L.HasClass origin) :
    (L.withObject origin).Sound allowed := by
  have hle := L.le_withObject origin
  refine ⟨h.globals, h.only, h.outward, fun id other hother => ?_,
    fun id own closure hf => (h.functions id own closure hf).imp_right (HasFunction.mono hle),
    fun id c hc => (h.classes id c hc).mono hle⟩
  rcases getElem?_concat_cases hother with hold | ⟨-, rfl⟩
  · exact h.origins id other hold
  · exact horigin

theorem Sound.withFunction (h : L.Sound allowed) {closure : Closure}
    (hclosure : L.HasFunction allowed closure) :
    (L.withCallable (.function L.callables.length closure)).Sound allowed := by
  have hle := L.le_withCallable (.function L.callables.length closure)
  refine ⟨h.globals, h.only, h.outward,
    fun id origin horigin => (h.origins id origin horigin).mono hle,
    fun id own other hother => ?_, fun id c hc => ?_⟩
  · rcases getElem?_concat_cases hother with hold | ⟨rfl, hnew⟩
    · exact (h.functions id own other hold).imp_right (HasFunction.mono hle)
    · cases hnew
      exact ⟨rfl, hclosure.mono hle⟩
  · rcases getElem?_concat_cases hc with hold | ⟨-, hnew⟩
    · exact (h.classes id c hold).mono hle
    · cases hnew

theorem Sound.withClass (h : L.Sound allowed) {c : ClassObject} (hid : c.id = L.callables.length)
    (hmethods : ∀ name method, c.methods.get? name = some method → L.HasFunction allowed method)
    (hparent : ∀ parent, c.superclass = some parent → L.HasClass parent) :
    (L.withCallable (.classObject c)).Sound allowed := by
  have hle := L.le_withCallable (.classObject c)
  refine ⟨h.globals, h.only, h.outward,
    fun id origin horigin => (h.origins id origin horigin).mono hle,
    fun id own other hother => ?_, fun id other hother => ?_⟩
  · rcases getElem?_concat_cases hother with hold | ⟨-, hnew⟩
    · exact (h.functions id own other hold).imp_right (HasFunction.mono hle)
    · cases hnew
  · rcases getElem?_concat_cases hother with hold | ⟨rfl, hnew⟩
    · exact (h.classes id other hold).mono hle
    · cases hnew
      exact ⟨hid, fun name method hm => (hmethods name method hm).mono hle,
        fun parent hp => ⟨(hparent parent hp).mono hle, lt_of_getElem? (hparent parent hp)⟩⟩

/-! ## Changes of a store -/

theorem Holds.hasValue_lookupAt? (h : L.Holds allowed s) {chain : Chain} {distance : Nat}
    {x : String} {v : Value} (hv : s.lookupAt? chain distance x = some v) : L.HasValue v := by
  unfold Store.lookupAt? Store.valueIn? at hv
  split at hv
  · exact h.bound _ x v hv
  · cases hv

theorem Holds.hasValue_read? {w : World} (h : L.Holds allowed w.store) {target : Reference}
    {v : Value} (hv : w.read? target = some v) : L.HasValue v := by
  unfold World.read? Store.valueIn? at hv
  split at hv
  · exact h.bound _ _ v hv
  · cases hv

theorem Holds.bind (h : L.Holds allowed s) {v : Value} (hv : L.HasValue v) (id : ScopeId)
    (name : String) : L.Holds allowed (s.bind id name v) := by
  refine ⟨h.sound, h.scopes.trans (s.size_bind id name v).symm, h.objects, h.identities,
    fun other x u hu => ?_, h.stored⟩
  rw [Store.scope_bind] at hu
  split at hu
  · rw [Table.get?_insert] at hu
    split at hu
    · cases hu
      exact hv
    · exact h.bound other x u hu
  · exact h.bound other x u hu

theorem Holds.define (h : L.Holds allowed s) {v : Value} (hv : L.HasValue v) (chain : Chain)
    (name : String) : L.Holds allowed (s.define chain name v) := by
  cases chain with
  | nil => exact h
  | cons id outer => exact h.bind hv id name

theorem Holds.setField (h : L.Holds allowed s) {v : Value} (hv : L.HasValue v) (object : ObjectRef)
    (name : String) : L.Holds allowed (s.setField object name v) := by
  refine ⟨h.sound, h.scopes, h.objects.trans Array.size_modify.symm, h.identities, h.bound,
    fun other x u hu => ?_⟩
  rw [Store.fieldsOf_setField] at hu
  split at hu
  · rw [Table.get?_insert] at hu
    split at hu
    · cases hu
      exact hv
    · exact h.stored other x u hu
  · exact h.stored other x u hu

theorem Holds.newScope (h : L.Holds allowed s) {outer : Chain} (houter : L.HasChain outer)
    {bindings : Table Value} (hb : ∀ x v, bindings.get? x = some v → L.HasValue v) :
    (L.withScope outer.head?).Holds allowed (s.newScope bindings).2 := by
  have hle := L.le_withScope outer.head?
  refine ⟨h.sound.withScope houter, ?_, h.objects, h.identities, fun id x v hv => ?_,
    fun object x v hv => (h.stored object x v hv).mono hle⟩
  · rw [Store.size_newScope, ← h.scopes]
    exact List.length_append
  · rw [Store.scope_newScope] at hv
    split at hv
    · exact (hb x v hv).mono hle
    · exact (h.bound id x v hv).mono hle

theorem Holds.newObject (h : L.Holds allowed s) {origin : ClassObject} (horigin : L.HasClass origin) :
    (L.withObject origin).Holds allowed (s.newObject origin).2 := by
  have hle := L.le_withObject origin
  refine ⟨h.sound.withObject horigin, h.scopes, ?_, h.identities,
    fun id x v hv => (h.bound id x v hv).mono hle, fun object x v hv => ?_⟩
  · change (L.origins ++ [origin]).length = (s.fields.push .empty).size
    rw [List.length_append, Array.size_push, h.objects]
    rfl
  · rw [Store.fieldsOf_newObject] at hv
    split at hv
    · cases hv
    · exact (h.stored object x v hv).mono hle

theorem Holds.hasObject_newObject (h : L.Holds allowed s) (origin : ClassObject) :
    (L.withObject origin).HasObject (s.newObject origin).1 := by
  change (L.origins ++ [origin])[s.fields.size]? = some origin
  rw [← h.objects]
  exact List.getElem?_concat_length

/-- An identity is taken for a function or class. -/
theorem Holds.newIdentity (h : L.Holds allowed s) {callable : Callable}
    (hsound : (L.withCallable callable).Sound allowed) :
    (L.withCallable callable).Holds allowed s.newIdentity.2 := by
  have hle := L.le_withCallable callable
  refine ⟨hsound, h.scopes, h.objects, ?_, fun id x v hv => (h.bound id x v hv).mono hle,
    fun object x v hv => (h.stored object x v hv).mono hle⟩
  change (L.callables ++ [callable]).length = s.nextId + 1
  rw [List.length_append, h.identities]
  rfl

theorem Holds.newFunction (h : L.Holds allowed s) {closure : Closure}
    (hclosure : L.HasFunction allowed closure) :
    (L.withCallable (.function s.nextId closure)).Holds allowed (s.newFunction closure).2 ∧
      (L.withCallable (.function s.nextId closure)).HasValue (s.newFunction closure).1 := by
  rw [← h.identities]
  refine ⟨h.newIdentity (h.sound.withFunction hclosure), ?_⟩
  change (L.callables ++ [_])[s.nextId]? = some (.function s.nextId closure)
  rw [← h.identities]
  exact List.getElem?_concat_length

/-- A method is bound in a scope of its own. -/
theorem Holds.bindMethod (h : L.Holds allowed s) {method : Closure} {object : ObjectRef}
    (hmethod : L.HasFunction allowed method) (hobject : L.HasObject object) :
    (L.withScope method.chain.head?).Holds allowed (s.bindMethod method object).2 ∧
      (L.withScope method.chain.head?).HasFunction allowed (s.bindMethod method object).1 := by
  refine ⟨h.newScope hmethod.1 fun x v hv => ?_, ?_, hmethod.2⟩
  · rw [Table.get?_insert] at hv
    split at hv
    · cases hv
      exact hobject
    · cases hv
  · have hopened := hmethod.1.opening
    rw [h.scopes] at hopened
    exact hopened

/-- The methods of a class, its own and those that it inherits, can be called. -/
theorem Sound.hasFunction_method? (h : L.Sound allowed) {c : ClassObject} (hc : L.HasClass c)
    {name : String} {method : Closure} (hmethod : c.method? name = some method) :
    L.HasFunction allowed method := by
  -- The induction is on the identity of the class, which is smaller for its superclass.
  induction hid : c.id using Nat.strongRecOn generalizing c with
  | ind id ih =>
    have hdeclared := h.classes c.id c hc
    obtain ⟨own, cname, superclass, methods⟩ := c
    cases superclass with
    | none => exact hdeclared.methods name method hmethod
    | some parent =>
      rw [ClassObject.method?] at hmethod
      split at hmethod
      · rename_i found hfound
        cases hmethod
        exact hdeclared.methods name method hfound
      · obtain ⟨hparent, hlt⟩ := hdeclared.superclass parent rfl
        exact ih parent.id (hid ▸ hlt) hparent hmethod rfl

theorem Holds.has_superParts {w : World} (h : L.Holds allowed w.store) {keyword : Reference}
    {superclass : ClassObject} {object : ObjectRef}
    (hparts : Machine.superParts w keyword = .ok (superclass, object)) :
    L.HasClass superclass ∧ L.HasObject object := by
  unfold Machine.superParts at hparts
  split at hparts
  · cases hparts
  · split at hparts
    · cases hparts
    · rename_i hsuper
      have hclass := h.hasValue_lookupAt? hsuper
      split at hparts
      · cases hparts
      · split at hparts
        · cases hparts
        · rename_i hthis
          have hobject := h.hasValue_lookupAt? hthis
          cases hparts
          exact ⟨hclass, hobject⟩
        · cases hparts
    · cases hparts

theorem hasValue_of_plain {v : Value} (h : v.Plain) : L.HasValue v := by
  cases v with
  | callable callable => exact h.elim
  | object object => exact h.elim
  | _ => trivial

end Allocation

end Layout

/-! ## Machines -/

/-- Whatever a machine holds is listed, and its code is allowed. -/
structure Machine.Fits (L : Layout) (allowed : Stmt → Prop) (m : Machine) : Prop where
  holds : L.Holds allowed m.world.store
  chain : L.HasChain m.world.chain
  control : L.HasControl allowed m.control
  frames : ∀ frame ∈ m.frames, L.HasFrame allowed frame

/-- One machine comes from another: it holds what is listed for that one and what has been allocated in
between, and the scopes among it are those that were opened. -/
def Machine.FitsAfter (L : Layout) (allowed : Stmt → Prop) (m m' : Machine) : Prop :=
  ∃ L', L.Le L' ∧ m'.Fits L' allowed ∧ ∀ id link, L'.links[id]? = some link →
    L.links[id]? = some link ∨ ∃ origin outer, m.Opens origin id outer ∧ link = outer.head?

namespace Layout
variable {L : Layout} {allowed : Stmt → Prop}

/-! ## Steps that leave the world alone -/

theorem has_defers {c c' : Control} {frame : Frame} (h : c.Defers c' frame)
    (hc : L.HasControl allowed c) : L.HasControl allowed c' ∧ L.HasFrame allowed frame := by
  cases h with
  | conditional condition thenBranch elseBranch =>
    cases elseBranch with
    | none =>
      obtain ⟨-, hthen⟩ := List.forall_mem_cons.mp hc
      exact ⟨trivial, hthen, fun s hs => absurd hs (Option.not_mem_none s)⟩
    | some elseBranch =>
      obtain ⟨-, hbranches⟩ := List.forall_mem_cons.mp hc
      obtain ⟨hthen, helse⟩ := List.forall_mem_append.mp hbranches
      exact ⟨trivial, hthen, fun s hs => Option.mem_some.mp hs ▸ helse⟩
  | loop condition body => exact ⟨trivial, hc⟩
  | classDeclaration name parent methods =>
    exact ⟨trivial, (List.forall_mem_cons.mp hc).2⟩
  | sequence s rest => exact List.forall_mem_append.mp hc
  | _ => exact ⟨trivial, trivial⟩

theorem has_becomes {c c' : Control} (h : c.Becomes c') : L.HasControl allowed c' := by
  cases h with
  | literal value => exact hasValue_of_plain (Value.plain_ofLiteral value)
  | _ => trivial

theorem has_passes {frame : Frame} {c c' : Control} {more : List Frame}
    (h : frame.Passes c c' more) (hframe : L.HasFrame allowed frame)
    (hc : L.HasControl allowed c) :
    L.HasControl allowed c' ∧ ∀ f ∈ more, L.HasFrame allowed f := by
  have hnone : ∀ f ∈ ([] : List Frame), L.HasFrame allowed f := List.forall_mem_nil _
  cases h with
  | unary h => exact ⟨hasValue_of_plain (plain_applyUnary h), hnone⟩
  | binaryLeft operator right v => exact ⟨trivial, List.forall_mem_singleton.mpr hc⟩
  | binaryRight h => exact ⟨hasValue_of_plain (plain_applyBinary h), hnone⟩
  | decided => exact ⟨hc, hnone⟩
  | callee paren e rest v =>
    exact ⟨trivial, List.forall_mem_singleton.mpr ⟨hc, List.forall_mem_nil _⟩⟩
  | argument callee paren before e rest v =>
    refine ⟨trivial, List.forall_mem_singleton.mpr ⟨hframe.1, ?_⟩⟩
    exact List.forall_mem_append.mpr ⟨hframe.2, List.forall_mem_singleton.mpr hc⟩
  | setObject name value object => exact ⟨trivial, List.forall_mem_singleton.mpr hc⟩
  | thenBranch => exact ⟨hframe.1, hnone⟩
  | elseBranch => exact ⟨hframe.2 _ rfl, hnone⟩
  | loopOn => exact ⟨(List.forall_mem_cons.mp hframe).2, List.forall_mem_singleton.mpr hframe⟩
  | loopAgain => exact ⟨trivial, List.forall_mem_singleton.mpr hframe⟩
  | loopReturn => exact ⟨hc, hnone⟩
  | returning => exact ⟨hc, hnone⟩
  | construct => exact ⟨hframe, hnone⟩
  | sequence => exact ⟨hframe, hnone⟩
  | sequenceReturn => exact ⟨hc, hnone⟩
  | _ => exact ⟨trivial, hnone⟩

end Layout

namespace Machine
variable {L L' : Layout} {allowed : Stmt → Prop} {m m' : Machine}

theorem FitsAfter.same (h : m'.Fits L allowed) : FitsAfter L allowed m m' :=
  ⟨L, .refl L, h, fun _ _ => .inl⟩

/-- A scope is opened first. -/
theorem FitsAfter.opening {origin : Origin} {outer : Chain}
    (hopens : m.Opens origin L.links.length outer)
    (h : FitsAfter (L.withScope outer.head?) allowed m m') : FitsAfter L allowed m m' := by
  obtain ⟨L', hle, hfits, hopened⟩ := h
  refine ⟨L', (L.le_withScope outer.head?).trans hle, hfits, fun id link hid => ?_⟩
  rcases hopened id link hid with hold | hnew
  · rcases Layout.getElem?_concat_cases hold with hold | ⟨rfl, rfl⟩
    · exact .inl hold
    · exact .inr ⟨origin, outer, hopens, rfl⟩
  · exact .inr hnew

/-- An object is allocated first. -/
theorem FitsAfter.object {origin : ClassObject}
    (h : FitsAfter (L.withObject origin) allowed m m') : FitsAfter L allowed m m' := by
  obtain ⟨L', hle, hfits, hopened⟩ := h
  exact ⟨L', (L.le_withObject origin).trans hle, hfits, hopened⟩

theorem FitsAfter.callable {callable : Callable}
    (h : FitsAfter (L.withCallable callable) allowed m m') : FitsAfter L allowed m m' := by
  obtain ⟨L', hle, hfits, hopened⟩ := h
  exact ⟨L', (L.le_withCallable callable).trans hle, hfits, hopened⟩

theorem has_frames_mono (hle : L.Le L') {frames : List Frame}
    (h : ∀ frame ∈ frames, L.HasFrame allowed frame) :
    ∀ frame ∈ frames, L'.HasFrame allowed frame :=
  fun frame hframe => (h frame hframe).mono hle

/-- A method is read and bound to an object. -/
theorem fits_newMethod {w : World} {method : Closure} {object : ObjectRef} {frames : List Frame}
    {origin : Origin} (hholds : L.Holds allowed w.store) (hchain : L.HasChain w.chain)
    (hframes : ∀ frame ∈ frames, L.HasFrame allowed frame)
    (hmethod : L.HasFunction allowed method) (hobject : L.HasObject object)
    (hopens : m.Opens origin w.store.scopes.size method.chain) :
    FitsAfter L allowed m ⟨(w.onStore (·.newMethod method object)).2,
      .value (w.onStore (·.newMethod method object)).1, frames⟩ := by
  rw [← hholds.scopes] at hopens
  have hscope := L.le_withScope method.chain.head?
  obtain ⟨hbound, hclosure⟩ := hholds.bindMethod hmethod hobject
  obtain ⟨hstore, hvalue⟩ := hbound.newFunction hclosure
  have hfunction := Layout.le_withCallable (L.withScope method.chain.head?)
    (.function (w.store.bindMethod method object).2.nextId (w.store.bindMethod method object).1)
  exact .opening hopens (.callable (.same ⟨hstore, (hchain.mono hscope).mono hfunction, hvalue,
    has_frames_mono hfunction (has_frames_mono hscope hframes)⟩))

/-- A body is entered in a scope of its own. -/
theorem fits_enterBody {w : World} {closure : Closure} {arguments : List Value}
    {frames : List Frame} {origin : Origin} (hholds : L.Holds allowed w.store)
    (hchain : L.HasChain w.chain) (hframes : ∀ frame ∈ frames, L.HasFrame allowed frame)
    (hclosure : L.HasFunction allowed closure) (harguments : ∀ v ∈ arguments, L.HasValue v)
    (hopens : m.Opens origin w.store.scopes.size closure.chain) :
    FitsAfter L allowed m (enterBody w closure arguments frames) := by
  rw [← hholds.scopes] at hopens
  have hle := L.le_withScope closure.chain.head?
  have hbindings : ∀ x v, (Table.ofList ((closure.declaration.params.map Token.lexeme).zip
      arguments)).get? x = some v → L.HasValue v := fun x v hv =>
    harguments v (List.of_mem_zip (Table.mem_of_get?_ofList hv)).2
  have hstore := hholds.newScope hclosure.1 hbindings
  have hopened := hclosure.1.opening
  rw [hholds.scopes] at hopened
  refine .opening hopens (.same ⟨hstore, hopened, ?_, List.forall_mem_cons.mpr ⟨?_, ?_⟩⟩)
  · obtain ⟨⟨name, params, body⟩, chain, isInitializer⟩ := closure
    exact hclosure.2
  · exact ⟨hchain.mono hle, hclosure.mono hle⟩
  · exact has_frames_mono hle hframes

/-- A new object is allocated, then a scope in which its initializer is bound to it, and then the scope
of the call. -/
theorem fits_enterInitializer {w : World} {origin : ClassObject} {method : Closure}
    {arguments : List Value} {frames : List Frame} (hholds : L.Holds allowed w.store)
    (hchain : L.HasChain w.chain) (hframes : ∀ frame ∈ frames, L.HasFrame allowed frame)
    (hclass : L.HasClass origin) (hmethod : origin.method? initializerName = some method)
    (harguments : ∀ v ∈ arguments, L.HasValue v)
    (hsize : m.world.store.scopes.size ≤ w.store.scopes.size)
    (hstep : m.step = enterInitializer w origin method arguments frames) :
    FitsAfter L allowed m (enterInitializer w origin method arguments frames) := by
  let made := (w.onStore (·.newObject origin)).2
  let object := (w.onStore (·.newObject origin)).1
  let bound := (made.onStore (·.bindMethod method object)).2
  let closure := (made.onStore (·.bindMethod method object)).1
  have hmade : (L.withObject origin).Holds allowed made.store := hholds.newObject hclass
  have hobject : (L.withObject origin).HasObject object := hholds.hasObject_newObject origin
  have hcalled := (hholds.sound.hasFunction_method? hclass hmethod).mono (L.le_withObject origin)
  obtain ⟨hbound, hclosure⟩ := hmade.bindMethod hcalled hobject
  have hle := (L.le_withObject origin).trans
    ((L.withObject origin).le_withScope method.chain.head?)
  have hlater : m.world.store.scopes.size ≤ bound.store.scopes.size :=
    Nat.le_trans hsize (Nat.le_trans (Nat.le_succ _) (Nat.le_of_eq (Array.size_push _).symm))
  have hbinding : m.Opens (.binding method.declaration object) made.store.scopes.size
    method.chain := .initializer hsize hmethod hstep
  have hcall : m.Opens (.call method.declaration) bound.store.scopes.size closure.chain :=
    .call hlater hstep
  rw [← hmade.scopes] at hbinding
  refine .object (.opening hbinding
    (fits_enterBody hbound (hchain.mono hle) ?_ hclosure ?_ hcall))
  · exact List.forall_mem_cons.mpr ⟨hobject.mono (Layout.le_withScope _ _),
      has_frames_mono hle hframes⟩
  · exact fun u hu => (harguments u hu).mono hle

/-- The methods of a declaration, closed over a chain. -/
theorem has_methodTable {chain : Chain} (hchain : L.HasChain chain)
    {methods : List FunctionDeclaration}
    (hmethods : ∀ t ∈ FunctionDeclaration.partsAll methods, allowed t) {name : String}
    {method : Closure} (h : (methodTable chain methods).get? name = some method) :
    L.HasFunction allowed method := by
  have hmem := Table.mem_of_get?_ofList h
  obtain ⟨declaration, hdeclaration, heq⟩ := List.mem_map.mp hmem
  cases heq
  refine ⟨hchain, fun t ht => hmethods t ?_⟩
  exact FunctionDeclaration.mem_partsAll hdeclaration ht

/-- A class is declared over the chain that its methods see. -/
theorem fits_declared (w : World) {c : ClassObject} {frames : List Frame}
    (hholds : L.Holds allowed w.store) (hchain : L.HasChain w.chain)
    (hframes : ∀ frame ∈ frames, L.HasFrame allowed frame) (hid : c.id = w.store.nextId)
    (hmethods : ∀ name method, c.methods.get? name = some method → L.HasFunction allowed method)
    (hsuperclass : ∀ parent, c.superclass = some parent → L.HasClass parent) (name : String) :
    FitsAfter L allowed m ⟨(w.onStore Store.newIdentity).2.define name
      (.callable (.classObject c)), .done .normal, frames⟩ := by
  have hle := L.le_withCallable (.classObject c)
  have hlast : c.id = L.callables.length := hid.trans hholds.identities.symm
  have hstore := hholds.newIdentity (hholds.sound.withClass hlast hmethods hsuperclass)
  have hclass : (L.withCallable (.classObject c)).HasValue (.callable (.classObject c)) := by
    rw [Layout.HasValue, Layout.HasClass, hlast]
    exact List.getElem?_concat_length
  exact .callable (.same ⟨hstore.define hclass w.chain name, hchain.mono hle, trivial,
    has_frames_mono hle hframes⟩)

theorem fits_declareClass {w : World} {name : Token} {superclass : Option ClassObject}
    {methods : List FunctionDeclaration} {frames : List Frame} (hholds : L.Holds allowed w.store)
    (hchain : L.HasChain w.chain) (hframes : ∀ frame ∈ frames, L.HasFrame allowed frame)
    (hmethods : ∀ t ∈ FunctionDeclaration.partsAll methods, allowed t)
    (hsuperclass : ∀ parent, superclass = some parent → L.HasClass parent)
    (hopens : ∀ parent, superclass = some parent →
      m.Opens (.inheritance name methods parent) w.store.scopes.size w.chain) :
    FitsAfter L allowed m (declareClass w name superclass methods frames) := by
  have hnil : L.HasValue .nil := trivial
  have hdefined : L.Holds allowed (w.define name.lexeme .nil).store :=
    hholds.define hnil w.chain name.lexeme
  cases superclass with
  | none =>
    exact fits_declared (w.define name.lexeme .nil) hdefined hchain hframes rfl
      (fun x method h => has_methodTable hchain hmethods h) hsuperclass name.lexeme
  | some parent =>
    have hle := L.le_withScope w.chain.head?
    have hparent := hsuperclass parent rfl
    have hsize : (w.define name.lexeme .nil).store.scopes.size = w.store.scopes.size :=
      Store.size_define w.store w.chain name.lexeme .nil
    have hbindings : ∀ x v, (Table.empty.insert "super"
        (Value.callable (.classObject parent))).get? x = some v → L.HasValue v := by
      intro x v hv
      rw [Table.get?_insert] at hv
      split at hv
      · cases hv
        exact hparent
      · cases hv
    have hopened := hchain.opening
    rw [hholds.scopes, ← hsize] at hopened
    have hstore := hdefined.newScope hchain hbindings
    have hlast := hopens parent rfl
    rw [← hholds.scopes] at hlast
    refine .opening hlast ?_
    exact fits_declared (((w.define name.lexeme .nil).enterScope w.chain
        (Table.empty.insert "super" (.callable (.classObject parent)))).withChain w.chain)
      hstore (hchain.mono hle) (has_frames_mono hle hframes) rfl
      (fun x method h => has_methodTable hopened hmethods h)
      (fun other hother => (hsuperclass other hother).mono hle) name.lexeme

/-! ## Steps -/

theorem has_applies {frame : Frame} {v callee : Value} {arguments : List Value}
    (h : frame.Applies v callee arguments) (hframe : L.HasFrame allowed frame)
    (hv : L.HasValue v) : L.HasValue callee ∧ ∀ u ∈ arguments, L.HasValue u := by
  cases h with
  | callee => exact ⟨hv, List.forall_mem_nil _⟩
  | argument => exact ⟨hframe.1, List.forall_mem_append.mpr ⟨hframe.2,
      List.forall_mem_singleton.mpr hv⟩⟩

/-- A step keeps to what is listed, and to what it allocates. -/
theorem move_fits (h : Move m m') (hstep : m.step = m') (hm : m.Fits L allowed) :
    FitsAfter L allowed m m' := by
  have hholds := hm.holds
  have hchain := hm.chain
  have hcontrol := hm.control
  have hframes := hm.frames
  cases h with
  | defers h =>
    obtain ⟨hnext, hframe⟩ := Layout.has_defers h hcontrol
    exact .same ⟨hholds, hchain, hnext, List.forall_mem_cons.mpr ⟨hframe, hframes⟩⟩
  | becomes h => exact .same ⟨hholds, hchain, Layout.has_becomes h, hframes⟩
  | passes h =>
    obtain ⟨hframe, hrest⟩ := List.forall_mem_cons.mp hframes
    obtain ⟨hnext, hmore⟩ := Layout.has_passes h hframe hcontrol
    exact .same ⟨hholds, hchain, hnext, List.forall_mem_append.mpr ⟨hmore, hrest⟩⟩
  | completes => exact .same ⟨hholds, hchain, trivial, hframes⟩
  | voids => exact .same ⟨hholds, hchain, trivial, hframes⟩
  | faults => exact .same ⟨hholds, hchain, trivial, hframes⟩
  | refuses =>
    exact .same ⟨hholds, hchain, trivial, (List.forall_mem_cons.mp hframes).2⟩
  | unwinds w f frame frames =>
    obtain ⟨hframe, hrest⟩ := List.forall_mem_cons.mp hframes
    cases frame with
    | block outer => exact .same ⟨hholds, hframe, trivial, hrest⟩
    | call caller closure => exact .same ⟨hholds, hframe.1, trivial, hrest⟩
    | _ => exact .same ⟨hholds, hchain, trivial, hrest⟩
  | reads hread hv => exact .same ⟨hholds, hchain, hholds.hasValue_read? hv, hframes⟩
  | writes hid =>
    exact .same ⟨hholds.bind hcontrol _ _, hchain, hcontrol, (List.forall_mem_cons.mp hframes).2⟩
  | @field w object name v frames hv =>
    exact .same ⟨hholds, hchain, hholds.stored object name.lexeme v hv,
      (List.forall_mem_cons.mp hframes).2⟩
  | method hfield hmethod =>
    refine fits_newMethod hholds hchain (List.forall_mem_cons.mp hframes).2 ?_ hcontrol
      (.property hfield hmethod)
    exact hholds.sound.hasFunction_method? (hholds.sound.origins _ _ hcontrol) hmethod
  | super hparts hmethod =>
    obtain ⟨hclass, hobject⟩ := hholds.has_superParts hparts
    exact fits_newMethod hholds hchain hframes (hholds.sound.hasFunction_method? hclass hmethod)
      hobject (.super hparts hmethod)
  | setsField w object name v frames =>
    exact .same ⟨hholds.setField hcontrol object name.lexeme, hchain, hcontrol,
      (List.forall_mem_cons.mp hframes).2⟩
  | prints => exact .same ⟨hholds, hchain, trivial, (List.forall_mem_cons.mp hframes).2⟩
  | declares w name frames =>
    have hnil : L.HasValue .nil := trivial
    exact .same ⟨hholds.define hnil w.chain name.lexeme, hchain, trivial, hframes⟩
  | defines w name v frames =>
    exact .same ⟨hholds.define hcontrol w.chain name.lexeme, hchain, trivial,
      (List.forall_mem_cons.mp hframes).2⟩
  | function w declaration frames =>
    have hclosure : L.HasFunction allowed ⟨declaration, w.chain, false⟩ :=
      ⟨hchain, (List.forall_mem_cons.mp hcontrol).2⟩
    obtain ⟨hstore, hvalue⟩ := hholds.newFunction hclosure
    have hle := L.le_withCallable (.function w.store.nextId ⟨declaration, w.chain, false⟩)
    exact .callable (.same ⟨hstore.define hvalue w.chain declaration.name.lexeme,
      hchain.mono hle, trivial, has_frames_mono hle hframes⟩)
  | root w name methods frames =>
    exact fits_declareClass hholds hchain hframes (List.forall_mem_cons.mp hcontrol).2
      (fun _ hparent => absurd hparent (Option.some_ne_none _).symm)
      (fun _ hparent => absurd hparent (Option.some_ne_none _).symm)
  | inherits w name parent methods superclass frames =>
    obtain ⟨hmethods, hrest⟩ := List.forall_mem_cons.mp hframes
    refine fits_declareClass hholds hchain hrest hmethods (fun other hother => ?_)
      (fun other hother => ?_)
    · cases hother
      exact hcontrol
    · cases hother
      exact .inheritance w frames name parent methods superclass
  | enters w body frames =>
    have hle := L.le_withScope w.chain.head?
    have hopens := Opens.block w frames body
    have hopened := hchain.opening
    have hnothing : ∀ x v, (Table.empty : Table Value).get? x = some v → L.HasValue v :=
      fun x v hv => absurd hv (Option.some_ne_none v).symm
    rw [← hholds.scopes] at hopens
    rw [hholds.scopes] at hopened
    exact .opening hopens (.same ⟨hholds.newScope hchain hnothing, hopened,
      (List.forall_mem_cons.mp hcontrol).2,
      List.forall_mem_cons.mpr ⟨hchain.mono hle, has_frames_mono hle hframes⟩⟩)
  | leaves w completion outer frames =>
    obtain ⟨houter, hrest⟩ := List.forall_mem_cons.mp hframes
    exact .same ⟨hholds, houter, hcontrol, hrest⟩
  | clock h => exact .same ⟨hholds, hchain, trivial, (List.forall_mem_cons.mp hframes).2⟩
  | @calls w v frame frames id closure arguments h =>
    obtain ⟨hframe, hrest⟩ := List.forall_mem_cons.mp hframes
    obtain ⟨hcallee, harguments⟩ := has_applies h hframe hcontrol
    exact fits_enterBody hholds hchain hrest (hholds.sound.functions id id closure hcallee).2
      harguments (.call (Nat.le_refl _) hstep)
  | @creates w v frame frames origin arguments h =>
    obtain ⟨hframe, hrest⟩ := List.forall_mem_cons.mp hframes
    have hclass : L.HasClass origin := (has_applies h hframe hcontrol).1
    have hle := L.le_withObject origin
    exact .object (.same ⟨hholds.newObject hclass, hchain.mono hle,
      hholds.hasObject_newObject origin, has_frames_mono hle hrest⟩)
  | @initializes w v frame frames origin method arguments h hmethod =>
    obtain ⟨hframe, hrest⟩ := List.forall_mem_cons.mp hframes
    obtain ⟨hclass, harguments⟩ := has_applies h hframe hcontrol
    exact fits_enterInitializer hholds hchain hrest hclass hmethod harguments (Nat.le_refl _) hstep
  | returns h =>
    obtain ⟨hframe, hrest⟩ := List.forall_mem_cons.mp hframes
    cases h with
    | initializer _ hv => exact .same ⟨hholds, hframe.1, hholds.hasValue_lookupAt? hv, hrest⟩
    | unbound => exact .same ⟨hholds, hframe.1, trivial, hrest⟩
    | returned => exact .same ⟨hholds, hframe.1, hcontrol, hrest⟩
    | normal => exact .same ⟨hholds, hframe.1, trivial, hrest⟩

end Machine

end LoxLang
