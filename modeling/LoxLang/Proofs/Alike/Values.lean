import LoxLang.Machine.Operation
import LoxLang.Machine.World
import LoxLang.Proofs.Alike.Survey
import LoxLang.Proofs.Machine.Scopes
import LoxLang.Proofs.Machine.Updates

/-!
Values and worlds that are taken for each other: closures over like code in the same scopes, classes
and objects with the same identities, scopes that bind the same names to like values in the same order,
and distances that agree for paired identities. Every operator has like results on like values, and
every action on a world leads from like worlds to like worlds.
-/
namespace LoxLang
set_option autoImplicit false

/-! ## Related options -/

section Options
variable {α β : Type} {R S : α → β → Prop} {a : Option α} {b : Option β}

theorem rel_imp (hRS : ∀ x y, R x y → S x y) (h : Option.Rel R a b) : Option.Rel S a b := by
  cases h with
  | none => exact .none
  | some hxy => exact .some (hRS _ _ hxy)

theorem rel_cases (h : Option.Rel R a b) :
    a = none ∧ b = none ∨ ∃ x y, a = some x ∧ b = some y ∧ R x y := by
  cases h with
  | none => exact .inl ⟨rfl, rfl⟩
  | some hxy => exact .inr ⟨_, _, rfl, rfl, hxy⟩

theorem rel_self {R : α → α → Prop} (h : ∀ x, a = some x → R x x) : Option.Rel R a a := by
  cases a with
  | none => exact .none
  | some x => exact .some (h x rfl)

end Options

/-! ## Tables -/

/-- The same names in the same order, with values that a relation relates. -/
def Table.Alike {α : Type} (R : α → α → Prop) (t t' : Table α) : Prop :=
  List.Forall₂ (fun entry entry' => entry'.1 = entry.1 ∧ R entry.2 entry'.2) t.entries t'.entries

namespace Table.Alike
variable {α : Type} {R S : α → α → Prop} {t t' : Table α}

theorem empty : Table.Alike R Table.empty Table.empty :=
  .nil

theorem mono (h : t.Alike R t') (hRS : ∀ a a', R a a' → S a a') : t.Alike S t' :=
  h.imp fun _ _ hentry => ⟨hentry.1, hRS _ _ hentry.2⟩

theorem get? (h : t.Alike R t') (name : String) : Option.Rel R (t.get? name) (t'.get? name) := by
  obtain ⟨entries⟩ := t
  obtain ⟨entries'⟩ := t'
  change Option.Rel R (find? name entries) (find? name entries')
  change List.Forall₂ _ entries entries' at h
  induction h with
  | nil => exact .none
  | @cons entry entry' _ _ hentry _ ih =>
    obtain ⟨key, value⟩ := entry
    obtain ⟨key', value'⟩ := entry'
    obtain ⟨rfl, hvalue⟩ : key' = key ∧ R value value' := hentry
    rw [find?, find?]
    split
    · exact .some hvalue
    · exact ih

theorem contains (h : t.Alike R t') (name : String) : t'.contains name = t.contains name := by
  unfold Table.contains
  obtain ⟨hnone, hnone'⟩ | ⟨v, v', hsome, hsome', -⟩ := rel_cases (h.get? name)
  · rw [hnone, hnone']
  · rw [hsome, hsome']
    rfl

theorem insert (h : t.Alike R t') (name : String) {value value' : α} (hvalue : R value value') :
    (t.insert name value).Alike R (t'.insert name value') := by
  obtain ⟨entries⟩ := t
  obtain ⟨entries'⟩ := t'
  change List.Forall₂ _ (put name value entries) (put name value' entries')
  change List.Forall₂ _ entries entries' at h
  induction h with
  | nil => exact .cons ⟨rfl, hvalue⟩ .nil
  | @cons entry entry' _ _ hentry hrest ih =>
    obtain ⟨key, old⟩ := entry
    obtain ⟨key', old'⟩ := entry'
    obtain ⟨rfl, hold⟩ : key' = key ∧ R old old' := hentry
    rw [put, put]
    split
    · exact .cons ⟨rfl, hvalue⟩ hrest
    · exact .cons ⟨rfl, hold⟩ ih

theorem ofList {pairs pairs' : List (String × α)}
    (h : List.Forall₂ (fun pair pair' => pair'.1 = pair.1 ∧ R pair.2 pair'.2) pairs pairs') :
    (Table.ofList pairs).Alike R (Table.ofList pairs') := by
  have hfold : ∀ {t t' : Table α}, t.Alike R t' →
      (pairs.foldl (fun t pair => t.insert pair.1 pair.2) t).Alike R
        (pairs'.foldl (fun t pair => t.insert pair.1 pair.2) t') := by
    induction h with
    | nil => exact id
    | @cons pair pair' _ _ hpair _ ih =>
      obtain ⟨name, value⟩ := pair
      obtain ⟨name', value'⟩ := pair'
      obtain ⟨rfl, hvalue⟩ : name' = name ∧ R value value' := hpair
      exact fun ht => ih (ht.insert name' hvalue)
  exact hfold .empty

end Table.Alike

/-! ## Values -/

/-- Like code in the same scopes. -/
structure Closure.Alike (L : Likeness) (c c' : Closure) : Prop where
  declaration : c.declaration.Alike L c'.declaration
  chain : c'.chain = c.chain
  isInitializer : c'.isInitializer = c.isInitializer

inductive ClassObject.Alike (L : Likeness) : ClassObject → ClassObject → Prop
  | root {id : Nat} {name : String} {methods methods' : Table Closure} :
    methods.Alike (Closure.Alike L) methods' →
    Alike L ⟨id, name, none, methods⟩ ⟨id, name, none, methods'⟩
  | derived {id : Nat} {name : String} {superclass superclass' : ClassObject}
    {methods methods' : Table Closure} : Alike L superclass superclass' →
    methods.Alike (Closure.Alike L) methods' →
    Alike L ⟨id, name, some superclass, methods⟩ ⟨id, name, some superclass', methods'⟩

inductive Callable.Alike (L : Likeness) : Callable → Callable → Prop
  | clock : Alike L .clock .clock
  | function {id : Nat} {closure closure' : Closure} : closure.Alike L closure' →
    Alike L (.function id closure) (.function id closure')
  | classObject {value value' : ClassObject} : value.Alike L value' →
    Alike L (.classObject value) (.classObject value')

/-- The same object of like classes. -/
structure ObjectRef.Alike (L : Likeness) (object object' : ObjectRef) : Prop where
  id : object'.id = object.id
  origin : object.origin.Alike L object'.origin

inductive Value.Alike (L : Likeness) : Value → Value → Prop
  | nil : Alike L .nil .nil
  | bool (value : Bool) : Alike L (.bool value) (.bool value)
  | number (value : Float) : Alike L (.number value) (.number value)
  | string (value : String) : Alike L (.string value) (.string value)
  | callable {value value' : Callable} : value.Alike L value' →
    Alike L (.callable value) (.callable value')
  | object {value value' : ObjectRef} : value.Alike L value' →
    Alike L (.object value) (.object value')

/-- The same cause at related tokens. -/
inductive RuntimeFault.Alike (L : Likeness) : RuntimeFault → RuntimeFault → Prop
  | intro {t u : Token} (cause : RuntimeCause) : L.token t u → Alike L (t.fault cause) (u.fault cause)

section Values
variable {L L' : Likeness}

theorem Value.ofLiteral_alike (value : Literal) :
    (Value.ofLiteral value).Alike L (Value.ofLiteral value) := by
  cases value with
  | number value => exact .number value
  | string value => exact .string value
  | bool value => exact .bool value
  | nil => exact .nil

theorem FunctionDeclaration.Alike.arity {d d' : FunctionDeclaration} (h : d.Alike L d') :
    d'.params.length = d.params.length := by
  cases h with
  | intro _ hparams _ => exact hparams.length_eq.symm

theorem FunctionDeclaration.Alike.name {d d' : FunctionDeclaration} (h : d.Alike L d') :
    L.token d.name d'.name := by
  cases h with
  | intro hname _ _ => exact hname

theorem ClassObject.Alike.id {c c' : ClassObject} (h : c.Alike L c') : c'.id = c.id := by
  cases h <;> rfl

theorem ClassObject.Alike.name {c c' : ClassObject} (h : c.Alike L c') : c'.name = c.name := by
  cases h <;> rfl

theorem ClassObject.Alike.method? {c c' : ClassObject} (h : c.Alike L c') (name : String) :
    Option.Rel (Closure.Alike L) (c.method? name) (c'.method? name) := by
  induction h with
  | root hmethods => exact hmethods.get? name
  | derived hsuperclass hmethods ih =>
    rw [ClassObject.method?, ClassObject.method?]
    obtain ⟨hnone, hnone'⟩ | ⟨method, method', hsome, hsome', hmethod⟩ :=
      rel_cases (hmethods.get? name)
    · rw [hnone, hnone']
      exact ih
    · rw [hsome, hsome']
      exact .some hmethod

theorem ClassObject.Alike.arity {c c' : ClassObject} (h : c.Alike L c') : c'.arity = c.arity := by
  unfold ClassObject.arity
  obtain ⟨hnone, hnone'⟩ | ⟨init, init', hsome, hsome', hclosure⟩ :=
    rel_cases (h.method? initializerName)
  · rw [hnone, hnone']
  · rw [hsome, hsome']
    exact hclosure.declaration.arity

theorem Callable.Alike.arity {c c' : Callable} (h : c.Alike L c') : c'.arity = c.arity := by
  cases h with
  | clock => rfl
  | function hclosure => exact hclosure.declaration.arity
  | classObject hclass => exact hclass.arity

theorem Callable.Alike.text {c c' : Callable} (h : c.Alike L c') : c'.text = c.text := by
  cases h with
  | clock => rfl
  | function hclosure =>
    rw [Callable.text, Callable.text, L.lexeme hclosure.declaration.name]
  | classObject hclass => exact hclass.name

theorem Callable.Alike.same {c c' d d' : Callable} (hc : c.Alike L c') (hd : d.Alike L d') :
    c'.same d' = c.same d := by
  cases hc <;> cases hd
  case classObject.classObject hc _ _ hd => rw [Callable.same, Callable.same, hc.id, hd.id]
  all_goals rfl

theorem Value.Alike.isTruthy {v v' : Value} (h : v.Alike L v') : v'.isTruthy = v.isTruthy := by
  cases h <;> rfl

theorem Value.Alike.equals {v v' u u' : Value} (hv : v.Alike L v') (hu : u.Alike L u') :
    v'.equals u' = v.equals u := by
  cases hv <;> cases hu
  case callable.callable hv _ _ hu => exact hv.same hu
  case object.object hv _ _ hu => rw [Value.equals, Value.equals, hv.id, hu.id]
  all_goals rfl

theorem Value.Alike.text {v v' : Value} (h : v.Alike L v') : v'.text = v.text := by
  cases h with
  | callable hcallable => exact hcallable.text
  | object hobject => rw [Value.text, Value.text, hobject.origin.name]
  | _ => rfl

/-! ## Another likeness -/

theorem Closure.Alike.mono {c c' : Closure} (hle : L.Le L') (h : c.Alike L c') : c.Alike L' c' :=
  ⟨h.declaration.mono hle, h.chain, h.isInitializer⟩

theorem ClassObject.Alike.mono {c c' : ClassObject} (hle : L.Le L') (h : c.Alike L c') :
    c.Alike L' c' := by
  induction h with
  | root hmethods => exact .root (hmethods.mono fun _ _ => Closure.Alike.mono hle)
  | derived _ hmethods ih => exact .derived ih (hmethods.mono fun _ _ => Closure.Alike.mono hle)

theorem Value.Alike.mono {v v' : Value} (hle : L.Le L') (h : v.Alike L v') : v.Alike L' v' := by
  cases h with
  | nil => exact .nil
  | bool value => exact .bool value
  | number value => exact .number value
  | string value => exact .string value
  | callable hcallable =>
    cases hcallable with
    | clock => exact .callable .clock
    | function hclosure => exact .callable (.function (hclosure.mono hle))
    | classObject hclass => exact .callable (.classObject (hclass.mono hle))
  | object hobject => exact .object ⟨hobject.id, hobject.origin.mono hle⟩

/-! ## Operators -/

inductive ResultAlike (L : Likeness) : Except RuntimeFault Value → Except RuntimeFault Value → Prop
  | ok {v v' : Value} : v.Alike L v' → ResultAlike L (.ok v) (.ok v')
  | error {f f' : RuntimeFault} : f.Alike L f' → ResultAlike L (.error f) (.error f')

theorem applyUnary_alike {operator operator' : Token} {v v' : Value}
    (hoperator : L.token operator operator') (hv : v.Alike L v') :
    ResultAlike L (applyUnary operator v) (applyUnary operator' v') := by
  unfold applyUnary
  rw [L.kind hoperator]
  split
  · cases hv with
    | number value => exact .ok (.number _)
    | _ => exact .error (.intro _ hoperator)
  · rw [hv.isTruthy]
    exact .ok (.bool _)

theorem applyNumeric_alike (kind : TokenKind) (left right : Float) :
    (applyNumeric kind left right).Alike L (applyNumeric kind left right) := by
  unfold applyNumeric
  split
  · exact .number _
  · exact .number _
  · exact .number _
  all_goals exact .bool _

theorem applyBinary_alike {operator operator' : Token} {left left' right right' : Value}
    (hoperator : L.token operator operator') (hleft : left.Alike L left')
    (hright : right.Alike L right') :
    ResultAlike L (applyBinary operator left right) (applyBinary operator' left' right') := by
  unfold applyBinary
  rw [L.kind hoperator, hleft.equals hright]
  split
  · exact .ok (.bool _)
  · exact .ok (.bool _)
  · cases hleft <;> cases hright
    case number.number => exact .ok (.number _)
    case string.string => exact .ok (.string _)
    all_goals exact .error (.intro _ hoperator)
  · cases hleft <;> cases hright
    case number.number => exact .ok (applyNumeric_alike _ _ _)
    all_goals exact .error (.intro _ hoperator)

theorem decidesLogical_alike {operator operator' : Token} {v v' : Value}
    (hoperator : L.token operator operator') (hv : v.Alike L v') :
    decidesLogical operator' v' = decidesLogical operator v := by
  unfold decidesLogical
  rw [Token.isKeyword, L.kind hoperator, hv.isTruthy, Token.isKeyword]

end Values

/-! ## Stores -/

/-- Scopes and objects with the same identities and like contents. -/
structure Store.Alike (L : Likeness) (s s' : Store) : Prop where
  scopeCount : s'.scopes.size = s.scopes.size
  scopes : ∀ id, (s.scope id).Alike (Value.Alike L) (s'.scope id)
  objectCount : s'.fields.size = s.fields.size
  fields : ∀ {object object' : ObjectRef}, object'.id = object.id →
    (s.fieldsOf object).Alike (Value.Alike L) (s'.fieldsOf object')
  nextId : s'.nextId = s.nextId

namespace Store.Alike
variable {L L' : Likeness} {s s' : Store}

theorem mono (hle : L.Le L') (h : s.Alike L s') : s.Alike L' s' :=
  ⟨h.scopeCount, fun id => (h.scopes id).mono fun _ _ => Value.Alike.mono hle, h.objectCount,
    fun hid => (h.fields hid).mono fun _ _ => Value.Alike.mono hle, h.nextId⟩

theorem ofGlobals {globals globals' : Table Value} (h : globals.Alike (Value.Alike L) globals') :
    (Store.ofGlobals globals).Alike L (.ofGlobals globals') := by
  refine ⟨rfl, fun id => ?_, rfl, fun _ => .empty, rfl⟩
  cases id with
  | zero => exact h
  | succ id => exact .empty

theorem bind (h : s.Alike L s') (id : ScopeId) (name : String) {v v' : Value}
    (hv : v.Alike L v') : (s.bind id name v).Alike L (s'.bind id name v') := by
  refine ⟨?_, fun other => ?_, h.objectCount, h.fields, h.nextId⟩
  · rw [size_bind, size_bind, h.scopeCount]
  · rw [scope_bind, scope_bind, h.scopeCount]
    split
    · exact (h.scopes other).insert name hv
    · exact h.scopes other

theorem define (h : s.Alike L s') (chain : Chain) (name : String) {v v' : Value}
    (hv : v.Alike L v') : (s.define chain name v).Alike L (s'.define chain name v') := by
  cases chain with
  | nil => exact h
  | cons id outer => exact h.bind id name hv

theorem newScope (h : s.Alike L s') {bindings bindings' : Table Value}
    (hbindings : bindings.Alike (Value.Alike L) bindings') :
    (s.newScope bindings).2.Alike L (s'.newScope bindings').2 := by
  refine ⟨?_, fun id => ?_, h.objectCount, h.fields, h.nextId⟩
  · rw [size_newScope, size_newScope, h.scopeCount]
  · rw [scope_newScope, scope_newScope, h.scopeCount]
    split
    · exact hbindings
    · exact h.scopes id

theorem binds (h : s.Alike L s') (id : ScopeId) (name : String) :
    s'.binds id name = s.binds id name :=
  (h.scopes id).contains name

theorem binder? (h : s.Alike L s') (name : String) (chain : Chain) :
    s'.binder? name chain = s.binder? name chain := by
  induction chain with
  | nil => rfl
  | cons id outer ih => rw [Store.binder?, Store.binder?, h.binds, ih]

theorem binderAt? (h : s.Alike L s') (chain : Chain) (distance : Nat) (name : String) :
    s'.binderAt? chain distance name = s.binderAt? chain distance name := by
  unfold Store.binderAt?
  split
  · rw [h.binds]
  · rfl

theorem valueIn? (h : s.Alike L s') (binder : Option ScopeId) (name : String) :
    Option.Rel (Value.Alike L) (s.valueIn? binder name) (s'.valueIn? binder name) := by
  cases binder with
  | none => exact .none
  | some id => exact (h.scopes id).get? name

theorem lookupAt? (h : s.Alike L s') (chain : Chain) (distance : Nat) (name : String) :
    Option.Rel (Value.Alike L) (s.lookupAt? chain distance name)
      (s'.lookupAt? chain distance name) := by
  unfold Store.lookupAt?
  rw [h.binderAt?]
  exact h.valueIn? _ name

theorem newIdentity (h : s.Alike L s') : s.newIdentity.2.Alike L s'.newIdentity.2 :=
  ⟨h.scopeCount, h.scopes, h.objectCount, h.fields, congrArg (· + 1) h.nextId⟩

theorem newFunction (h : s.Alike L s') {c c' : Closure} (hc : c.Alike L c') :
    (s.newFunction c).1.Alike L (s'.newFunction c').1 ∧
      (s.newFunction c).2.Alike L (s'.newFunction c').2 := by
  refine ⟨?_, h.newIdentity⟩
  unfold Store.newFunction Store.newIdentity
  dsimp only
  rw [h.nextId]
  exact .callable (.function hc)

theorem bindMethod (h : s.Alike L s') {c c' : Closure} (hc : c.Alike L c')
    {object object' : ObjectRef} (hobject : object.Alike L object') :
    (s.bindMethod c object).1.Alike L (s'.bindMethod c' object').1 ∧
      (s.bindMethod c object).2.Alike L (s'.bindMethod c' object').2 := by
  refine ⟨⟨hc.declaration, ?_, hc.isInitializer⟩, ?_⟩
  · simp only [Store.bindMethod, newScope_fst, h.scopeCount, hc.chain]
  · exact h.newScope (Table.Alike.empty.insert _ (.object hobject))

theorem newMethod (h : s.Alike L s') {c c' : Closure} (hc : c.Alike L c')
    {object object' : ObjectRef} (hobject : object.Alike L object') :
    (s.newMethod c object).1.Alike L (s'.newMethod c' object').1 ∧
      (s.newMethod c object).2.Alike L (s'.newMethod c' object').2 := by
  obtain ⟨hclosure, hstore⟩ := h.bindMethod hc hobject
  exact hstore.newFunction hclosure

theorem newObject (h : s.Alike L s') {origin origin' : ClassObject}
    (horigin : origin.Alike L origin') :
    (s.newObject origin).1.Alike L (s'.newObject origin').1 ∧
      (s.newObject origin).2.Alike L (s'.newObject origin').2 := by
  refine ⟨⟨h.objectCount, horigin⟩, h.scopeCount, h.scopes, ?_, ?_, h.nextId⟩
  · simp only [Store.newObject, Array.size_push, h.objectCount]
  · intro object object' hid
    rw [fieldsOf_newObject, fieldsOf_newObject, hid, h.objectCount]
    split
    · exact .empty
    · exact h.fields hid

theorem setField (h : s.Alike L s') {object object' : ObjectRef}
    (hobject : object.Alike L object') (name : String) {v v' : Value} (hv : v.Alike L v') :
    (s.setField object name v).Alike L (s'.setField object' name v') := by
  refine ⟨h.scopeCount, h.scopes, ?_, ?_, h.nextId⟩
  · simp only [Store.setField, Array.size_modify, h.objectCount]
  · intro other other' hid
    rw [fieldsOf_setField, fieldsOf_setField, hobject.id, hid, h.objectCount]
    split
    · exact (h.fields hid).insert name hv
    · exact h.fields hid

theorem property? (h : s.Alike L s') {object object' : ObjectRef}
    (hobject : object.Alike L object') (name : String) :
    Option.Rel (Value.Alike L) (s.property? object name).1 (s'.property? object' name).1 ∧
      (s.property? object name).2.Alike L (s'.property? object' name).2 := by
  unfold Store.property?
  obtain ⟨hnone, hnone'⟩ | ⟨v, v', hsome, hsome', hv⟩ :=
    rel_cases ((h.fields hobject.id).get? name)
  · rw [hnone, hnone']
    obtain ⟨hnone, hnone'⟩ | ⟨method, method', hsome, hsome', hclosure⟩ :=
      rel_cases (hobject.origin.method? name)
    · rw [hnone, hnone']
      exact ⟨.none, h⟩
    · rw [hsome, hsome']
      obtain ⟨hv, hstore⟩ := h.newMethod hclosure hobject
      exact ⟨.some hv, hstore⟩
  · rw [hsome, hsome']
    exact ⟨.some hv, h⟩

end Store.Alike

/-! ## Distances -/

/-- Paired identities have the same distance. -/
def Distances.Alike (L : Likeness) (d d' : Distances) : Prop :=
  ∀ r r' : Reference, L.number r.id r'.id → d'.get? r' = d.get? r

theorem Distances.Alike.record {L : Likeness} {d d' : Distances} (h : d.Alike L d')
    {found found' : List DistanceEntry} (hfound : List.Forall₂ (DistanceEntry.Alike L) found found') :
    (d.record found).Alike L (d'.record found') := by
  unfold Distances.record
  induction hfound generalizing d d' with
  | nil => exact h
  | cons hentry _ ih =>
    refine ih fun r r' hr => ?_
    rw [get?_insert, get?_insert, hentry.distance, h r r' hr]
    simp only [L.unique hentry.number hr]

/-- Distances agree with themselves where identities are paired with themselves. -/
theorem Distances.alike_self {L : Likeness} (hnumber : ∀ i j, L.number i j → j = i)
    (d : Distances) : d.Alike L d := by
  intro r r' hr
  rw [Distances.get?, Distances.get?, hnumber _ _ hr]

/-! ## Worlds -/

/-- Worlds in which a program goes on alike. -/
structure World.Alike (L : Likeness) (w w' : World) : Prop where
  store : w.store.Alike L w'.store
  chain : w'.chain = w.chain
  depth : w'.depth = w.depth
  distances : w.distances.Alike L w'.distances
  sink : w'.sink = w.sink
  clock : w'.clock = w.clock

namespace World.Alike
variable {L L' : Likeness} {w w' : World}

theorem fresh (sink : Sink) (clock : Clock) :
    (World.fresh sink clock).Alike L (.fresh sink clock) :=
  ⟨.ofGlobals (Table.Alike.empty.insert _ (.callable .clock)), rfl, rfl,
    fun _ _ _ => by rw [World.fresh, Distances.get?_empty, Distances.get?_empty], rfl, rfl⟩

/-- Worlds stay alike under a likeness that relates more, if it pairs no other distances. -/
theorem mono (hle : L.Le L') (hdistances : w.distances.Alike L' w'.distances) (h : w.Alike L w') :
    w.Alike L' w' :=
  ⟨h.store.mono hle, h.chain, h.depth, hdistances, h.sink, h.clock⟩

theorem withStore (h : w.Alike L w') {s s' : Store} (hs : s.Alike L s') :
    World.Alike L { w with store := s } { w' with store := s' } :=
  ⟨hs, h.chain, h.depth, h.distances, h.sink, h.clock⟩

theorem withChain (h : w.Alike L w') (chain : Chain) :
    (w.withChain chain).Alike L (w'.withChain chain) :=
  ⟨h.store, rfl, h.depth, h.distances, h.sink, h.clock⟩

theorem define (h : w.Alike L w') {name name' : Token} (hname : L.token name name') {v v' : Value}
    (hv : v.Alike L v') : (w.define name.lexeme v).Alike L (w'.define name'.lexeme v') := by
  have hstore : (w.store.define w.chain name.lexeme v).Alike L
      (w'.store.define w'.chain name'.lexeme v') := by
    rw [h.chain, L.lexeme hname]
    exact h.store.define w.chain name.lexeme hv
  exact h.withStore hstore

theorem enterScope (h : w.Alike L w') (outer : Chain) {bindings bindings' : Table Value}
    (hbindings : bindings.Alike (Value.Alike L) bindings') :
    (w.enterScope outer bindings).Alike L (w'.enterScope outer bindings') := by
  refine ⟨h.store.newScope hbindings, ?_, h.depth, h.distances, h.sink, h.clock⟩
  rw [World.enterScope_eq, World.enterScope_eq, h.store.scopeCount]

theorem leaveCall (h : w.Alike L w') (caller : Chain) :
    (w.leaveCall caller).Alike L (w'.leaveCall caller) :=
  ⟨h.store, rfl, congrArg (· - 1) h.depth, h.distances, h.sink, h.clock⟩

theorem bind (h : w.Alike L w') (id : ScopeId) (name : String) {v v' : Value} (hv : v.Alike L v') :
    (w.bind id name v).Alike L (w'.bind id name v') :=
  h.withStore (h.store.bind id name hv)

theorem print (h : w.Alike L w') (line : String) : (w.print line).Alike L (w'.print line) :=
  ⟨h.store, h.chain, h.depth, h.distances, congrArg (·.print line) h.sink, h.clock⟩

theorem readClock (h : w.Alike L w') :
    w'.readClock.1 = w.readClock.1 ∧ w.readClock.2.Alike L w'.readClock.2 := by
  refine ⟨?_, h.store, h.chain, h.depth, h.distances, h.sink, ?_⟩
  · rw [World.readClock_fst, World.readClock_fst, h.clock]
  · rw [World.readClock_snd, World.readClock_snd, h.clock]

theorem record (h : w.Alike L w') {found found' : List DistanceEntry}
    (hfound : List.Forall₂ (DistanceEntry.Alike L) found found') :
    (w.record found).Alike L (w'.record found') :=
  ⟨h.store, h.chain, h.depth, h.distances.record hfound, h.sink, h.clock⟩

theorem binder? (h : w.Alike L w') {target target' : Reference} (htarget : target.Alike L target') :
    w'.binder? target' = w.binder? target := by
  unfold World.binder?
  rw [h.distances target target' htarget.number, L.lexeme htarget.name, h.chain]
  split
  · exact h.store.binderAt? _ _ _
  · exact h.store.binder? _ _

theorem read? (h : w.Alike L w') {target target' : Reference} (htarget : target.Alike L target') :
    Option.Rel (Value.Alike L) (w.read? target) (w'.read? target') := by
  unfold World.read?
  rw [h.binder? htarget, L.lexeme htarget.name]
  exact h.store.valueIn? _ _

end World.Alike

end LoxLang
