import LoxLang.Machine.Operation
import LoxLang.Machine.World
import LoxLang.Proofs.Alike.Values
import LoxLang.Proofs.Machine.Scopes
import LoxLang.Proofs.Machine.Updates
import LoxLang.Proofs.Renaming.Trees

/-!
Worlds in which some scopes have another name for a variable. Every scope of a store is marked or not, as
the scopes of the text are, and a scope that is opened gets the mark of its text; so the marks only become
more (`M <+: M'`), and what refers to scopes keeps its marks. A marked scope has under the new name what it
has under the old one before, and a reference that the renaming leaves or changes finds the same
(`World.Renamed.read?`).
-/
namespace LoxLang
set_option autoImplicit false

/-! ## Tables -/

/-- Under the names of a scope a table holds values before, and related ones after. -/
def Table.Renamed {α : Type} (ρ : Renaming) (marked : Bool) (R : α → α → Prop) (t t' : Table α) :
    Prop :=
  ∀ x, ρ.Avoids marked x → Option.Rel R (t.get? x) (t'.get? (ρ.name marked x))

namespace Table.Renamed
variable {α : Type} {ρ : Renaming} {marked : Bool} {R S : α → α → Prop} {t t' : Table α}

theorem empty : Table.Renamed ρ marked R Table.empty Table.empty :=
  fun _ _ => .none

theorem mono (h : t.Renamed ρ marked R t') (hRS : ∀ a a', R a a' → S a a') :
    t.Renamed ρ marked S t' :=
  fun x hx => rel_imp hRS (h x hx)

theorem insert (h : t.Renamed ρ marked R t') {x : String} (hx : ρ.Avoids marked x) {v v' : α}
    (hv : R v v') : (t.insert x v).Renamed ρ marked R (t'.insert (ρ.name marked x) v') := by
  intro y hy
  rw [Table.get?_insert, Table.get?_insert]
  by_cases hname : x = y
  · rw [if_pos hname, if_pos (congrArg _ hname)]
    exact .some hv
  · rw [if_neg hname, if_neg (mt (ρ.name_inj hx hy).mp hname)]
    exact h y hy

/-- Where nothing is renamed, both tables have related values for each name. -/
theorem get? (h : t.Renamed ρ false R t') (x : String) : Option.Rel R (t.get? x) (t'.get? x) := by
  have hfound := h x (ρ.avoids_false x)
  rwa [ρ.name_false] at hfound

theorem insert_unmarked (h : t.Renamed ρ false R t') (x : String) {v v' : α} (hv : R v v') :
    (t.insert x v).Renamed ρ false R (t'.insert x v') := by
  have hinserted := h.insert (ρ.avoids_false x) hv
  rwa [ρ.name_false] at hinserted

theorem contains (h : t.Renamed ρ marked R t') {x : String} (hx : ρ.Avoids marked x) :
    t'.contains (ρ.name marked x) = t.contains x := by
  unfold Table.contains
  obtain ⟨hnone, hnone'⟩ | ⟨v, v', hsome, hsome', -⟩ := rel_cases (h x hx)
  · rw [hnone, hnone']
  · rw [hsome, hsome']
    rfl

/-- Entries under the names before and after. -/
structure Entry (ρ : Renaming) (marked : Bool) (R : α → α → Prop) (entry entry' : String × α) :
    Prop where
  name : entry'.1 = ρ.name marked entry.1
  avoids : ρ.Avoids marked entry.1
  value : R entry.2 entry'.2

theorem ofList {entries entries' : List (String × α)}
    (h : List.Forall₂ (Entry ρ marked R) entries entries') :
    (Table.ofList entries).Renamed ρ marked R (Table.ofList entries') := by
  have hfold : ∀ {t t' : Table α}, t.Renamed ρ marked R t' →
      (entries.foldl (fun t entry => t.insert entry.1 entry.2) t).Renamed ρ marked R
        (entries'.foldl (fun t entry => t.insert entry.1 entry.2) t') := by
    induction h with
    | nil => exact id
    | @cons entry entry' _ _ hentry _ ih =>
      intro t t' ht
      obtain ⟨x, v⟩ := entry
      obtain ⟨x', v'⟩ := entry'
      obtain rfl : x' = ρ.name marked x := hentry.name
      exact ih (ht.insert hentry.avoids hentry.value)
  exact hfold empty

theorem zip {names names' : List Token} (hnames : List.Forall₂ (Token.Renamed ρ marked) names names')
    {values values' : List α} (hvalues : List.Forall₂ R values values') :
    List.Forall₂ (Entry ρ marked R) ((names.map Token.lexeme).zip values)
      ((names'.map Token.lexeme).zip values') := by
  induction hnames generalizing values values' with
  | nil => exact .nil
  | cons hname _ ih =>
    -- There may be fewer values than names: the arity is checked elsewhere.
    cases hvalues with
    | nil => exact .nil
    | cons hv hrest => exact .cons ⟨hname.lexeme, hname.avoids, hv⟩ (ih hrest)

end Table.Renamed

/-! ## Chains -/

/-- The marks of the scopes of a chain, where `M` has those of all scopes by identity. -/
def Chain.Marked (M : Marks) (chain : Chain) (marks : Marks) : Prop :=
  List.Forall₂ (fun id marked => M[id]? = some marked) chain marks

namespace Chain.Marked
variable {M M' : Marks} {chain : Chain} {marks : Marks}

theorem mono (hle : M <+: M') (h : chain.Marked M marks) : chain.Marked M' marks := by
  obtain ⟨more, rfl⟩ := hle
  refine h.imp fun id marked hmark => ?_
  rwa [List.getElem?_append_left (List.getElem?_eq_some_iff.mp hmark).1]

/-- A new scope inside a chain. -/
theorem opening (h : chain.Marked M marks) (marked : Bool) :
    Chain.Marked (M ++ [marked]) (M.length :: chain) (marked :: marks) :=
  .cons List.getElem?_concat_length (h.mono (List.prefix_append M [marked]))

theorem at? (h : chain.Marked M marks) {distance : Nat} {id : ScopeId}
    (hid : chain[distance]? = some id) : M[id]? = some (marks.at? (some distance)) := by
  induction h generalizing distance with
  | nil => cases hid
  | cons hmark _ ih =>
    cases distance with
    | zero =>
      cases hid
      exact hmark
    | succ distance => exact ih hid

end Chain.Marked

/-! ## Values -/

/-- Renamed code in the same scopes; `inner` has the marks of what is still to be opened around the body
when the code is called: a method has no scope for `this` before it is bound. -/
structure Closure.Renamed (ρ : Renaming) (M inner : Marks) (c c' : Closure) : Prop where
  declared : ∃ marks, c.chain.Marked M marks ∧ c.declaration.Renamed ρ (inner ++ marks) c'.declaration
  chain : c'.chain = c.chain
  isInitializer : c'.isInitializer = c.isInitializer

/-- The same class, with methods whose code is renamed. -/
structure ClassObject.Renamed (ρ : Renaming) (M : Marks) (c c' : ClassObject) : Prop where
  id : c'.id = c.id
  name : c'.name = c.name
  method? : ∀ name, Option.Rel (Closure.Renamed ρ M [false]) (c.method? name) (c'.method? name)

inductive Callable.Renamed (ρ : Renaming) (M : Marks) : Callable → Callable → Prop
  | clock : Renamed ρ M .clock .clock
  | function (id : Nat) {closure closure' : Closure} : closure.Renamed ρ M [] closure' →
    Renamed ρ M (.function id closure) (.function id closure')
  | classObject {value value' : ClassObject} : value.Renamed ρ M value' →
    Renamed ρ M (.classObject value) (.classObject value')

structure ObjectRef.Renamed (ρ : Renaming) (M : Marks) (object object' : ObjectRef) : Prop where
  id : object'.id = object.id
  origin : object.origin.Renamed ρ M object'.origin

inductive Value.Renamed (ρ : Renaming) (M : Marks) : Value → Value → Prop
  | nil : Renamed ρ M .nil .nil
  | bool (value : Bool) : Renamed ρ M (.bool value) (.bool value)
  | number (value : Float) : Renamed ρ M (.number value) (.number value)
  | string (value : String) : Renamed ρ M (.string value) (.string value)
  | callable {value value' : Callable} : value.Renamed ρ M value' →
    Renamed ρ M (.callable value) (.callable value')
  | object {value value' : ObjectRef} : value.Renamed ρ M value' →
    Renamed ρ M (.object value) (.object value')

/-- The same fault, but for the name of a variable that is not there. -/
structure RuntimeFault.Renamed (ρ : Renaming) (f f' : RuntimeFault) : Prop where
  line : f'.line = f.line
  cause : f'.cause = f.cause ∨
    f.cause = .undefinedVariable ρ.old ∧ f'.cause = .undefinedVariable ρ.new

theorem RuntimeFault.Renamed.same {ρ : Renaming} (f : RuntimeFault) : f.Renamed ρ f :=
  ⟨rfl, .inl rfl⟩

section Values
variable {ρ : Renaming} {M M' inner : Marks}

theorem Value.renamed_of_plain {v : Value} (h : v.Plain) : v.Renamed ρ M v := by
  cases v with
  | nil => exact .nil
  | bool value => exact .bool value
  | number value => exact .number value
  | string value => exact .string value
  | callable value => exact h.elim
  | object value => exact h.elim

theorem Closure.Renamed.arity {c c' : Closure} (h : c.Renamed ρ M inner c') : c'.arity = c.arity := by
  obtain ⟨marks, -, hdeclaration⟩ := h.declared
  exact hdeclaration.arity

theorem Closure.Renamed.name {c c' : Closure} (h : c.Renamed ρ M inner c') :
    c'.declaration.name = c.declaration.name := by
  obtain ⟨marks, -, hdeclaration⟩ := h.declared
  exact hdeclaration.name

theorem ClassObject.Renamed.arity {c c' : ClassObject} (h : c.Renamed ρ M c') : c'.arity = c.arity := by
  unfold ClassObject.arity
  obtain ⟨hnone, hnone'⟩ | ⟨init, init', hsome, hsome', hclosure⟩ :=
    rel_cases (h.method? initializerName)
  · rw [hnone, hnone']
  · rw [hsome, hsome']
    exact hclosure.arity

theorem Callable.Renamed.arity {c c' : Callable} (h : c.Renamed ρ M c') : c'.arity = c.arity := by
  cases h with
  | clock => rfl
  | function id hclosure => exact hclosure.arity
  | classObject hclass => exact hclass.arity

theorem Callable.Renamed.text {c c' : Callable} (h : c.Renamed ρ M c') : c'.text = c.text := by
  cases h with
  | clock => rfl
  | function id hclosure => rw [Callable.text, Callable.text, hclosure.name]
  | classObject hclass => exact hclass.name

theorem Callable.Renamed.same {c c' d d' : Callable} (hc : c.Renamed ρ M c') (hd : d.Renamed ρ M d') :
    c'.same d' = c.same d := by
  cases hc <;> cases hd
  case classObject.classObject hc _ _ hd => rw [Callable.same, Callable.same, hc.id, hd.id]
  all_goals rfl

theorem Value.Renamed.isTruthy {v v' : Value} (h : v.Renamed ρ M v') : v'.isTruthy = v.isTruthy := by
  cases h <;> rfl

theorem Value.Renamed.equals {v v' u u' : Value} (hv : v.Renamed ρ M v') (hu : u.Renamed ρ M u') :
    v'.equals u' = v.equals u := by
  cases hv <;> cases hu
  case callable.callable hv _ _ hu => exact hv.same hu
  case object.object hv _ _ hu => rw [Value.equals, Value.equals, hv.id, hu.id]
  all_goals rfl

theorem Value.Renamed.text {v v' : Value} (h : v.Renamed ρ M v') : v'.text = v.text := by
  cases h with
  | callable hcallable => exact hcallable.text
  | object hobject => rw [Value.text, Value.text, hobject.origin.name]
  | _ => rfl

/-! ## More scopes -/

theorem Closure.Renamed.mono (hle : M <+: M') {c c' : Closure} (h : c.Renamed ρ M inner c') :
    c.Renamed ρ M' inner c' := by
  obtain ⟨marks, hmarked, hdeclaration⟩ := h.declared
  exact ⟨⟨marks, hmarked.mono hle, hdeclaration⟩, h.chain, h.isInitializer⟩

theorem ClassObject.Renamed.mono (hle : M <+: M') {c c' : ClassObject} (h : c.Renamed ρ M c') :
    c.Renamed ρ M' c' :=
  ⟨h.id, h.name, fun name => rel_imp (fun _ _ hclosure => hclosure.mono hle) (h.method? name)⟩

theorem Value.Renamed.mono (hle : M <+: M') {v v' : Value} (h : v.Renamed ρ M v') :
    v.Renamed ρ M' v' := by
  cases h with
  | nil => exact .nil
  | bool value => exact .bool value
  | number value => exact .number value
  | string value => exact .string value
  | callable hcallable =>
    cases hcallable with
    | clock => exact .callable .clock
    | function id hclosure => exact .callable (.function id (hclosure.mono hle))
    | classObject hclass => exact .callable (.classObject (hclass.mono hle))
  | object hobject => exact .object ⟨hobject.id, hobject.origin.mono hle⟩

/-! ## Operators -/

inductive ResultRenamed (ρ : Renaming) (M : Marks) :
    Except RuntimeFault Value → Except RuntimeFault Value → Prop
  | ok {v v' : Value} : v.Renamed ρ M v' → ResultRenamed ρ M (.ok v) (.ok v')
  | error (f : RuntimeFault) : ResultRenamed ρ M (.error f) (.error f)

theorem applyUnary_renamed (operator : Token) {v v' : Value} (hv : v.Renamed ρ M v') :
    ResultRenamed ρ M (applyUnary operator v) (applyUnary operator v') := by
  unfold applyUnary
  split
  · cases hv with
    | number value => exact .ok (.number _)
    | _ => exact .error _
  · rw [hv.isTruthy]
    exact .ok (.bool _)

theorem applyBinary_renamed (operator : Token) {left left' right right' : Value}
    (hleft : left.Renamed ρ M left') (hright : right.Renamed ρ M right') :
    ResultRenamed ρ M (applyBinary operator left right) (applyBinary operator left' right') := by
  unfold applyBinary
  rw [hleft.equals hright]
  split
  · exact .ok (.bool _)
  · exact .ok (.bool _)
  · cases hleft <;> cases hright
    case number.number => exact .ok (.number _)
    case string.string => exact .ok (.string _)
    all_goals exact .error _
  · cases hleft <;> cases hright
    case number.number => exact .ok (Value.renamed_of_plain (plain_applyNumeric _ _ _))
    all_goals exact .error _

theorem decidesLogical_renamed (operator : Token) {v v' : Value} (hv : v.Renamed ρ M v') :
    decidesLogical operator v' = decidesLogical operator v := by
  unfold decidesLogical
  rw [hv.isTruthy]

end Values

/-! ## Stores -/

/-- Scopes and objects with the same identities and renamed contents; the global scope is not marked. -/
structure Store.Renamed (ρ : Renaming) (M : Marks) (s s' : Store) : Prop where
  size : s.scopes.size = M.length
  size' : s'.scopes.size = M.length
  globals : M[0]? = some false
  scopes : ∀ (id : ScopeId) (marked : Bool), M[id]? = some marked →
    (s.scope id).Renamed ρ marked (Value.Renamed ρ M) (s'.scope id)
  objectCount : s'.fields.size = s.fields.size
  fields : ∀ {object object' : ObjectRef}, object'.id = object.id →
    (s.fieldsOf object).Renamed ρ false (Value.Renamed ρ M) (s'.fieldsOf object')
  nextId : s'.nextId = s.nextId

namespace Store.Renamed
variable {ρ : Renaming} {M : Marks} {s s' : Store}

theorem bind (h : s.Renamed ρ M s') {id : ScopeId} {marked : Bool} (hid : M[id]? = some marked)
    {x : String} (hx : ρ.Avoids marked x) {v v' : Value} (hv : v.Renamed ρ M v') :
    (s.bind id x v).Renamed ρ M (s'.bind id (ρ.name marked x) v') := by
  refine ⟨(s.size_bind id x v).trans h.size, (s'.size_bind id _ v').trans h.size', h.globals,
    fun other marked' hother => ?_, h.objectCount, h.fields, h.nextId⟩
  rw [scope_bind, scope_bind, h.size, h.size']
  split
  · rename_i heq
    obtain ⟨rfl, -⟩ := heq
    cases hid.symm.trans hother
    exact (h.scopes id marked hid).insert hx hv
  · exact h.scopes other marked' hother

theorem define (h : s.Renamed ρ M s') {chain : Chain} {marks : Marks} (hchain : chain.Marked M marks)
    {name name' : Token} (hname : name.Renamed ρ marks.here name') {v v' : Value}
    (hv : v.Renamed ρ M v') :
    (s.define chain name.lexeme v).Renamed ρ M (s'.define chain name'.lexeme v') := by
  cases hchain with
  | nil => exact h
  | cons hid _ =>
    rw [hname.lexeme]
    exact h.bind hid hname.avoids hv

theorem newScope (h : s.Renamed ρ M s') {marked : Bool} {bindings bindings' : Table Value}
    (hbindings : bindings.Renamed ρ marked (Value.Renamed ρ M) bindings') :
    (s.newScope bindings).2.Renamed ρ (M ++ [marked]) (s'.newScope bindings').2 := by
  have hle : M <+: M ++ [marked] := List.prefix_append M [marked]
  have hmono : ∀ v v', Value.Renamed ρ M v v' → Value.Renamed ρ (M ++ [marked]) v v' :=
    fun _ _ hv => hv.mono hle
  have hglobals : (M ++ [marked])[0]? = some false := by
    rw [List.getElem?_append_left (List.getElem?_eq_some_iff.mp h.globals).1]
    exact h.globals
  refine ⟨?_, ?_, hglobals, fun id marked' hid => ?_, h.objectCount,
    fun hobject => (h.fields hobject).mono hmono, h.nextId⟩
  · rw [size_newScope, h.size, List.length_append, List.length_singleton]
  · rw [size_newScope, h.size', List.length_append, List.length_singleton]
  · rw [scope_newScope, scope_newScope, h.size, h.size']
    split
    · rename_i heq
      subst heq
      cases List.getElem?_concat_length.symm.trans hid
      exact hbindings.mono hmono
    · rename_i hne
      have hlt := (List.getElem?_eq_some_iff.mp hid).1
      rw [List.length_append, List.length_singleton] at hlt
      have hold : id < M.length := Nat.lt_of_le_of_ne (Nat.le_of_lt_succ hlt) hne
      rw [List.getElem?_append_left hold] at hid
      exact (h.scopes id marked' hid).mono hmono

theorem binderAt? (h : s.Renamed ρ M s') {chain : Chain} {marks : Marks}
    (hchain : chain.Marked M marks) (distance : Nat) {x : String}
    (hx : ρ.Avoids (marks.at? (some distance)) x) :
    s'.binderAt? chain distance (ρ.name (marks.at? (some distance)) x) =
      s.binderAt? chain distance x := by
  unfold Store.binderAt? Store.binds
  cases hid : chain[distance]? with
  | none => rfl
  | some id =>
    dsimp only
    rw [(h.scopes id _ (hchain.at? hid)).contains hx]

/-- A reserved word means the same at a distance. -/
theorem lookupAt? (h : s.Renamed ρ M s') {chain : Chain} {marks : Marks}
    (hchain : chain.Marked M marks) (distance : Nat) {x : String} (hx : x ∈ reserved) :
    Option.Rel (Value.Renamed ρ M) (s.lookupAt? chain distance x) (s'.lookupAt? chain distance x) := by
  cases hid : chain[distance]? with
  | none =>
    unfold Store.lookupAt? Store.binderAt?
    rw [hid]
    exact .none
  | some id =>
    rw [lookupAt?_of_getElem? hid, lookupAt?_of_getElem? hid]
    have hfound := h.scopes id _ (hchain.at? hid) x (ρ.avoids_reserved hx _)
    rwa [ρ.name_reserved hx] at hfound

theorem newIdentity (h : s.Renamed ρ M s') : s.newIdentity.2.Renamed ρ M s'.newIdentity.2 :=
  ⟨h.size, h.size', h.globals, h.scopes, h.objectCount, h.fields, congrArg (· + 1) h.nextId⟩

theorem newFunction (h : s.Renamed ρ M s') {c c' : Closure} (hc : c.Renamed ρ M [] c') :
    (s.newFunction c).1.Renamed ρ M (s'.newFunction c').1 ∧
      (s.newFunction c).2.Renamed ρ M (s'.newFunction c').2 := by
  refine ⟨?_, h.newIdentity⟩
  unfold Store.newFunction Store.newIdentity
  dsimp only
  rw [h.nextId]
  exact .callable (.function _ hc)

/-- A method that is bound gets a scope that is not marked. -/
theorem bindMethod (h : s.Renamed ρ M s') {c c' : Closure} (hc : c.Renamed ρ M [false] c')
    {object object' : ObjectRef} (hobject : object.Renamed ρ M object') :
    (s.bindMethod c object).1.Renamed ρ (M ++ [false]) [] (s'.bindMethod c' object').1 ∧
      (s.bindMethod c object).2.Renamed ρ (M ++ [false]) (s'.bindMethod c' object').2 := by
  obtain ⟨marks, hmarked, hdeclaration⟩ := hc.declared
  refine ⟨⟨⟨false :: marks, ?_, hdeclaration⟩, ?_, hc.isInitializer⟩, ?_⟩
  · simp only [Store.bindMethod, newScope_fst, h.size]
    exact hmarked.opening false
  · simp only [Store.bindMethod, newScope_fst, h.size, h.size', hc.chain]
  · exact h.newScope (Table.Renamed.empty.insert_unmarked _ (.object hobject))

theorem newMethod (h : s.Renamed ρ M s') {c c' : Closure} (hc : c.Renamed ρ M [false] c')
    {object object' : ObjectRef} (hobject : object.Renamed ρ M object') :
    (s.newMethod c object).1.Renamed ρ (M ++ [false]) (s'.newMethod c' object').1 ∧
      (s.newMethod c object).2.Renamed ρ (M ++ [false]) (s'.newMethod c' object').2 := by
  obtain ⟨hclosure, hstore⟩ := h.bindMethod hc hobject
  exact hstore.newFunction hclosure

theorem newObject (h : s.Renamed ρ M s') {origin origin' : ClassObject}
    (horigin : origin.Renamed ρ M origin') :
    (s.newObject origin).1.Renamed ρ M (s'.newObject origin').1 ∧
      (s.newObject origin).2.Renamed ρ M (s'.newObject origin').2 := by
  refine ⟨⟨h.objectCount, horigin⟩, h.size, h.size', h.globals, h.scopes, ?_, ?_, h.nextId⟩
  · simp only [Store.newObject, Array.size_push, h.objectCount]
  · intro object object' hid
    rw [fieldsOf_newObject, fieldsOf_newObject, hid, h.objectCount]
    split
    · exact .empty
    · exact h.fields hid

theorem setField (h : s.Renamed ρ M s') {object object' : ObjectRef}
    (hobject : object.Renamed ρ M object') (name : String) {v v' : Value} (hv : v.Renamed ρ M v') :
    (s.setField object name v).Renamed ρ M (s'.setField object' name v') := by
  refine ⟨h.size, h.size', h.globals, h.scopes, ?_, ?_, h.nextId⟩
  · simp only [Store.setField, Array.size_modify, h.objectCount]
  · intro other other' hid
    rw [fieldsOf_setField, fieldsOf_setField, hobject.id, hid, h.objectCount]
    split
    · exact (h.fields hid).insert_unmarked name hv
    · exact h.fields hid

/-- A property has related values; if it is a method, one scope more is there. -/
theorem property? (h : s.Renamed ρ M s') {object object' : ObjectRef}
    (hobject : object.Renamed ρ M object') (name : String) :
    ∃ M', M <+: M' ∧
      Option.Rel (Value.Renamed ρ M') (s.property? object name).1 (s'.property? object' name).1 ∧
      (s.property? object name).2.Renamed ρ M' (s'.property? object' name).2 := by
  unfold Store.property?
  obtain ⟨hnone, hnone'⟩ | ⟨v, v', hsome, hsome', hv⟩ :=
    rel_cases ((h.fields hobject.id).get? name)
  · rw [hnone, hnone']
    obtain ⟨hnone, hnone'⟩ | ⟨method, method', hsome, hsome', hclosure⟩ :=
      rel_cases (hobject.origin.method? name)
    · rw [hnone, hnone']
      exact ⟨M, List.prefix_rfl, .none, h⟩
    · rw [hsome, hsome']
      obtain ⟨hv, hstore⟩ := h.newMethod hclosure hobject
      exact ⟨M ++ [false], List.prefix_append M [false], .some hv, hstore⟩
  · rw [hsome, hsome']
    exact ⟨M, List.prefix_rfl, .some hv, h⟩

end Store.Renamed

/-! ## Worlds -/

/-- Worlds before and after, with the distances of the renaming and a chain that has some marks. -/
structure World.Renamed (ρ : Renaming) (M marks : Marks) (w w' : World) : Prop where
  store : w.store.Renamed ρ M w'.store
  chain : w'.chain = w.chain
  marked : w.chain.Marked M marks
  depth : w'.depth = w.depth
  distances : w.distances = ρ.distances
  distances' : w'.distances = ρ.distances
  sink : w'.sink = w.sink
  clock : w'.clock = w.clock

namespace World.Renamed
variable {ρ : Renaming} {M marks : Marks} {w w' : World}

theorem withStore (h : w.Renamed ρ M marks w') {M' : Marks} (hle : M <+: M') {s s' : Store}
    (hs : s.Renamed ρ M' s') :
    World.Renamed ρ M' marks { w with store := s } { w' with store := s' } :=
  ⟨hs, h.chain, h.marked.mono hle, h.depth, h.distances, h.distances', h.sink, h.clock⟩

theorem withChain (h : w.Renamed ρ M marks w') {chain : Chain} {others : Marks}
    (hchain : chain.Marked M others) :
    (w.withChain chain).Renamed ρ M others (w'.withChain chain) :=
  ⟨h.store, rfl, hchain, h.depth, h.distances, h.distances', h.sink, h.clock⟩

theorem define (h : w.Renamed ρ M marks w') {name name' : Token}
    (hname : name.Renamed ρ marks.here name') {v v' : Value} (hv : v.Renamed ρ M v') :
    (w.define name.lexeme v).Renamed ρ M marks (w'.define name'.lexeme v') := by
  have hstore : (w.store.define w.chain name.lexeme v).Renamed ρ M
      (w'.store.define w'.chain name'.lexeme v') := by
    rw [h.chain]
    exact h.store.define h.marked hname hv
  exact h.withStore List.prefix_rfl hstore

theorem enterScope (h : w.Renamed ρ M marks w') {outer : Chain} {others : Marks}
    (houter : outer.Marked M others) {marked : Bool} {bindings bindings' : Table Value}
    (hbindings : bindings.Renamed ρ marked (Value.Renamed ρ M) bindings') :
    (w.enterScope outer bindings).Renamed ρ (M ++ [marked]) (marked :: others)
      (w'.enterScope outer bindings') := by
  refine ⟨h.store.newScope hbindings, ?_, ?_, h.depth, h.distances, h.distances', h.sink, h.clock⟩
  · rw [World.enterScope_eq, World.enterScope_eq, h.store.size, h.store.size']
  · rw [World.enterScope_eq, h.store.size]
    exact houter.opening marked

theorem leaveCall (h : w.Renamed ρ M marks w') {caller : Chain} {others : Marks}
    (hcaller : caller.Marked M others) :
    (w.leaveCall caller).Renamed ρ M others (w'.leaveCall caller) :=
  ⟨h.store, rfl, hcaller, congrArg (· - 1) h.depth, h.distances, h.distances', h.sink, h.clock⟩

theorem print (h : w.Renamed ρ M marks w') (line : String) :
    (w.print line).Renamed ρ M marks (w'.print line) :=
  ⟨h.store, h.chain, h.marked, h.depth, h.distances, h.distances', congrArg (·.print line) h.sink,
    h.clock⟩

theorem readClock (h : w.Renamed ρ M marks w') :
    w'.readClock.1 = w.readClock.1 ∧ w.readClock.2.Renamed ρ M marks w'.readClock.2 := by
  refine ⟨?_, h.store, h.chain, h.marked, h.depth, h.distances, h.distances', h.sink, ?_⟩
  · rw [World.readClock_fst, World.readClock_fst, h.clock]
  · rw [World.readClock_snd, World.readClock_snd, h.clock]

/-- A reference finds its name in the same scope, which has the mark that the name was given by. -/
theorem binder? (h : w.Renamed ρ M marks w') {target target' : Reference}
    (htarget : target.Renamed ρ marks target') :
    w'.binder? target' = w.binder? target ∧ ∀ id, w.binder? target = some id →
      M[id]? = some (marks.at? (ρ.distances.get? target)) := by
  have hid : ρ.distances.get? target' = ρ.distances.get? target := by
    rw [Distances.get?, Distances.get?, htarget.id]
  have hname := htarget.name
  unfold World.binder?
  rw [h.distances, h.distances', hid, h.chain]
  revert hname
  cases ρ.distances.get? target with
  | some distance =>
    intro hname
    refine ⟨?_, fun id hbinder => ?_⟩
    · dsimp only
      rw [hname.lexeme, h.store.binderAt? h.marked distance hname.avoids]
    · dsimp only at hbinder
      unfold Store.binderAt? at hbinder
      split at hbinder
      · rename_i found hfound
        split at hbinder
        · cases hbinder
          exact h.marked.at? hfound
        · cases hbinder
      · cases hbinder
  | none =>
    intro hname
    have hsame := (h.store.scopes 0 false h.store.globals).contains hname.avoids
    refine ⟨?_, fun id hbinder => ?_⟩
    · dsimp only
      rw [hname.lexeme]
      exact congrArg (if · = true then some 0 else none) hsame
    · dsimp only at hbinder
      rw [Chain.globals, Store.binder?, Store.binder?] at hbinder
      split at hbinder
      · cases hbinder
        exact h.store.globals
      · cases hbinder

theorem read? (h : w.Renamed ρ M marks w') {target target' : Reference}
    (htarget : target.Renamed ρ marks target') :
    Option.Rel (Value.Renamed ρ M) (w.read? target) (w'.read? target') := by
  obtain ⟨hbinder, hmark⟩ := h.binder? htarget
  unfold World.read?
  rw [hbinder]
  cases hid : w.binder? target with
  | none => exact .none
  | some id =>
    rw [htarget.name.lexeme]
    exact h.store.scopes id _ (hmark id hid) _ htarget.name.avoids

end World.Renamed

end LoxLang
