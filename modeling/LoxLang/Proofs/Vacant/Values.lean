import LoxLang.Machine.Operation
import LoxLang.Machine.World
import LoxLang.Proofs.Alike.Values
import LoxLang.Proofs.Machine.Layout
import LoxLang.Proofs.Machine.Updates

/-!
Worlds with and without some scopes. Every scope of one store has an image in another one, which binds
the same names to images of its values, or it is vacant: it binds nothing and has no image. Two chains
lead through scopes and their images, and where the one leads through a vacant scope the other can lead
through any. Scopes that are opened later only add to the images (`Images.Extends`), so what has an image
keeps it.
-/
namespace LoxLang
set_option autoImplicit false

/-! ## Tables -/

/-- The same names, with values that a relation relates. -/
def Table.Agree {α : Type} (R : α → α → Prop) (t t' : Table α) : Prop :=
  ∀ x, Option.Rel R (t.get? x) (t'.get? x)

namespace Table.Agree
variable {α : Type} {R S : α → α → Prop} {t t' : Table α}

theorem empty : Table.Agree R Table.empty Table.empty :=
  fun _ => .none

theorem mono (h : t.Agree R t') (hRS : ∀ a a', R a a' → S a a') : t.Agree S t' :=
  fun x => rel_imp hRS (h x)

theorem insert (h : t.Agree R t') (name : String) {v v' : α} (hv : R v v') :
    (t.insert name v).Agree R (t'.insert name v') := by
  intro x
  rw [Table.get?_insert, Table.get?_insert]
  by_cases hname : name = x
  · rw [if_pos hname, if_pos hname]
    exact .some hv
  · rw [if_neg hname, if_neg hname]
    exact h x

theorem contains (h : t.Agree R t') (name : String) : t'.contains name = t.contains name := by
  unfold Table.contains
  obtain ⟨hnone, hnone'⟩ | ⟨v, v', hsome, hsome', -⟩ := rel_cases (h name)
  · rw [hnone, hnone']
  · rw [hsome, hsome']
    rfl

theorem ofList {entries entries' : List (String × α)}
    (h : List.Forall₂ (fun entry entry' => entry'.1 = entry.1 ∧ R entry.2 entry'.2) entries
      entries') : (Table.ofList entries).Agree R (Table.ofList entries') := by
  have hfold : ∀ {t t' : Table α}, t.Agree R t' →
      (entries.foldl (fun t entry => t.insert entry.1 entry.2) t).Agree R
        (entries'.foldl (fun t entry => t.insert entry.1 entry.2) t') := by
    induction h with
    | nil => exact id
    | @cons entry entry' _ _ hentry _ ih =>
      obtain ⟨name, v⟩ := entry
      obtain ⟨name', v'⟩ := entry'
      obtain ⟨rfl, hv⟩ : name' = name ∧ R v v' := hentry
      exact fun ht => ih (ht.insert name' hv)
  exact hfold empty

end Table.Agree

/-! ## Images -/

/-- By the identities of scopes, the image that each of them has, if it has one. -/
abbrev Images := List (Option ScopeId)

namespace Images

/-- A scope has an image. -/
def Keeps (I : Images) (id id' : ScopeId) : Prop :=
  I[id]? = some (some id')

/-- A scope is left out. -/
def Vacant (I : Images) (id : ScopeId) : Prop :=
  I[id]? = some none

/-- More scopes, all of which have images. -/
def Extends (I I' : Images) : Prop :=
  ∃ more : List ScopeId, I' = I ++ more.map some

/-- So many scopes, each of which is its own image. -/
def same (count : Nat) : Images :=
  (List.range count).map some

variable {I I' I'' : Images} {id id' : ScopeId}

theorem Keeps.mono (hle : I <+: I') (h : I.Keeps id id') : I'.Keeps id id' := by
  obtain ⟨more, rfl⟩ := hle
  exact (List.getElem?_append_left (List.getElem?_eq_some_iff.mp h).1).trans h

theorem Vacant.mono (hle : I <+: I') (h : I.Vacant id) : I'.Vacant id := by
  obtain ⟨more, rfl⟩ := hle
  exact (List.getElem?_append_left (List.getElem?_eq_some_iff.mp h).1).trans h

theorem Extends.le (h : I.Extends I') : I <+: I' := by
  obtain ⟨more, rfl⟩ := h
  exact List.prefix_append I _

theorem Extends.refl (I : Images) : I.Extends I :=
  ⟨[], (List.append_nil I).symm⟩

theorem Extends.trans (h1 : I.Extends I') (h2 : I'.Extends I'') : I.Extends I'' := by
  obtain ⟨more, rfl⟩ := h1
  obtain ⟨later, rfl⟩ := h2
  exact ⟨more ++ later, by rw [List.map_append, List.append_assoc]⟩

/-- What is added is not vacant. -/
theorem Extends.vacant (h : I.Extends I') (hid : I'.Vacant id) : I.Vacant id := by
  obtain ⟨more, rfl⟩ := h
  unfold Vacant at hid ⊢
  rw [List.getElem?_append] at hid
  split at hid
  · exact hid
  · rw [List.getElem?_map] at hid
    cases hmore : more[id - I.length]? <;> rw [hmore] at hid <;> cases hid

theorem extends_concat (I : Images) (id' : ScopeId) : I.Extends (I ++ [some id']) :=
  ⟨[id'], rfl⟩

theorem keeps_concat (I : Images) (id' : ScopeId) : (I ++ [some id']).Keeps I.length id' :=
  List.getElem?_concat_length

theorem vacant_concat (I : Images) : (I ++ [none]).Vacant I.length :=
  List.getElem?_concat_length

theorem keeps_same {count : Nat} (hid : id < count) : (same count).Keeps id id := by
  simp [Keeps, same, hid]

theorem eq_of_keeps_same {count : Nat} (h : (same count).Keeps id id') : id' = id ∧ id < count := by
  rw [Keeps, same, List.getElem?_map] at h
  obtain ⟨number, hnumber, heq⟩ := Option.map_eq_some_iff.mp h
  obtain ⟨hlt, hid⟩ := List.getElem?_eq_some_iff.mp hnumber
  rw [List.getElem_range] at hid
  rw [List.length_range] at hlt
  exact ⟨(Option.some.inj heq).symm.trans hid.symm, hlt⟩

theorem not_vacant_same (count : Nat) (id : ScopeId) : ¬ (same count).Vacant id := by
  intro h
  rw [Vacant, same, List.getElem?_map] at h
  obtain ⟨number, -, heq⟩ := Option.map_eq_some_iff.mp h
  cases heq

end Images

/-! ## Chains -/

/-- A chain through scopes and one through their images. -/
def Chain.Imaged (I : Images) (chain chain' : Chain) : Prop :=
  List.Forall₂ (fun id id' => I.Keeps id id' ∨ I.Vacant id) chain chain'

/-- The innermost scope of a chain, if there is one, has an image. -/
def Chain.Led (I : Images) (chain : Chain) : Prop :=
  ∀ id, chain.head? = some id → ∃ id', I.Keeps id id'

namespace Chain.Imaged
variable {I I' : Images} {chain chain' : Chain}

theorem mono (hle : I <+: I') (h : chain.Imaged I chain') : chain.Imaged I' chain' :=
  h.imp fun _ _ hid => hid.imp (·.mono hle) (·.mono hle)

theorem cons {id id' : ScopeId} (hid : I.Keeps id id') (h : chain.Imaged I chain') :
    Chain.Imaged I (id :: chain) (id' :: chain') :=
  List.Forall₂.cons (.inl hid) h

/-- Where the scope at a distance has an image, the image is at that distance. -/
theorem at? (h : chain.Imaged I chain') {distance : Nat} {id id' : ScopeId}
    (hid : chain[distance]? = some id) (hkeeps : I.Keeps id id') : chain'[distance]? = some id' := by
  induction h generalizing distance with
  | nil => cases hid
  | cons hfirst _ ih =>
    cases distance with
    | succ distance => exact ih hid
    | zero =>
      cases hid
      rcases hfirst with hkept | hvacant
      · cases hkept.symm.trans hkeeps
        rfl
      · cases hvacant.symm.trans hkeeps

theorem none_at? (h : chain.Imaged I chain') {distance : Nat} (hid : chain[distance]? = none) :
    chain'[distance]? = none := by
  rw [List.getElem?_eq_none_iff] at hid ⊢
  rwa [← h.length_eq]

/-- A scope of the chain that is not vacant has an image. -/
theorem keeps_at (h : chain.Imaged I chain') {distance : Nat} {id : ScopeId}
    (hid : chain[distance]? = some id) (hvacant : ¬ I.Vacant id) : ∃ id', I.Keeps id id' := by
  induction h generalizing distance with
  | nil => cases hid
  | @cons first first' _ _ hfirst _ ih =>
    cases distance with
    | succ distance => exact ih hid
    | zero =>
      cases hid
      exact ⟨first', hfirst.resolve_right hvacant⟩

end Chain.Imaged

theorem Chain.Led.mono {I I' : Images} {chain : Chain} (hle : I <+: I') (h : chain.Led I) :
    chain.Led I' :=
  fun id hid => (h id hid).imp fun _ hkeeps => hkeeps.mono hle

/-! ## Values -/

/-- The same code in a chain and in its image. -/
structure Closure.Imaged (I : Images) (c c' : Closure) : Prop where
  declaration : c'.declaration = c.declaration
  chain : c.chain.Imaged I c'.chain
  isInitializer : c'.isInitializer = c.isInitializer

/-- Code that can be called: if it is an initializer, the scope of its object has an image. -/
structure Closure.Callable (I : Images) (c c' : Closure) : Prop extends Closure.Imaged I c c' where
  receiver : c.isInitializer = true → c.chain.Led I

/-- The same class, with methods in chains and in their images. -/
structure ClassObject.Imaged (I : Images) (c c' : ClassObject) : Prop where
  id : c'.id = c.id
  name : c'.name = c.name
  method? : ∀ name, Option.Rel (Closure.Imaged I) (c.method? name) (c'.method? name)

inductive Callable.Imaged (I : Images) : Callable → Callable → Prop
  | clock : Imaged I .clock .clock
  | function (id : Nat) {closure closure' : Closure} : closure.Callable I closure' →
    Imaged I (.function id closure) (.function id closure')
  | classObject {value value' : ClassObject} : value.Imaged I value' →
    Imaged I (.classObject value) (.classObject value')

structure ObjectRef.Imaged (I : Images) (object object' : ObjectRef) : Prop where
  id : object'.id = object.id
  origin : object.origin.Imaged I object'.origin

/-- The same value, but for the chains in it. -/
inductive Value.Imaged (I : Images) : Value → Value → Prop
  | plain {v : Value} : v.Plain → Imaged I v v
  | callable {value value' : Callable} : value.Imaged I value' →
    Imaged I (.callable value) (.callable value')
  | object {value value' : ObjectRef} : value.Imaged I value' →
    Imaged I (.object value) (.object value')

section Values
variable {I I' : Images}

theorem Closure.Imaged.arity {c c' : Closure} (h : c.Imaged I c') : c'.arity = c.arity := by
  rw [Closure.arity, Closure.arity, h.declaration]

theorem ClassObject.Imaged.arity {c c' : ClassObject} (h : c.Imaged I c') : c'.arity = c.arity := by
  unfold ClassObject.arity
  obtain ⟨hnone, hnone'⟩ | ⟨init, init', hsome, hsome', hclosure⟩ :=
    rel_cases (h.method? initializerName)
  · rw [hnone, hnone']
  · rw [hsome, hsome']
    exact hclosure.arity

theorem Callable.Imaged.arity {c c' : Callable} (h : c.Imaged I c') : c'.arity = c.arity := by
  cases h with
  | clock => rfl
  | function id hclosure => exact hclosure.arity
  | classObject hclass => exact hclass.arity

theorem Callable.Imaged.text {c c' : Callable} (h : c.Imaged I c') : c'.text = c.text := by
  cases h with
  | clock => rfl
  | function id hclosure => rw [Callable.text, Callable.text, hclosure.declaration]
  | classObject hclass => exact hclass.name

theorem Callable.Imaged.same {c c' d d' : Callable} (hc : c.Imaged I c') (hd : d.Imaged I d') :
    c'.same d' = c.same d := by
  cases hc <;> cases hd
  case classObject.classObject hc _ _ hd => rw [Callable.same, Callable.same, hc.id, hd.id]
  all_goals rfl

theorem Value.Imaged.isTruthy {v v' : Value} (h : v.Imaged I v') : v'.isTruthy = v.isTruthy := by
  cases h <;> rfl

theorem Value.Imaged.text {v v' : Value} (h : v.Imaged I v') : v'.text = v.text := by
  cases h with
  | plain _ => rfl
  | callable hcallable => exact hcallable.text
  | object hobject => rw [Value.text, Value.text, hobject.origin.name]

theorem Value.Imaged.equals {v v' u u' : Value} (hv : v.Imaged I v') (hu : u.Imaged I u') :
    v'.equals u' = v.equals u := by
  cases hv with
  | plain hplain =>
    cases hu with
    | plain _ => rfl
    | _ => cases v <;> first | rfl | exact hplain.elim
  | callable hv =>
    cases hu with
    | plain hplain => cases u <;> first | rfl | exact hplain.elim
    | callable hu => exact hv.same hu
    | object hu => rfl
  | object hv =>
    cases hu with
    | plain hplain => cases u <;> first | rfl | exact hplain.elim
    | callable hu => rfl
    | object hu => rw [Value.equals, Value.equals, hv.id, hu.id]

/-! ## More scopes -/

theorem Closure.Imaged.mono (hle : I <+: I') {c c' : Closure} (h : c.Imaged I c') :
    c.Imaged I' c' :=
  ⟨h.declaration, h.chain.mono hle, h.isInitializer⟩

theorem Closure.Callable.mono (hle : I <+: I') {c c' : Closure} (h : c.Callable I c') :
    c.Callable I' c' :=
  ⟨h.toImaged.mono hle, fun hinit => (h.receiver hinit).mono hle⟩

theorem ClassObject.Imaged.mono (hle : I <+: I') {c c' : ClassObject} (h : c.Imaged I c') :
    c.Imaged I' c' :=
  ⟨h.id, h.name, fun name => rel_imp (fun _ _ hclosure => hclosure.mono hle) (h.method? name)⟩

theorem ObjectRef.Imaged.mono (hle : I <+: I') {object object' : ObjectRef}
    (h : object.Imaged I object') : object.Imaged I' object' :=
  ⟨h.id, h.origin.mono hle⟩

theorem Value.Imaged.mono (hle : I <+: I') {v v' : Value} (h : v.Imaged I v') :
    v.Imaged I' v' := by
  cases h with
  | plain hplain => exact .plain hplain
  | object hobject => exact .object (hobject.mono hle)
  | callable hcallable =>
    cases hcallable with
    | clock => exact .callable .clock
    | function id hclosure => exact .callable (.function id (hclosure.mono hle))
    | classObject hclass => exact .callable (.classObject (hclass.mono hle))

theorem Value.Imaged.monoAll (hle : I <+: I') {values values' : List Value}
    (h : List.Forall₂ (Value.Imaged I) values values') :
    List.Forall₂ (Value.Imaged I') values values' :=
  h.imp fun _ _ hv => hv.mono hle

/-! ## Operators -/

theorem Value.Imaged.applyUnary_eq {v v' : Value} (h : v.Imaged I v') (operator : Token) :
    applyUnary operator v' = applyUnary operator v := by
  unfold applyUnary
  rw [h.isTruthy]
  cases h <;> rfl

theorem Value.Imaged.applyBinary_eq {left left' right right' : Value} (hleft : left.Imaged I left')
    (hright : right.Imaged I right') (operator : Token) :
    applyBinary operator left' right' = applyBinary operator left right := by
  unfold applyBinary
  rw [hleft.equals hright]
  cases hleft with
  | plain _ =>
    cases hright with
    | plain _ => rfl
    | _ => cases left <;> rfl
  | _ => rfl

theorem Value.Imaged.decidesLogical_eq {v v' : Value} (h : v.Imaged I v') (operator : Token) :
    decidesLogical operator v' = decidesLogical operator v := by
  unfold decidesLogical
  rw [h.isTruthy]

end Values

/-! ## Stores -/

/-- Scopes and their images bind the same names to values and their images; vacant scopes bind nothing,
and objects have the same identities. -/
structure Store.Imaged (I : Images) (s s' : Store) : Prop where
  size : s.scopes.size = I.length
  bound : ∀ {id id' : ScopeId}, I.Keeps id id' → id' < s'.scopes.size
  unique : ∀ {id other id' : ScopeId}, I.Keeps id id' → I.Keeps other id' → other = id
  globals : I.Keeps 0 0
  scopes : ∀ {id id' : ScopeId}, I.Keeps id id' →
    (s.scope id).Agree (Value.Imaged I) (s'.scope id')
  vacant : ∀ {id : ScopeId}, I.Vacant id → ∀ x, s.binds id x = false
  objectCount : s'.fields.size = s.fields.size
  fields : ∀ {object object' : ObjectRef}, object'.id = object.id →
    (s.fieldsOf object).Agree (Value.Imaged I) (s'.fieldsOf object')
  nextId : s'.nextId = s.nextId

namespace Store.Imaged
variable {I : Images} {s s' : Store}

theorem bind (h : s.Imaged I s') {id id' : ScopeId} (hid : I.Keeps id id') (x : String) {v v' : Value}
    (hv : v.Imaged I v') : (s.bind id x v).Imaged I (s'.bind id' x v') := by
  refine ⟨(s.size_bind id x v).trans h.size, fun hother => ?_, h.unique, h.globals, fun hother => ?_,
    fun hvacant y => ?_, h.objectCount, h.fields, h.nextId⟩
  · rw [size_bind]
    exact h.bound hother
  · rename_i other other'
    rw [scope_bind, scope_bind]
    by_cases heq : id = other
    · subst heq
      cases hid.symm.trans hother
      rw [if_pos ⟨rfl, h.size ▸ Layout.lt_of_getElem? hid⟩, if_pos ⟨rfl, h.bound hid⟩]
      exact (h.scopes hid).insert x hv
    · have hne : id' ≠ other' := by
        rintro rfl
        exact heq (h.unique hother hid)
      rw [if_neg fun hboth => heq hboth.1, if_neg fun hboth => hne hboth.1]
      exact h.scopes hother
  · rename_i other
    rw [Bool.eq_false_iff]
    intro hbinds
    rcases (s.binds_bind id other x y v).mp hbinds with ⟨rfl, -, -⟩ | hold
    · cases hid.symm.trans hvacant
    · exact Bool.eq_false_iff.mp (h.vacant hvacant y) hold

theorem define (h : s.Imaged I s') {chain chain' : Chain} (hchain : chain.Imaged I chain')
    (hled : chain.Led I) (x : String) {v v' : Value} (hv : v.Imaged I v') :
    (s.define chain x v).Imaged I (s'.define chain' x v') := by
  cases hchain with
  | nil => exact h
  | @cons id id' _ _ hfirst _ =>
    obtain ⟨kept, hkept⟩ := hled id rfl
    rcases hfirst with hkeeps | hvacant
    · exact h.bind hkeeps x hv
    · cases hvacant.symm.trans hkept

/-- One more scope, whose image is the next one of the other store. -/
theorem newScope (h : s.Imaged I s') {bindings bindings' : Table Value}
    (hbindings : bindings.Agree (Value.Imaged I) bindings') :
    (s.newScope bindings).2.Imaged (I ++ [some s'.scopes.size]) (s'.newScope bindings').2 := by
  have hle : I <+: I ++ [some s'.scopes.size] := List.prefix_append I _
  have hmono : ∀ v v', Value.Imaged I v v' → Value.Imaged (I ++ [some s'.scopes.size]) v v' :=
    fun _ _ hv => hv.mono hle
  -- A scope with an image is an old one, or it is the new one with the new image.
  have hcases : ∀ {id id' : ScopeId}, Images.Keeps (I ++ [some s'.scopes.size]) id id' →
      I.Keeps id id' ∨ id = I.length ∧ id' = s'.scopes.size := fun hid =>
    (Layout.getElem?_concat_cases hid).imp_right fun hnew => ⟨hnew.1, Option.some.inj hnew.2⟩
  refine ⟨?_, fun hid => ?_, fun hid hother => ?_, h.globals.mono hle, fun hid => ?_,
    fun hvacant x => ?_, h.objectCount, fun hobject => (h.fields hobject).mono hmono, h.nextId⟩
  · rw [size_newScope, h.size, List.length_append, List.length_singleton]
  · rw [size_newScope]
    rcases hcases hid with hkept | ⟨-, rfl⟩
    · exact Nat.lt_succ_of_lt (h.bound hkept)
    · exact Nat.lt_succ_self _
  · rcases hcases hid with hkept | ⟨rfl, rfl⟩ <;> rcases hcases hother with hkept' | ⟨rfl, heq⟩
    · exact h.unique hkept hkept'
    · exact absurd heq (Nat.ne_of_lt (h.bound hkept))
    · exact absurd (h.bound hkept') (Nat.lt_irrefl _)
    · rfl
  · rw [scope_newScope, scope_newScope, h.size]
    rcases hcases hid with hkept | ⟨rfl, rfl⟩
    · rw [if_neg (Nat.ne_of_lt (Layout.lt_of_getElem? hkept)),
        if_neg (Nat.ne_of_lt (h.bound hkept))]
      exact (h.scopes hkept).mono hmono
    · rw [if_pos rfl, if_pos rfl]
      exact hbindings.mono hmono
  · have hwas := (I.extends_concat s'.scopes.size).vacant hvacant
    rw [binds_newScope_ne (Nat.ne_of_lt (h.size ▸ Layout.lt_of_getElem? hwas))]
    exact h.vacant hwas x

/-- One more scope that binds nothing, and is vacant. -/
theorem newVacant (h : s.Imaged I s') : (s.newScope .empty).2.Imaged (I ++ [none]) s' := by
  have hle : I <+: I ++ [none] := List.prefix_append I _
  have hmono : ∀ v v', Value.Imaged I v v' → Value.Imaged (I ++ [none]) v v' :=
    fun _ _ hv => hv.mono hle
  have hold : ∀ {id id' : ScopeId}, Images.Keeps (I ++ [none]) id id' → I.Keeps id id' := by
    intro id id' hid
    rcases Layout.getElem?_concat_cases hid with hkept | ⟨-, hnone⟩
    · exact hkept
    · cases hnone
  refine ⟨?_, fun hid => h.bound (hold hid), fun hid hother => h.unique (hold hid) (hold hother),
    h.globals.mono hle, fun hid => ?_, fun hvacant x => ?_, h.objectCount,
    fun hobject => (h.fields hobject).mono hmono, h.nextId⟩
  · rw [size_newScope, h.size, List.length_append, List.length_singleton]
  · rw [scope_newScope, if_neg (Nat.ne_of_lt (h.size ▸ Layout.lt_of_getElem? (hold hid)))]
    exact (h.scopes (hold hid)).mono hmono
  · rcases Layout.getElem?_concat_cases hvacant with hwas | ⟨rfl, -⟩
    · rw [binds_newScope_ne (Nat.ne_of_lt (h.size ▸ Layout.lt_of_getElem? hwas))]
      exact h.vacant hwas x
    · rw [← h.size, binds_newScope]
      rfl

theorem binds (h : s.Imaged I s') {id id' : ScopeId} (hid : I.Keeps id id') (x : String) :
    s'.binds id' x = s.binds id x :=
  (h.scopes hid).contains x

/-- A name at a distance, where the scope at that distance has an image. -/
theorem lookupAt? (h : s.Imaged I s') {chain chain' : Chain} (hchain : chain.Imaged I chain')
    {distance : Nat} (hkept : ∀ id, chain[distance]? = some id → ∃ id', I.Keeps id id')
    (x : String) :
    Option.Rel (Value.Imaged I) (s.lookupAt? chain distance x) (s'.lookupAt? chain' distance x) := by
  cases hid : chain[distance]? with
  | none =>
    unfold Store.lookupAt? Store.binderAt?
    rw [hid, hchain.none_at? hid]
    exact .none
  | some id =>
    obtain ⟨id', hkeeps⟩ := hkept id hid
    rw [lookupAt?_of_getElem? hid, lookupAt?_of_getElem? (hchain.at? hid hkeeps)]
    exact h.scopes hkeeps x

theorem newIdentity (h : s.Imaged I s') : s.newIdentity.2.Imaged I s'.newIdentity.2 :=
  ⟨h.size, h.bound, h.unique, h.globals, h.scopes, h.vacant, h.objectCount, h.fields,
    congrArg (· + 1) h.nextId⟩

theorem newFunction (h : s.Imaged I s') {c c' : Closure} (hc : c.Callable I c') :
    (s.newFunction c).1.Imaged I (s'.newFunction c').1 ∧
      (s.newFunction c).2.Imaged I (s'.newFunction c').2 := by
  refine ⟨?_, h.newIdentity⟩
  unfold Store.newFunction Store.newIdentity
  dsimp only
  rw [h.nextId]
  exact .callable (.function _ hc)

/-- A method that is bound gets a scope with an image. -/
theorem bindMethod (h : s.Imaged I s') {c c' : Closure} (hc : c.Imaged I c')
    {object object' : ObjectRef} (hobject : object.Imaged I object') :
    ∃ I', I.Extends I' ∧ (s.bindMethod c object).1.Callable I' (s'.bindMethod c' object').1 ∧
      (s.bindMethod c object).2.Imaged I' (s'.bindMethod c' object').2 := by
  have hnew : (I ++ [some s'.scopes.size]).Keeps s.scopes.size s'.scopes.size :=
    h.size ▸ I.keeps_concat s'.scopes.size
  have hchain := hc.chain.mono (I.extends_concat s'.scopes.size).le
  refine ⟨I ++ [some s'.scopes.size], I.extends_concat _,
    ⟨⟨hc.declaration, hchain.cons hnew, hc.isInitializer⟩, fun _ id hid => ?_⟩, ?_⟩
  · cases hid
    exact ⟨_, hnew⟩
  · exact h.newScope (Table.Agree.empty.insert "this" (.object hobject))

theorem newMethod (h : s.Imaged I s') {c c' : Closure} (hc : c.Imaged I c')
    {object object' : ObjectRef} (hobject : object.Imaged I object') :
    ∃ I', I.Extends I' ∧ (s.newMethod c object).1.Imaged I' (s'.newMethod c' object').1 ∧
      (s.newMethod c object).2.Imaged I' (s'.newMethod c' object').2 := by
  obtain ⟨I', hle, hclosure, hstore⟩ := h.bindMethod hc hobject
  exact ⟨I', hle, hstore.newFunction hclosure⟩

theorem newObject (h : s.Imaged I s') {origin origin' : ClassObject}
    (horigin : origin.Imaged I origin') :
    (s.newObject origin).1.Imaged I (s'.newObject origin').1 ∧
      (s.newObject origin).2.Imaged I (s'.newObject origin').2 := by
  refine ⟨⟨h.objectCount, horigin⟩, h.size, h.bound, h.unique, h.globals, h.scopes, h.vacant, ?_,
    fun {object object'} hid => ?_, h.nextId⟩
  · simp only [Store.newObject, Array.size_push, h.objectCount]
  · rw [fieldsOf_newObject, fieldsOf_newObject, hid, h.objectCount]
    split
    · exact .empty
    · exact h.fields hid

theorem setField (h : s.Imaged I s') {object object' : ObjectRef} (hobject : object.Imaged I object')
    (name : String) {v v' : Value} (hv : v.Imaged I v') :
    (s.setField object name v).Imaged I (s'.setField object' name v') := by
  refine ⟨h.size, h.bound, h.unique, h.globals, h.scopes, h.vacant, ?_, fun {other other'} hid => ?_,
    h.nextId⟩
  · simp only [Store.setField, Array.size_modify, h.objectCount]
  · rw [fieldsOf_setField, fieldsOf_setField, hobject.id, hid, h.objectCount]
    split
    · exact (h.fields hid).insert name hv
    · exact h.fields hid

theorem property? (h : s.Imaged I s') {object object' : ObjectRef} (hobject : object.Imaged I object')
    (name : String) :
    ∃ I', I.Extends I' ∧
      Option.Rel (Value.Imaged I') (s.property? object name).1 (s'.property? object' name).1 ∧
      (s.property? object name).2.Imaged I' (s'.property? object' name).2 := by
  unfold Store.property?
  obtain ⟨hnone, hnone'⟩ | ⟨v, v', hsome, hsome', hv⟩ :=
    rel_cases (h.fields hobject.id name)
  · rw [hnone, hnone']
    obtain ⟨hnone, hnone'⟩ | ⟨method, method', hsome, hsome', hclosure⟩ :=
      rel_cases (hobject.origin.method? name)
    · rw [hnone, hnone']
      exact ⟨I, .refl I, .none, h⟩
    · rw [hsome, hsome']
      obtain ⟨I', hle, hv, hstore⟩ := h.newMethod hclosure hobject
      exact ⟨I', hle, .some hv, hstore⟩
  · rw [hsome, hsome']
    exact ⟨I, .refl I, .some hv, h⟩

end Store.Imaged

/-! ## Worlds -/

/-- A world and its image, with a chain and its image active; all else is the same. -/
structure World.Imaged (I : Images) (w w' : World) : Prop where
  store : w.store.Imaged I w'.store
  chain : w.chain.Imaged I w'.chain
  depth : w'.depth = w.depth
  distances : w'.distances = w.distances
  sink : w'.sink = w.sink
  clock : w'.clock = w.clock

namespace World.Imaged
variable {I : Images} {w w' : World}

theorem withStore (h : w.Imaged I w') {I' : Images} (hle : I <+: I') {s s' : Store}
    (hs : s.Imaged I' s') : World.Imaged I' { w with store := s } { w' with store := s' } :=
  ⟨hs, h.chain.mono hle, h.depth, h.distances, h.sink, h.clock⟩

theorem withChain (h : w.Imaged I w') {chain chain' : Chain} (hchain : chain.Imaged I chain') :
    (w.withChain chain).Imaged I (w'.withChain chain') :=
  ⟨h.store, hchain, h.depth, h.distances, h.sink, h.clock⟩

theorem define (h : w.Imaged I w') (hled : w.chain.Led I) (x : String) {v v' : Value}
    (hv : v.Imaged I v') : (w.define x v).Imaged I (w'.define x v') :=
  h.withStore List.prefix_rfl (h.store.define h.chain hled x hv)

theorem enterScope (h : w.Imaged I w') {outer outer' : Chain} (houter : outer.Imaged I outer')
    {bindings bindings' : Table Value} (hbindings : bindings.Agree (Value.Imaged I) bindings') :
    (w.enterScope outer bindings).Imaged (I ++ [some w'.store.scopes.size])
      (w'.enterScope outer' bindings') := by
  have hnew : (I ++ [some w'.store.scopes.size]).Keeps w.store.scopes.size w'.store.scopes.size :=
    h.store.size ▸ I.keeps_concat w'.store.scopes.size
  have hchain := (houter.mono (I.extends_concat w'.store.scopes.size).le).cons hnew
  exact ⟨h.store.newScope hbindings, hchain, h.depth, h.distances, h.sink, h.clock⟩

theorem leaveCall (h : w.Imaged I w') {caller caller' : Chain} (hcaller : caller.Imaged I caller') :
    (w.leaveCall caller).Imaged I (w'.leaveCall caller') :=
  ⟨h.store, hcaller, congrArg (· - 1) h.depth, h.distances, h.sink, h.clock⟩

theorem print (h : w.Imaged I w') (line : String) : (w.print line).Imaged I (w'.print line) :=
  ⟨h.store, h.chain, h.depth, h.distances, congrArg (·.print line) h.sink, h.clock⟩

theorem readClock (h : w.Imaged I w') :
    w'.readClock.1 = w.readClock.1 ∧ w.readClock.2.Imaged I w'.readClock.2 := by
  refine ⟨?_, h.store, h.chain, h.depth, h.distances, h.sink, ?_⟩
  · rw [World.readClock_fst, World.readClock_fst, h.clock]
  · rw [World.readClock_snd, World.readClock_snd, h.clock]

/-- A reference whose distance leads to a scope with an image finds its name there and in the image, or
in neither. -/
theorem binder? (h : w.Imaged I w') {target : Reference}
    (hkept : ∀ distance id, w.distances.get? target = some distance →
      w.chain[distance]? = some id → ∃ id', I.Keeps id id') :
    Option.Rel I.Keeps (w.binder? target) (w'.binder? target) := by
  unfold World.binder?
  rw [h.distances]
  cases hdistance : w.distances.get? target with
  | none =>
    dsimp only [Chain.globals, Store.binder?]
    rw [h.store.binds h.store.globals]
    split
    · exact .some h.store.globals
    · exact .none
  | some distance =>
    dsimp only [Store.binderAt?]
    cases hid : w.chain[distance]? with
    | none =>
      rw [h.chain.none_at? hid]
      exact .none
    | some id =>
      obtain ⟨id', hkeeps⟩ := hkept distance id hdistance hid
      rw [h.chain.at? hid hkeeps]
      dsimp only
      rw [h.store.binds hkeeps]
      split
      · exact .some hkeeps
      · exact .none

theorem read? (h : w.Imaged I w') {target : Reference}
    (hkept : ∀ distance id, w.distances.get? target = some distance →
      w.chain[distance]? = some id → ∃ id', I.Keeps id id') :
    Option.Rel (Value.Imaged I) (w.read? target) (w'.read? target) := by
  unfold World.read?
  obtain ⟨hnone, hnone'⟩ | ⟨id, id', hsome, hsome', hkeeps⟩ := rel_cases (h.binder? hkept)
  · rw [hnone, hnone']
    exact .none
  · rw [hsome, hsome']
    exact h.store.scopes hkeeps _

end World.Imaged

end LoxLang
