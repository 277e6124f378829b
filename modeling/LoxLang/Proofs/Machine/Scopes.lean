import LoxLang.Machine.Step

/-!
What the store holds after each of its changes. Scopes and fields are added or grow, and are never
taken away: `Store.Grows` is what every change of a running program has in common, and the bindings
of the reserved words stay as they are where no such word is written.
-/
namespace LoxLang
set_option autoImplicit false

/-! ## Tables of pairs -/

namespace Table
variable {α : Type}

theorem get?_foldl_insert {pairs : List (String × α)} {t : Table α} {x : String} {v : α}
    (h : (pairs.foldl (fun t (name, value) => t.insert name value) t).get? x = some v) :
    (x, v) ∈ pairs ∨ t.get? x = some v := by
  induction pairs generalizing t with
  | nil => exact .inr h
  | cons pair rest ih =>
    rcases ih h with hmem | hget
    · exact .inl (List.mem_cons_of_mem pair hmem)
    · rw [get?_insert] at hget
      split at hget
      · rename_i hname
        cases hget
        exact .inl (hname ▸ List.mem_cons_self)
      · exact .inr hget

theorem mem_of_get?_ofList {pairs : List (String × α)} {x : String} {v : α}
    (h : (ofList pairs).get? x = some v) : (x, v) ∈ pairs := by
  rcases get?_foldl_insert h with hmem | hget
  · exact hmem
  · cases hget

theorem contains_insert (t : Table α) (name x : String) (v : α) :
    (t.insert name v).contains x = (name == x || t.contains x) := by
  unfold contains
  rw [get?_insert]
  by_cases h : name = x <;> simp [h]

theorem contains_foldl_insert (pairs : List (String × α)) (t : Table α) (x : String) :
    (pairs.foldl (fun t (name, value) => t.insert name value) t).contains x = true ↔
      x ∈ pairs.map Prod.fst ∨ t.contains x = true := by
  induction pairs generalizing t with
  | nil => simp
  | cons pair rest ih =>
    rw [List.foldl_cons, ih, contains_insert, List.map_cons, List.mem_cons]
    simp only [Bool.or_eq_true, beq_iff_eq]
    grind

theorem contains_ofList (pairs : List (String × α)) (x : String) :
    (ofList pairs).contains x = true ↔ x ∈ pairs.map Prod.fst := by
  unfold ofList
  rw [contains_foldl_insert]
  simp [contains]

end Table

/-! ## Changes of the store -/

namespace Store

theorem scope_bind (s : Store) (id other : ScopeId) (name : String) (v : Value) :
    (s.bind id name v).scope other =
      if id = other ∧ other < s.scopes.size then (s.scope other).insert name v
      else s.scope other := by
  unfold scope bind
  dsimp only
  rw [Array.getElem?_modify]
  by_cases hid : id = other
  · by_cases hlt : other < s.scopes.size
    · simp [hid, hlt]
    · simp [hid, hlt]
  · simp [hid]

@[simp] theorem size_bind (s : Store) (id : ScopeId) (name : String) (v : Value) :
    (s.bind id name v).scopes.size = s.scopes.size :=
  Array.size_modify

@[simp] theorem size_define (s : Store) (chain : Chain) (name : String) (v : Value) :
    (s.define chain name v).scopes.size = s.scopes.size := by
  cases chain with
  | nil => rfl
  | cons id outer => exact size_bind s id name v

theorem scope_newScope (s : Store) (bindings : Table Value) (id : ScopeId) :
    (s.newScope bindings).2.scope id = if id = s.scopes.size then bindings else s.scope id := by
  unfold scope newScope
  dsimp only
  rw [Array.getElem?_push]
  split
  · rfl
  · rfl

@[simp] theorem newScope_fst (s : Store) (bindings : Table Value) :
    (s.newScope bindings).1 = s.scopes.size := rfl

@[simp] theorem size_newScope (s : Store) (bindings : Table Value) :
    (s.newScope bindings).2.scopes.size = s.scopes.size + 1 :=
  Array.size_push bindings

/-- From one store to another a scope has been opened; no other scope is different. -/
structure Opened (s s' : Store) : Prop where
  size : s'.scopes.size = s.scopes.size + 1
  others : ∀ id ≠ s.scopes.size, s'.scope id = s.scope id

theorem opened_newScope (s : Store) (bindings : Table Value) : s.Opened (s.newScope bindings).2 :=
  ⟨s.size_newScope bindings, fun id hid => by rw [scope_newScope, if_neg hid]⟩

theorem scope_newScope_self (s : Store) (bindings : Table Value) :
    (s.newScope bindings).2.scope s.scopes.size = bindings := by
  rw [scope_newScope, if_pos rfl]

/-- The scope that is opened around a method binds `this` to the object, and nothing else. -/
theorem get?_scope_bindMethod (s : Store) (method : Closure) (object : ObjectRef) (x : String) :
    ((s.bindMethod method object).2.scope s.scopes.size).get? x =
      if "this" = x then some (.object object) else none := by
  let bindings := (Table.empty : Table Value).insert "this" (.object object)
  have hscope : (s.bindMethod method object).2.scope s.scopes.size = bindings :=
    s.scope_newScope_self bindings
  rw [hscope, Table.get?_insert, Table.get?_empty]

/-- No scope that is still to come binds a name. -/
theorem scope_of_size_le {s : Store} {id : ScopeId} (h : s.scopes.size ≤ id) :
    s.scope id = .empty := by
  unfold scope
  rw [Array.getElem?_eq_none h]
  rfl

theorem binds_iff (s : Store) (id : ScopeId) (x : String) :
    s.binds id x = true ↔ ∃ v, (s.scope id).get? x = some v :=
  Option.isSome_iff_exists

/-- What is looked up at a distance is what the scope there binds. -/
theorem lookupAt?_of_getElem? {s : Store} {chain : Chain} {distance : Nat} {id : ScopeId}
    (h : chain[distance]? = some id) (x : String) :
    s.lookupAt? chain distance x = (s.scope id).get? x := by
  unfold lookupAt? binderAt?
  rw [h]
  dsimp only
  split
  · rfl
  · rename_i hunbound
    exact (Option.not_isSome_iff_eq_none.mp hunbound).symm

theorem fieldsOf_setField (s : Store) (object other : ObjectRef) (name : String) (v : Value) :
    (s.setField object name v).fieldsOf other =
      if object.id = other.id ∧ other.id < s.fields.size then (s.fieldsOf other).insert name v
      else s.fieldsOf other := by
  unfold fieldsOf setField
  dsimp only
  rw [Array.getElem?_modify]
  by_cases hid : object.id = other.id
  · by_cases hlt : other.id < s.fields.size
    · simp [hid, hlt]
    · simp [hid, hlt]
  · simp [hid]

theorem fieldsOf_newObject (s : Store) (origin : ClassObject) (other : ObjectRef) :
    (s.newObject origin).2.fieldsOf other =
      if other.id = s.fields.size then .empty else s.fieldsOf other := by
  unfold fieldsOf newObject
  dsimp only
  rw [Array.getElem?_push]
  split
  · rfl
  · rfl

/-! ## Growth -/

/-- The names that no identifier spells. -/
def reserved : List String := ["this", "super"]

theorem this_mem_reserved : "this" ∈ reserved :=
  List.mem_cons_self

theorem super_mem_reserved : "super" ∈ reserved :=
  List.mem_cons_of_mem _ List.mem_cons_self

/-- The scopes of a store have grown. Where only identifiers are written, the reserved words keep
their values. -/
structure Grows (spelled : Prop) (s s' : Store) : Prop where
  size : s.scopes.size ≤ s'.scopes.size
  binds : ∀ id x, s.binds id x = true → s'.binds id x = true
  pins : spelled → ∀ id, ∀ x ∈ reserved, ∀ v, (s.scope id).get? x = some v →
    (s'.scope id).get? x = some v

theorem Grows.of_scopes {spelled : Prop} {s s' : Store} (h : s'.scopes = s.scopes) :
    Grows spelled s s' := by
  obtain ⟨scopes, fields, nextId⟩ := s
  obtain ⟨scopes', fields', nextId'⟩ := s'
  cases h
  exact ⟨Nat.le_refl _, fun _ _ => id, fun _ _ _ _ _ => id⟩

theorem Grows.trans {spelled : Prop} {s s' s'' : Store} (h1 : Grows spelled s s')
    (h2 : Grows spelled s' s'') : Grows spelled s s'' :=
  ⟨Nat.le_trans h1.size h2.size, fun id x h => h2.binds id x (h1.binds id x h),
    fun hs id x hx v h => h2.pins hs id x hx v (h1.pins hs id x hx v h)⟩

theorem binds_bind (s : Store) (id other : ScopeId) (name x : String) (v : Value) :
    (s.bind id name v).binds other x = true ↔
      (id = other ∧ other < s.scopes.size ∧ name = x) ∨ s.binds other x = true := by
  unfold binds
  rw [scope_bind]
  split
  · rename_i h
    rw [Table.contains_insert, Bool.or_eq_true, beq_iff_eq]
    grind
  · grind

theorem binds_define (s : Store) (chain : Chain) (id : ScopeId) (name x : String) (v : Value) :
    (s.define chain name v).binds id x = true ↔
      (chain.head? = some id ∧ id < s.scopes.size ∧ name = x) ∨ s.binds id x = true := by
  cases chain with
  | nil => simp [define]
  | cons first outer =>
    rw [define, binds_bind, List.head?_cons, Option.some_inj]

theorem grows_bind {spelled : Prop} (s : Store) (id : ScopeId) {name : String} (v : Value)
    (h : spelled → name ∉ reserved) : Grows spelled s (s.bind id name v) := by
  refine ⟨Nat.le_of_eq (size_bind s id name v).symm, fun other x hb => ?_, ?_⟩
  · exact (binds_bind s id other name x v).mpr (.inr hb)
  · intro hs other x hx w hw
    have hne : name ≠ x := fun heq => h hs (heq ▸ hx)
    rw [scope_bind]
    split
    · rw [Table.get?_insert, if_neg hne]
      exact hw
    · exact hw

theorem grows_define {spelled : Prop} (s : Store) (chain : Chain) {name : String} (v : Value)
    (h : spelled → name ∉ reserved) : Grows spelled s (s.define chain name v) := by
  cases chain with
  | nil => exact .of_scopes rfl
  | cons id outer => exact s.grows_bind id v h

theorem grows_newScope {spelled : Prop} (s : Store) (bindings : Table Value) :
    Grows spelled s (s.newScope bindings).2 := by
  have hne : ∀ {id : ScopeId} {x : String} {v : Value}, (s.scope id).get? x = some v →
      id ≠ s.scopes.size := by
    rintro id x v h rfl
    rw [scope_of_size_le (Nat.le_refl _)] at h
    cases h
  refine ⟨Nat.le_of_lt (by simp), fun id x hb => ?_, fun _ id x _ v hv => ?_⟩
  · obtain ⟨v, hv⟩ := (s.binds_iff id x).mp hb
    refine (binds_iff _ id x).mpr ⟨v, ?_⟩
    rw [scope_newScope, if_neg (hne hv)]
    exact hv
  · rw [scope_newScope, if_neg (hne hv)]
    exact hv

theorem binds_newScope (s : Store) (bindings : Table Value) (x : String) :
    (s.newScope bindings).2.binds s.scopes.size x = bindings.contains x := by
  unfold binds
  rw [scope_newScope, if_pos rfl]

theorem binds_newScope_ne {s : Store} {id : ScopeId} (h : id ≠ s.scopes.size)
    (bindings : Table Value) (x : String) :
    (s.newScope bindings).2.binds id x = s.binds id x := by
  unfold binds
  rw [scope_newScope, if_neg h]

end Store

/-! ## References -/

theorem Store.binds_of_binder? {s : Store} {x : String} {chain : Chain} {id : ScopeId}
    (h : s.binder? x chain = some id) : s.binds id x = true := by
  induction chain with
  | nil => cases h
  | cons first outer ih =>
    unfold Store.binder? at h
    split at h
    · rename_i hb
      cases h
      exact hb
    · exact ih h

theorem Store.binds_of_binderAt? {s : Store} {chain : Chain} {distance : Nat} {x : String}
    {id : ScopeId} (h : s.binderAt? chain distance x = some id) : s.binds id x = true := by
  unfold Store.binderAt? at h
  split at h
  · split at h
    · rename_i hb
      cases h
      exact hb
    · cases h
  · cases h

/-- What a reference reads or writes is bound. -/
theorem World.binds_of_binder? {w : World} {target : Reference} {id : ScopeId}
    (h : w.binder? target = some id) : w.store.binds id target.name.lexeme = true := by
  unfold World.binder? at h
  split at h
  · exact Store.binds_of_binderAt? h
  · exact Store.binds_of_binder? h

theorem World.read?_of_distance {w : World} {target : Reference} {distance : Nat}
    (h : w.distances.get? target = some distance) :
    w.read? target = w.store.lookupAt? w.chain distance target.name.lexeme := by
  unfold World.read? World.binder?
  rw [h]
  rfl

theorem World.read?_of_global {w : World} {target : Reference} (h : w.distances.get? target = none) :
    w.read? target = (w.store.scope 0).get? target.name.lexeme := by
  unfold World.read? World.binder? Chain.globals
  rw [h]
  dsimp only
  rw [Store.binder?]
  split
  · rfl
  · rename_i hunbound
    exact (Option.not_isSome_iff_eq_none.mp hunbound).symm

end LoxLang
