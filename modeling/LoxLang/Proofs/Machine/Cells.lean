import LoxLang.Proofs.Machine.Search

/-!
What a write to a tree of scopes changes. A write that succeeds gives one cell, a name in a scope, its
value (`ScopeTree.WritesCell`); one that fails gives none. Scopes are shared, so what can be seen of a
write is said of all of them at once: a search finds the new value if the scope written is now the
nearest one with a binding, and otherwise what it found before (`write_touches_one_cell`).
-/
namespace LoxLang
set_option autoImplicit false

theorem Store.lt_size_of_binds {s : Store} {id : ScopeId} {x : String} (h : s.binds id x = true) :
    id < s.scopes.size := by
  refine Nat.lt_of_not_le fun hle => ?_
  obtain ⟨v, hv⟩ := (s.binds_iff id x).mp h
  rw [scope_of_size_le hle] at hv
  exact absurd hv (Option.some_ne_none v).symm

/-- The name and the value that an action writes. -/
def ScopeAction.cell? : ScopeAction → Option (String × Value)
  | .child => none
  | .define name v => some (name, v)
  | .assign name v => some (name.lexeme, v)
  | .assignAt _ name v => some (name.lexeme, v)

namespace ScopeTree

/-- The scope that an action writes to: a declaration the one it is made in, an assignment the nearest
one with a binding, and an indexed assignment the one at the distance, if that has a binding. -/
inductive Targets (t : ScopeTree) (id : ScopeId) : ScopeAction → ScopeId → Prop
  | define (name : String) (v : Value) : Targets t id (.define name v) id
  | assign {name : Token} {distance : Nat} {binder : ScopeId} (v : Value) :
    t.NearestAt id name.lexeme distance binder → Targets t id (.assign name v) binder
  | assignAt {distance : Nat} {name : Token} {binder : ScopeId} (v : Value) :
    t.BindsAt id name.lexeme distance binder → Targets t id (.assignAt distance name v) binder

/-- From one tree to another a name has been given a value in a scope, and nothing else is different. -/
structure WritesCell (t t' : ScopeTree) (scope : ScopeId) (x : String) (v : Value) : Prop where
  links : t'.links = t.links
  size : t'.store.scopes.size = t.store.scopes.size
  cell : (t'.store.scope scope).get? x = some v
  others : ∀ other y, other ≠ scope ∨ y ≠ x →
    (t'.store.scope other).get? y = (t.store.scope other).get? y

section Writes
variable {t t' : ScopeTree} {id scope : ScopeId} {outer : Chain} {action : ScopeAction} {x : String}
  {v : Value}

/-! ## The cell that is written -/

theorem writesCell_bind (h : scope < t.store.scopes.size) (x : String) (v : Value) :
    t.WritesCell { t with store := t.store.bind scope x v } scope x v := by
  refine ⟨rfl, t.store.size_bind scope x v, ?_, fun other y hother => ?_⟩
  · dsimp only
    rw [Store.scope_bind, if_pos ⟨rfl, h⟩, Table.get?_insert, if_pos rfl]
  · dsimp only
    rw [Store.scope_bind]
    split
    · rename_i hsame
      have hname : x ≠ y := fun hxy => hother.elim (fun hne => hne hsame.1.symm)
        (fun hne => hne hxy.symm)
      rw [Table.get?_insert, if_neg hname]
    · rfl

/-- An action writes to its target, or there is none and it fails. -/
theorem act_cases (hchain : t.layout.HasChain (id :: outer))
    (hcell : action.cell? = some (x, v)) :
    (∃ scope, t.Targets id action scope ∧ t.act (id :: outer) action =
      (.ok (), { t with store := t.store.bind scope x v })) ∨
    ((∀ scope, ¬t.Targets id action scope) ∧ ∃ f, t.act (id :: outer) action = (.error f, t)) := by
  cases action with
  | child => cases hcell
  | define name u =>
    cases hcell
    exact .inl ⟨id, .define x v, rfl⟩
  | assign name u =>
    cases hcell
    cases hsearch : t.store.binder? name.lexeme (id :: outer) with
    | some binder =>
      obtain ⟨distance, hnearest⟩ := (binder?_eq_some_iff hchain).mp hsearch
      refine .inl ⟨binder, .assign v hnearest, ?_⟩
      rw [act, Store.assign?, hsearch]
      rfl
    | none =>
      refine .inr ⟨fun scope htarget => ?_, _, (misses_of_binder? hsearch).assign v⟩
      cases htarget with
      | assign _ hnearest =>
        have hfound := (binder?_eq_some_iff hchain).mpr ⟨_, hnearest⟩
        exact absurd (hfound.symm.trans hsearch) (Option.some_ne_none scope)
  | assignAt distance name u =>
    cases hcell
    cases hindex : t.store.binderAt? (id :: outer) distance name.lexeme with
    | some binder =>
      exact .inl ⟨binder, .assignAt v ((binderAt?_eq_some_iff hchain).mp hindex),
        (indexesIn_of_binderAt? hindex).assignAt v⟩
    | none =>
      refine .inr ⟨fun scope htarget => ?_, _, assignAt_of_binderAt?_eq_none hindex v⟩
      cases htarget with
      | assignAt _ hbinds => exact (binderAt?_eq_none_iff hchain).mp hindex scope hbinds

theorem Targets.lt_size (h : t.Targets id action scope) (hid : id < t.store.scopes.size) :
    scope < t.store.scopes.size := by
  cases h with
  | define name v => exact hid
  | assign v hnearest => exact Store.lt_size_of_binds hnearest.1.2
  | assignAt v hbinds => exact Store.lt_size_of_binds hbinds.2

/-! ## What is seen of it -/

theorem WritesCell.layout_eq (h : t.WritesCell t' scope x v) : t'.layout = t.layout := by
  rw [layout, layout, h.links]

/-- A search finds the new value if it ends in the scope written. -/
theorem WritesCell.lookup?_self (h : t.WritesCell t' scope x v) {chain : Chain}
    (hsearch : t'.store.binder? x chain = some scope) : t'.store.lookup? chain x = some v :=
  (Store.lookup?_of_binder? hsearch).trans h.cell

/-- A search that does not end in the cell finds what it found before. -/
theorem WritesCell.lookup?_other (h : t.WritesCell t' scope x v) {y : String} {chain : Chain}
    (hother : t'.store.binder? y chain ≠ some scope ∨ y ≠ x) :
    t'.store.lookup? chain y = t.store.lookup? chain y := by
  rw [Layout.lookup?_eq_findSome?, Layout.lookup?_eq_findSome?]
  -- The scopes up to the one in which the search ends are other ones, or have other names read.
  induction chain with
  | nil => rfl
  | cons first outer ih =>
    rw [List.findSome?_cons, List.findSome?_cons]
    cases hget : (t'.store.scope first).get? y with
    | some u =>
      have hbinder : t'.store.binder? y (first :: outer) = some first :=
        if_pos ((t'.store.binds_iff first y).mpr ⟨u, hget⟩)
      have hcell : first ≠ scope ∨ y ≠ x :=
        hother.imp_left fun hne hsame => hne (hbinder.trans (congrArg some hsame))
      rw [← h.others first y hcell, hget]
    | none =>
      have hcell : first ≠ scope ∨ y ≠ x := by
        by_cases hname : y = x
        · refine .inl fun hsame => ?_
          subst hsame hname
          exact absurd (h.cell.symm.trans hget) (Option.some_ne_none v)
        · exact .inr hname
      have hrest : t'.store.binder? y (first :: outer) = t'.store.binder? y outer :=
        if_neg fun hbinds => by
          obtain ⟨u, hu⟩ := (t'.store.binds_iff first y).mp hbinds
          exact absurd (hu.symm.trans hget) (Option.some_ne_none u)
      rw [← h.others first y hcell, hget]
      exact ih (hrest ▸ hother)

end Writes

end ScopeTree

/-- In every tree of scopes, a declaration or an assignment from any scope that succeeds has written one
cell, and all other cells and the links are as they were; if it fails there is no scope to write to, and
the tree is as it was. After it a search for the name from any scope has the new value if the nearest
binding is in the scope written; all other searches have the result that they had. -/
theorem write_touches_one_cell {t : ScopeTree} (ht : t.Built) {id : ScopeId} {outer : Chain}
    (hchain : t.layout.HasChain (id :: outer)) {action : ScopeAction} {x : String} {v : Value}
    (hcell : action.cell? = some (x, v)) {result : Except RuntimeFault Unit} {t' : ScopeTree}
    (hact : t.act (id :: outer) action = (result, t')) :
    (result = .ok () → ∃ scope, t.Targets id action scope ∧ t.WritesCell t' scope x v ∧
      ∀ other inner, t'.layout.HasChain (other :: inner) → ∀ name : Token,
        (name.lexeme = x → (∃ distance, t'.NearestAt other x distance scope) →
          t'.get (other :: inner) name = .ok v) ∧
        (name.lexeme ≠ x ∨ (¬∃ distance, t'.NearestAt other x distance scope) →
          t'.get (other :: inner) name = t.get (other :: inner) name)) ∧
    ∀ f, result = .error f → (∀ scope, ¬t.Targets id action scope) ∧ t' = t := by
  have hid : id < t.store.scopes.size :=
    Nat.lt_of_lt_of_eq (Layout.lt_of_getElem? hchain.2.1) ht.sound.2
  rcases t.act_cases hchain hcell with ⟨scope, htarget, hwrites⟩ | ⟨hnone, f, hfails⟩
  · cases hact.symm.trans hwrites
    refine ⟨fun _ => ⟨scope, htarget, ?_⟩, fun f hf => by cases hf⟩
    have hcells := t.writesCell_bind (htarget.lt_size hid) x v
    refine ⟨hcells, fun other inner hother name => ⟨fun hname hnearest => ?_, fun hmiss => ?_⟩⟩
    · have hsearch := (ScopeTree.binder?_eq_some_iff hother).mpr hnearest
      rw [ScopeTree.get, hname, hcells.lookup?_self hsearch, ScopeTree.resolved]
    · rw [ScopeTree.get, ScopeTree.get, hcells.lookup?_other]
      by_cases hname : name.lexeme = x
      · have hmissed := hmiss.resolve_left fun hne => hne hname
        exact .inl fun hsearch => hmissed ((ScopeTree.binder?_eq_some_iff hother).mp (hname ▸ hsearch))
      · exact .inr hname
  · cases hact.symm.trans hfails
    exact ⟨fun hok => (by cases hok), fun _ _ => ⟨hnone, rfl⟩⟩

/-- A write past a scope that does not bind the name is seen from there and from the scope written, and
not from a scope that declares the name itself. -/
theorem write_touches_one_cell_past_scope :
    let a : Token := ⟨.identifier, "a", 1⟩
    let globals := (ScopeTree.root.act .globals (.define "a" .nil)).2
    let children := ((globals.act .globals .child).2.act .globals .child).2
    let t := (children.act [1, 0] (.define "a" (.bool false))).2
    let t' := (t.act [2, 0] (.assign a (.bool true))).2
    t.Built ∧ t.WritesCell t' 0 "a" (.bool true) ∧ t'.get [2, 0] a = .ok (.bool true) ∧
      t'.get [1, 0] a = t.get [1, 0] a := by
  intro a globals children t t'
  have hglobals : t.layout.HasChain [0] := ⟨List.cons_ne_nil _ _, rfl, trivial⟩
  have hfirst : t.layout.HasChain [1, 0] := ⟨List.cons_ne_nil _ _, rfl, hglobals.2⟩
  have hsecond : t.layout.HasChain [2, 0] := ⟨List.cons_ne_nil _ _, rfl, hglobals.2⟩
  have hbuilt : t.Built :=
    .act _ (.act .child (.act .child (.act _ .root hglobals) hglobals) hglobals) hfirst
  have hact : t.act [2, 0] (.assign a (.bool true)) = (.ok (), t') := rfl
  obtain ⟨hwrites, -⟩ := write_touches_one_cell hbuilt hsecond rfl hact
  obtain ⟨scope, htarget, hcells, hsearches⟩ := hwrites rfl
  have hscope : scope = 0 := by
    cases htarget with
    | assign _ hnearest =>
      have hsearch := (ScopeTree.binder?_eq_some_iff hsecond).mpr ⟨_, hnearest⟩
      exact Option.some.inj (hsearch.symm.trans (by decide))
  subst hscope
  have hfirst' : t'.layout.HasChain [1, 0] := hcells.layout_eq ▸ hfirst
  have hsecond' : t'.layout.HasChain [2, 0] := hcells.layout_eq ▸ hsecond
  refine ⟨hbuilt, hcells, ?_, ?_⟩
  · exact (hsearches 2 [0] hsecond' a).1 rfl
      ((ScopeTree.binder?_eq_some_iff hsecond').mp (by decide))
  · refine (hsearches 1 [0] hfirst' a).2 (.inr fun hnearest => ?_)
    have hsearch := (ScopeTree.binder?_eq_some_iff hfirst').mpr hnearest
    exact absurd hsearch (by decide)

end LoxLang
