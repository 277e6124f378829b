import LoxLang.Proofs.Machine.Graph

/-!
Overriding, inside the body of a class and along its superclasses. In one body the last declaration of a
name counts (`Machine.get?_methodTable`), and among classes the nearest one that has the name. Looking a
method up from a class upward is therefore looking it up in one table, which results from those of the
root, of its heir and so on when each overrides what was there before (`ClassObject.method?_eq_flattened`).
-/
namespace LoxLang
set_option autoImplicit false

/-! ## Tables -/

namespace Table
variable {α β : Type}

/-- The names of two tables; of two values for one name that of the second table counts. -/
def overriddenBy (t u : Table α) : Table α :=
  u.entries.foldr (fun (name, value) t => t.insert name value) t

theorem get?_overriddenBy (t u : Table α) (x : String) :
    (t.overriddenBy u).get? x = (u.get? x).or (t.get? x) := by
  obtain ⟨entries⟩ := u
  unfold overriddenBy get?
  dsimp only
  induction entries with
  | nil => rfl
  | cons entry rest ih =>
    obtain ⟨name, value⟩ := entry
    have hinsert := get?_insert (rest.foldr (fun (name, value) t => t.insert name value) t) name x value
    rw [get?, get?, ih] at hinsert
    rw [List.foldr_cons, hinsert, find?]
    split <;> rfl

/-- Where a table is made of some items, the last of them counts that has a name. -/
theorem get?_ofList_map (key : β → String) (value : β → α) (items : List β) (x : String) :
    (ofList (items.map fun b => (key b, value b))).get? x =
      (items.findRev? fun b => key b == x).map value := by
  have hfold : ∀ t : Table α,
      ((items.map fun b => (key b, value b)).foldl (fun t (name, value) => t.insert name value) t).get?
        x = ((items.findRev? fun b => key b == x).map value).or (t.get? x) := by
    induction items with
    | nil => exact fun _ => rfl
    | cons item rest ih =>
      intro t
      rw [List.map_cons, List.foldl_cons, ih, get?_insert, List.findRev?]
      cases rest.findRev? fun b => key b == x with
      | some later => rfl
      | none => by_cases hname : key item = x <;> simp [hname]
  rw [ofList, hfold, get?_empty, Option.or_none]

end Table

/-! ## Classes -/

/-- The last declaration of a name. -/
def FunctionDeclaration.lastNamed? (x : String) (methods : List FunctionDeclaration) :
    Option FunctionDeclaration :=
  methods.findRev? fun declaration => declaration.name.lexeme == x

theorem Machine.get?_methodTable (chain : Chain) (methods : List FunctionDeclaration) (x : String) :
    (methodTable chain methods).get? x = (FunctionDeclaration.lastNamed? x methods).map
      fun declaration => ⟨declaration, chain, declaration.name.lexeme == initializerName⟩ :=
  Table.get?_ofList_map (fun declaration : FunctionDeclaration => declaration.name.lexeme) _ methods x

namespace ClassObject

/-- The methods of a class and of its superclasses in one table: from the root on each class overrides
what it inherits. -/
def flattened (c : ClassObject) : Table Closure :=
  c.lineage.reverse.foldl (fun inherited k => inherited.overriddenBy k.methods) .empty

/-- A method is that of the nearest class that has one of the name. -/
theorem method?_eq_findSome? (c : ClassObject) (x : String) :
    c.method? x = c.lineage.findSome? fun k => k.methods.get? x := by
  induction c using lineage.induct with
  | case1 id name methods =>
    rw [method?, lineage, List.findSome?_cons, List.findSome?_nil]
    cases methods.get? x <;> rfl
  | case2 id name superclass methods ih =>
    rw [method?, lineage, List.findSome?_cons, ih]
    cases methods.get? x <;> rfl

theorem method?_eq_flattened (c : ClassObject) (x : String) : c.method? x = c.flattened.get? x := by
  rw [method?_eq_findSome?, flattened, List.foldl_reverse]
  induction c.lineage with
  | nil => rfl
  | cons k above ih =>
    rw [List.findSome?_cons, List.foldr_cons, Table.get?_overriddenBy, ← ih]
    cases k.methods.get? x <;> rfl

end ClassObject

/-- The method of a name is one that some class has itself. -/
theorem Layout.Sound.exists_own {L : Layout} {allowed : Stmt → Prop} (h : L.Sound allowed)
    {c : ClassObject} (hc : L.HasClass c) {x : String} {method : Closure}
    (hmethod : c.method? x = some method) : ∃ k, L.HasClass k ∧ k.methods.get? x = some method := by
  rw [ClassObject.method?_eq_findSome?] at hmethod
  obtain ⟨k, hk, hown⟩ := List.exists_of_findSome?_eq_some hmethod
  exact ⟨k, ((h.lineage_grounded hc).1 k hk).1, hown⟩

end LoxLang
