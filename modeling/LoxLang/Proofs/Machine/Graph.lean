import LoxLang.Proofs.Machine.Layout

/-!
The object graph of a running program is well-founded where it has to be. `Layout.follow` goes from one
place to the next along links until it finds something, as scopes are searched outward and classes
upward; on a sound layout it comes to an end from wherever it starts, and to what the chain of scopes or
the class itself says (`Layout.Grounded`, `Layout.GroundedClass`). `object_graph_grounded` says that all
states that an interpreter can come to have such a layout.
-/
namespace LoxLang
set_option autoImplicit false

namespace Layout

/-! ## Following links -/

/-- Looks somewhere, and then where the next link leads, in at most `fuel` places; if these are not
enough, nothing is known. -/
def follow {α : Type} (next : Nat → Option Nat) (look : Nat → Option α) :
    (fuel : Nat) → Nat → Option (Option α)
  | 0, _ => none
  | fuel + 1, id =>
    match look id with
    | some found => some (some found)
    | none =>
      match next id with
      | some outer => follow next look fuel outer
      | none => some none

section Links
variable (L : Layout)

/-- The scope that encloses a scope. -/
def outer? (id : ScopeId) : Option ScopeId :=
  L.links[id]?.join

/-- The value of a name, searched from a scope outward. -/
def get? (s : Store) (x : String) (fuel : Nat) (id : ScopeId) : Option (Option Value) :=
  follow L.outer? (fun id => (s.scope id).get? x) fuel id

/-- Overwrites a name, searched from a scope outward. -/
def assign? (s : Store) (x : String) (v : Value) (fuel : Nat) (id : ScopeId) :
    Option (Option Store) :=
  follow L.outer? (fun id => if s.binds id x then some (s.bind id x v) else none) fuel id

/-- The scope some links up from a scope. -/
def ancestor? : (distance : Nat) → ScopeId → Option ScopeId
  | 0, id => some id
  | distance + 1, id => (L.outer? id).bind (ancestor? distance)

/-- The superclass of the class of an identity. -/
def superclass? (id : Nat) : Option Nat :=
  match L.callables[id]? with
  | some (.classObject c) => c.superclass.map ClassObject.id
  | _ => none

/-- The method of a name that the class of an identity has itself. -/
def ownMethod? (name : String) (id : Nat) : Option Closure :=
  match L.callables[id]? with
  | some (.classObject c) => c.methods.get? name
  | _ => none

/-- The method of a name, searched from a class upward. -/
def findMethod? (name : String) (fuel id : Nat) : Option (Option Closure) :=
  follow L.superclass? (L.ownMethod? name) fuel id

end Links

/-! ## Scopes -/

section Scopes
variable {L : Layout} {allowed : Stmt → Prop}

/-- From every scope that was allocated a chain leads outward. -/
theorem Sound.exists_chain (h : L.Sound allowed) {id : ScopeId} (hid : id < L.links.length) :
    ∃ outer, L.HasChain (id :: outer) := by
  induction id using Nat.strongRecOn with
  | ind id ih =>
    have hlink := List.getElem?_eq_getElem hid
    cases hnext : L.links[id] with
    | none =>
      rw [hnext] at hlink
      exact ⟨[], List.cons_ne_nil _ _, hlink, trivial⟩
    | some next =>
      rw [hnext] at hlink
      have hlt := h.outward id next hlink
      obtain ⟨outer, -, hlinks⟩ := ih next hlt (Nat.lt_trans hlt hid)
      exact ⟨next :: outer, List.cons_ne_nil _ _, hlink, hlinks⟩

/-- Outward along a chain the identities of the scopes grow smaller. -/
theorem Sound.descending (h : L.Sound allowed) {chain : Chain} (hchain : L.HasLinks chain) :
    chain.Pairwise (· > ·) := by
  induction chain with
  | nil => exact .nil
  | cons id outer ih =>
    have hrest := ih hchain.2
    refine List.pairwise_cons.mpr ⟨fun later hlater => ?_, hrest⟩
    cases outer with
    | nil => cases hlater
    | cons next outer =>
      have hlt : next < id := h.outward id next hchain.1
      rcases List.mem_cons.mp hlater with rfl | hmem
      · exact hlt
      · exact Nat.lt_trans ((List.pairwise_cons.mp hrest).1 later hmem) hlt

theorem Sound.getLast?_eq (h : L.Sound allowed) {chain : Chain} (hchain : L.HasChain chain) :
    chain.getLast? = some 0 := by
  obtain ⟨hne, hlinks⟩ := hchain
  induction chain with
  | nil => exact absurd rfl hne
  | cons id outer ih =>
    cases outer with
    | nil =>
      obtain rfl := h.only id hlinks.1
      rfl
    | cons next outer =>
      rw [List.getLast?_cons_cons]
      exact ih (List.cons_ne_nil _ _) hlinks.2

/-- A search along the links looks at the scopes of the chain one after the other, and never needs to
look at more scopes than were allocated by then. -/
theorem Sound.follow_eq (h : L.Sound allowed) {α : Type} (look : ScopeId → Option α) {id : ScopeId}
    {outer : Chain} (hchain : L.HasLinks (id :: outer)) {fuel : Nat} (hfuel : id < fuel) :
    follow L.outer? look fuel id = some ((id :: outer).findSome? look) := by
  -- Along the chain the identity stays below the fuel that is left, since each link makes it smaller.
  induction outer generalizing id fuel with
  | nil =>
    cases fuel with
    | zero => exact absurd hfuel (Nat.not_lt_zero id)
    | succ fuel =>
      have hnext : L.outer? id = none := by
        rw [outer?, hchain.1]
        rfl
      rw [follow, hnext, List.findSome?_cons]
      cases look id <;> rfl
  | cons next outer ih =>
    cases fuel with
    | zero => exact absurd hfuel (Nat.not_lt_zero id)
    | succ fuel =>
      have hnext : L.outer? id = some next := by
        rw [outer?, hchain.1]
        rfl
      have hlt : next < id := h.outward id next hchain.1
      rw [follow, hnext, List.findSome?_cons]
      cases look id with
      | some found => rfl
      | none => exact ih hchain.2 (Nat.lt_of_lt_of_le hlt (Nat.le_of_lt_succ hfuel))

theorem lookup?_eq_findSome? (s : Store) (x : String) (chain : Chain) :
    s.lookup? chain x = chain.findSome? fun id => (s.scope id).get? x := by
  unfold Store.lookup?
  induction chain with
  | nil => rfl
  | cons id outer ih =>
    rw [Store.binder?, List.findSome?_cons]
    split
    · rename_i hbinds
      obtain ⟨v, hv⟩ := (s.binds_iff id x).mp hbinds
      rw [Store.valueIn?, hv]
    · rename_i hunbound
      rw [ih, Option.not_isSome_iff_eq_none.mp hunbound]

theorem assign?_eq_findSome? (s : Store) (x : String) (v : Value) (chain : Chain) :
    s.assign? chain x v =
      chain.findSome? fun id => if s.binds id x then some (s.bind id x v) else none := by
  unfold Store.assign?
  induction chain with
  | nil => rfl
  | cons id outer ih =>
    rw [Store.binder?, List.findSome?_cons]
    split
    · rfl
    · exact ih

theorem ancestor?_eq {id : ScopeId} {outer : Chain} (hchain : L.HasLinks (id :: outer))
    (distance : Nat) : L.ancestor? distance id = (id :: outer)[distance]? := by
  induction distance generalizing id outer with
  | zero => rfl
  | succ distance ih =>
    rw [ancestor?, outer?, hchain.1, List.getElem?_cons_succ]
    cases outer with
    | nil => rfl
    | cons next outer => exact ih hchain.2

/-- The links from a scope lead to the global one, never to a scope twice; the searches along them come
to an end, with the results that they have on the chain of these scopes. -/
structure Grounded (L : Layout) (s : Store) (id : ScopeId) (outer : Chain) : Prop where
  chain : L.HasChain (id :: outer)
  descending : (id :: outer).Pairwise (· > ·)
  globals : (id :: outer).getLast? = some 0
  get : ∀ x, L.get? s x (id + 1) id = some (s.lookup? (id :: outer) x)
  assign : ∀ x v, L.assign? s x v (id + 1) id = some (s.assign? (id :: outer) x v)
  ancestor : ∀ distance, L.ancestor? distance id = (id :: outer)[distance]?

theorem Sound.grounded (h : L.Sound allowed) (s : Store) {id : ScopeId} (hid : id < L.links.length) :
    ∃ outer, L.Grounded s id outer := by
  obtain ⟨outer, hchain⟩ := h.exists_chain hid
  refine ⟨outer, hchain, h.descending hchain.2, h.getLast?_eq hchain, fun x => ?_, fun x v => ?_,
    ancestor?_eq hchain.2⟩
  · rw [lookup?_eq_findSome?]
    exact h.follow_eq _ hchain.2 (Nat.lt_succ_self id)
  · rw [assign?_eq_findSome?]
    exact h.follow_eq _ hchain.2 (Nat.lt_succ_self id)

theorem Holds.grounded {s : Store} (h : L.Holds allowed s) {id : ScopeId}
    (hid : id < s.scopes.size) : ∃ outer, L.Grounded s id outer :=
  h.sound.grounded s (Nat.lt_of_lt_of_eq hid h.scopes.symm)

end Scopes

end Layout

/-! ## Classes -/

/-- A class and the classes that it inherits from. -/
def ClassObject.lineage : ClassObject → List ClassObject
  | ⟨id, name, none, methods⟩ => [⟨id, name, none, methods⟩]
  | ⟨id, name, some superclass, methods⟩ =>
    ⟨id, name, some superclass, methods⟩ :: superclass.lineage

namespace Layout
variable {L : Layout} {allowed : Stmt → Prop}

theorem HasClass.superclass?_eq {c : ClassObject} (hc : L.HasClass c) :
    L.superclass? c.id = c.superclass.map ClassObject.id := by
  rw [superclass?, hc]

theorem HasClass.ownMethod?_eq {c : ClassObject} (hc : L.HasClass c) (name : String) :
    L.ownMethod? name c.id = c.methods.get? name := by
  rw [ownMethod?, hc]

/-- The superclasses of a class are finitely many and all of them different, and the search for a method
along them comes to an end, with the method of the class. -/
structure GroundedClass (L : Layout) (c : ClassObject) : Prop where
  allocated : ∀ ancestor ∈ c.lineage, L.HasClass ancestor
  descending : (c.lineage.map ClassObject.id).Pairwise (· > ·)
  method : ∀ name, L.findMethod? name (c.id + 1) c.id = some (c.method? name)

theorem Sound.follow_method? (h : L.Sound allowed) {c : ClassObject} (hc : L.HasClass c)
    (name : String) {fuel : Nat} (hfuel : c.id < fuel) :
    L.findMethod? name fuel c.id = some (c.method? name) := by
  -- A superclass was declared before the class, so its identity is the smaller one.
  induction hid : c.id using Nat.strongRecOn generalizing c fuel with
  | ind id ih =>
    subst hid
    have hdeclared := h.classes c.id c hc
    have hsuper := hc.superclass?_eq
    have hown := hc.ownMethod?_eq name
    cases fuel with
    | zero => exact absurd hfuel (Nat.not_lt_zero c.id)
    | succ fuel =>
      obtain ⟨id, cname, superclass, methods⟩ := c
      rw [findMethod?, follow, hown, hsuper]
      cases superclass with
      | none =>
        rw [ClassObject.method?]
        dsimp only [Option.map]
        cases methods.get? name <;> rfl
      | some parent =>
        obtain ⟨hparent, hlt⟩ := hdeclared.superclass parent rfl
        have hrest := ih parent.id hlt hparent (Nat.lt_of_lt_of_le hlt (Nat.le_of_lt_succ hfuel)) rfl
        rw [ClassObject.method?]
        dsimp only [Option.map]
        cases methods.get? name with
        | some method => rfl
        | none => exact hrest

theorem Sound.lineage_grounded (h : L.Sound allowed) {c : ClassObject} (hc : L.HasClass c) :
    (∀ ancestor ∈ c.lineage, L.HasClass ancestor ∧ ancestor.id ≤ c.id) ∧
      (c.lineage.map ClassObject.id).Pairwise (· > ·) := by
  induction hid : c.id using Nat.strongRecOn generalizing c with
  | ind id ih =>
    subst hid
    have hdeclared := h.classes c.id c hc
    obtain ⟨id, cname, superclass, methods⟩ := c
    cases superclass with
    | none => exact ⟨List.forall_mem_singleton.mpr ⟨hc, Nat.le_refl _⟩, List.pairwise_singleton _ _⟩
    | some parent =>
      obtain ⟨hparent, hlt⟩ := hdeclared.superclass parent rfl
      obtain ⟨hbelow, hpairwise⟩ := ih parent.id hlt hparent rfl
      refine ⟨List.forall_mem_cons.mpr ⟨⟨hc, Nat.le_refl _⟩, fun ancestor hmem => ?_⟩,
        List.pairwise_cons.mpr ⟨fun later hlater => ?_, hpairwise⟩⟩
      · obtain ⟨hancestor, hle⟩ := hbelow ancestor hmem
        exact ⟨hancestor, Nat.le_trans hle (Nat.le_of_lt hlt)⟩
      · obtain ⟨ancestor, hmem, rfl⟩ := List.mem_map.mp hlater
        exact Nat.lt_of_le_of_lt (hbelow ancestor hmem).2 hlt

theorem Sound.groundedClass (h : L.Sound allowed) {c : ClassObject} (hc : L.HasClass c) :
    L.GroundedClass c := by
  obtain ⟨hbelow, hpairwise⟩ := h.lineage_grounded hc
  exact ⟨fun ancestor hmem => (hbelow ancestor hmem).1, hpairwise,
    fun name => h.follow_method? hc name (Nat.lt_succ_self c.id)⟩

end Layout

/-! ## What an interpreter can come to -/

namespace Machine

/-- An interpreter can come to a machine, with the states that it has left: from a fresh one it runs
programs of allowed statements, and evaluates expressions, one after the other, with any distances. -/
inductive Reachable (allowed : Stmt → Prop) : Machine → List Machine → Prop
  | fresh (sink : Sink) (clock : Clock) :
    Reachable allowed ⟨.fresh sink clock, .done .normal, []⟩ []
  | step {m : Machine} {past : List Machine} : Reachable allowed m past →
    Reachable allowed m.step (m :: past)
  | program {m : Machine} {past : List Machine} (distances : Distances) {program : List Stmt} :
    Reachable allowed m past → m.halted = true → (∀ s ∈ Stmt.partsAll program, allowed s) →
    Reachable allowed ({ m.world with distances }.program program) past
  | expression {m : Machine} {past : List Machine} (distances : Distances) (e : Expr) :
    Reachable allowed m past → m.halted = true →
    Reachable allowed ⟨{ m.world with distances }, .eval e, []⟩ past

/-- The links of a layout are those that were made when the scopes were opened. -/
def Linked (L : Layout) (past : List Machine) : Prop :=
  ∀ id link, L.links[id]? = some link → (id = 0 ∧ link = none) ∨
    ∃ m ∈ past, ∃ origin outer, m.Opens origin id outer ∧ link = outer.head?

theorem Reachable.run {allowed : Stmt → Prop} {m : Machine} {past : List Machine}
    (h : m.Reachable allowed past) (n : Nat) :
    (m.run n).Reachable allowed (m.trail n ++ past) := by
  induction n generalizing m past with
  | zero => exact h
  | succ n ih =>
    have hrest := ih h.step
    rw [run_succ, trail, List.append_assoc]
    exact hrest

theorem eq_of_link {id : ScopeId} {link : Option ScopeId}
    (h : ([none] : List (Option ScopeId))[id]? = some link) : id = 0 ∧ link = none := by
  rw [List.getElem?_singleton] at h
  split at h
  · rename_i hid
    cases h
    exact ⟨hid, rfl⟩
  · cases h

theorem fits_fresh (allowed : Stmt → Prop) (sink : Sink) (clock : Clock) :
    Fits ⟨[none], [], []⟩ allowed ⟨.fresh sink clock, .done .normal, []⟩ := by
  refine ⟨⟨⟨rfl, fun id h => (eq_of_link h).1, fun id outer h => ?_, fun id origin h => ?_,
    fun id own closure h => ?_, fun id c h => ?_⟩, rfl, rfl, rfl, fun id x v hv => ?_,
    fun object x v hv => ?_⟩, ⟨List.cons_ne_nil _ _, rfl, trivial⟩, trivial, List.forall_mem_nil _⟩
  · cases (eq_of_link h).2
  · cases h
  · cases h
  · cases h
  · cases id with
    | zero =>
      change (Table.empty.insert "clock" (Value.callable .clock)).get? x = some v at hv
      rw [Table.get?_insert] at hv
      split at hv
      · cases hv
        trivial
      · cases hv
    | succ id => cases hv
  · cases hv

theorem Reachable.fits {allowed : Stmt → Prop} {m : Machine} {past : List Machine}
    (h : m.Reachable allowed past) : ∃ L, m.Fits L allowed ∧ Linked L past := by
  induction h with
  | fresh sink clock =>
    exact ⟨_, fits_fresh allowed sink clock, fun id link hid => .inl (eq_of_link hid)⟩
  | @step m past h ih =>
    obtain ⟨L, hfits, hlinked⟩ := ih
    have hlater : Linked L (m :: past) := by
      intro id link hid
      rcases hlinked id link hid with hglobals | ⟨m', hm', hopens⟩
      · exact .inl hglobals
      · exact .inr ⟨m', List.mem_cons_of_mem m hm', hopens⟩
    cases hhalted : m.halted with
    | true =>
      rw [step_of_halted hhalted]
      exact ⟨L, hfits, hlater⟩
    | false =>
      obtain ⟨L', -, hfits', hopened⟩ := move_fits (move_step hhalted) rfl hfits
      refine ⟨L', hfits', fun id link hid => ?_⟩
      rcases hopened id link hid with hold | hnew
      · exact hlater id link hold
      · exact .inr ⟨m, List.mem_cons_self, hnew⟩
  | program distances h hhalted hprogram ih =>
    obtain ⟨L, hfits, hlinked⟩ := ih
    exact ⟨L, ⟨hfits.holds, hfits.chain, hprogram, List.forall_mem_nil _⟩, hlinked⟩
  | expression distances e h hhalted ih =>
    obtain ⟨L, hfits, hlinked⟩ := ih
    exact ⟨L, ⟨hfits.holds, hfits.chain, trivial, List.forall_mem_nil _⟩, hlinked⟩

end Machine

/-- In every state that an interpreter can come to, whatever it holds has been allocated; from every
scope the links that were made when the scopes were opened lead to the global one, and from every class
the superclasses upward, without coming to a place twice; and the searches along them come to an end. -/
theorem object_graph_grounded {m : Machine} {past : List Machine}
    (h : m.Reachable (fun _ => True) past) :
    ∃ L : Layout, m.Fits L (fun _ => True) ∧ Machine.Linked L past ∧
      (∀ id < m.world.store.scopes.size, ∃ outer, L.Grounded m.world.store id outer) ∧
      ∀ c, L.HasClass c → L.GroundedClass c := by
  obtain ⟨L, hfits, hlinked⟩ := h.fits
  exact ⟨L, hfits, hlinked, fun id hid => hfits.holds.grounded hid,
    fun c hc => hfits.holds.sound.groundedClass hc⟩

/-- An object that refers to itself, and in it a method that is bound to it. -/
theorem object_graph_grounded_of_circle :
    let name (lexeme : String) : Token := ⟨.identifier, lexeme, 1⟩
    let program : List Stmt := [
      .classDeclaration (name "A") none [⟨name "m", [], []⟩],
      .variable (name "a") (some (.call (.variable ⟨0, name "A"⟩) (name "a") [])),
      .expression (.set (.variable ⟨1, name "a"⟩) (name "me") (.variable ⟨2, name "a"⟩)),
      .expression (.set (.variable ⟨3, name "a"⟩) (name "f")
        (.get (.variable ⟨4, name "a"⟩) (name "m")))]
    let m := Machine.run 60 ((World.fresh (.ofRoom none) (.standing 0)).program program)
    let object : ObjectRef := ⟨0, ⟨0, "A", none, Machine.methodTable .globals [⟨name "m", [], []⟩]⟩⟩
    let refers (found : Option Value) : Bool := found.any (Value.equals (.object object))
    (m.halted = true ∧ refers ((m.world.store.scope 0).get? "a") = true ∧
      refers ((m.world.store.fieldsOf object).get? "me") = true ∧
      (m.world.store.fieldsOf object).contains "f" = true ∧
      refers ((m.world.store.scope 1).get? "this") = true) ∧
    ∃ L : Layout, m.Fits L (fun _ => True) ∧
      (∀ id < m.world.store.scopes.size, ∃ outer, L.Grounded m.world.store id outer) ∧
      ∀ c, L.HasClass c → L.GroundedClass c := by
  intro name program m object refers
  have hreached : m.Reachable (fun _ => True) _ :=
    Machine.Reachable.run (.program .empty (.fresh (.ofRoom none) (.standing 0)) rfl
      fun _ _ => trivial) 60
  obtain ⟨L, hfits, -, hscopes, hclasses⟩ := object_graph_grounded hreached
  exact ⟨by decide +kernel, L, hfits, hscopes, hclasses⟩

end LoxLang
