import LoxLang.Proofs.Machine.Graph

/-!
Searching for a name and indexing it. A `ScopeTree` is a store with the links between its scopes, and a
`ScopeAction` is what the environments of a program do to it: open a scope inside another one, declare a
name, overwrite one that is searched outward, overwrite one at an exact distance. A scope is held by the
chain of scopes from it outward, as it is everywhere in a running program. In every tree that comes about
in this way searching outward is indexing at the least distance at which the name is bound, and indexing
never looks at another scope (`searching_agrees_with_indexing`).
-/
namespace LoxLang
set_option autoImplicit false

/-! ## The scopes that are found -/

namespace Store

theorem binder?_eq_find? (s : Store) (x : String) (chain : Chain) :
    s.binder? x chain = chain.find? (s.binds · x) := by
  induction chain with
  | nil => rfl
  | cons id outer ih =>
    rw [binder?, List.find?_cons, ih]
    cases s.binds id x <;> rfl

theorem binderAt?_eq_filter (s : Store) (chain : Chain) (distance : Nat) (x : String) :
    s.binderAt? chain distance x = chain[distance]?.filter (s.binds · x) := by
  rw [binderAt?]
  cases chain[distance]? <;> rfl

variable {s : Store} {x : String} {chain : Chain} {id : ScopeId}

theorem binderAt?_eq_some {distance : Nat} :
    s.binderAt? chain distance x = some id ↔ chain[distance]? = some id ∧ s.binds id x = true := by
  rw [binderAt?_eq_filter, Option.filter_eq_some_iff]

/-- A search ends in the first scope of the chain that binds the name. -/
theorem binder?_eq_some :
    s.binder? x chain = some id ↔ ∃ distance, s.binderAt? chain distance x = some id ∧
      ∀ k < distance, s.binderAt? chain k x = none := by
  rw [binder?_eq_find?, List.find?_eq_some_iff_getElem]
  constructor
  · rintro ⟨hbinds, distance, hlt, rfl, hinner⟩
    refine ⟨distance, binderAt?_eq_some.mpr ⟨List.getElem?_eq_getElem hlt, hbinds⟩, fun k hk => ?_⟩
    rw [binderAt?_eq_filter, List.getElem?_eq_getElem (Nat.lt_trans hk hlt), Option.filter_some, if_neg]
    simpa using hinner k hk
  · rintro ⟨distance, hfound, hinner⟩
    obtain ⟨hid, hbinds⟩ := binderAt?_eq_some.mp hfound
    obtain ⟨hlt, heq⟩ := List.getElem?_eq_some_iff.mp hid
    refine ⟨hbinds, distance, hlt, heq, fun k hk => ?_⟩
    have hnone := hinner k hk
    rw [binderAt?_eq_filter, List.getElem?_eq_getElem (Nat.lt_trans hk hlt),
      Option.filter_eq_none_iff] at hnone
    simpa using hnone _ rfl

/-- A search fails if no scope of the chain binds the name. -/
theorem binder?_eq_none :
    s.binder? x chain = none ↔ ∀ distance, s.binderAt? chain distance x = none := by
  simp only [binder?_eq_find?, List.find?_eq_none, binderAt?_eq_filter, Option.filter_eq_none_iff,
    List.mem_iff_getElem?]
  exact ⟨fun h distance id hid => h id ⟨distance, hid⟩, fun h id hid => hid.elim (h · id)⟩

theorem lookup?_of_binder? (h : s.binder? x chain = some id) :
    s.lookup? chain x = (s.scope id).get? x := by
  rw [lookup?, h, valueIn?]

theorem lookupAt?_of_binderAt? {distance : Nat} (h : s.binderAt? chain distance x = some id) :
    s.lookupAt? chain distance x = (s.scope id).get? x := by
  rw [lookupAt?, h, valueIn?]

end Store

/-! ## Trees -/

/-- Scopes, and of each of them the one that encloses it. -/
structure ScopeTree where
  links : List (Option ScopeId)
  store : Store

/-- What is done to a tree from one of its scopes. -/
inductive ScopeAction where
  /-- Opens a scope inside the scope. -/
  | child
  | define (name : String) (value : Value)
  | assign (name : Token) (value : Value)
  | assignAt (distance : Nat) (name : Token) (value : Value)

namespace ScopeTree

/-- A scope that nothing encloses and that binds nothing. -/
def root : ScopeTree :=
  ⟨[none], .ofGlobals .empty⟩

def layout (t : ScopeTree) : Layout :=
  ⟨t.links, [], []⟩

/-- What has been found for a name, or the fault of a name without a binding on a line. -/
def resolved (name : String) (line : Nat) : Option Value → Except RuntimeFault Value
  | some v => .ok v
  | none => .error ⟨.undefinedVariable name, line⟩

def get (t : ScopeTree) (chain : Chain) (name : Token) : Except RuntimeFault Value :=
  resolved name.lexeme name.line (t.store.lookup? chain name.lexeme)

def getAt (t : ScopeTree) (chain : Chain) (distance : Nat) (name : String) (line : Nat) :
    Except RuntimeFault Value :=
  resolved name line (t.store.lookupAt? chain distance name)

/-- Takes over a store in which a name has been overwritten, if it has. -/
def overwrite (t : ScopeTree) (name : Token) : Option Store → Except RuntimeFault Unit × ScopeTree
  | some store => (.ok (), { t with store })
  | none => (.error name.undefined, t)

/-- An action from the scope of a chain, and whether it succeeds. -/
def act (t : ScopeTree) (chain : Chain) : ScopeAction → Except RuntimeFault Unit × ScopeTree
  | .child => (.ok (), ⟨t.links ++ [chain.head?], (t.store.newScope .empty).2⟩)
  | .define name value => (.ok (), { t with store := t.store.define chain name value })
  | .assign name value => t.overwrite name (t.store.assign? chain name.lexeme value)
  | .assignAt distance name value =>
    t.overwrite name (t.store.assignAt? chain distance name.lexeme value)

/-- A tree comes about by actions from its scopes, those that fail among them. -/
inductive Built : ScopeTree → Prop
  | root : Built root
  | act {t : ScopeTree} {chain : Chain} (action : ScopeAction) : Built t → t.layout.HasChain chain →
    Built (t.act chain action).2

/-- The scope some links up from a scope binds a name itself. -/
def BindsAt (t : ScopeTree) (id : ScopeId) (x : String) (distance : Nat) (binder : ScopeId) : Prop :=
  t.layout.ancestor? distance id = some binder ∧ t.store.binds binder x = true

/-- The distance is the least one at which a scope binds a name. -/
def NearestAt (t : ScopeTree) (id : ScopeId) (x : String) (distance : Nat) (binder : ScopeId) : Prop :=
  t.BindsAt id x distance binder ∧ ∀ k < distance, ∀ other, ¬t.BindsAt id x k other

/-! ## What a program does to its tree -/

/-- With a distance a reference is read at that distance from the active scope, and without one it is
searched from the global scope. -/
theorem read_eq_settle (links : List (Option ScopeId)) (w : World) (target : Reference)
    (frames : List Frame) :
    Machine.read w target frames = Machine.settle w frames (match w.distances.get? target with
      | some distance => getAt ⟨links, w.store⟩ w.chain distance target.name.lexeme target.name.line
      | none => get ⟨links, w.store⟩ .globals target.name) := by
  have hread : Machine.read w target frames =
      Machine.settle w frames (resolved target.name.lexeme target.name.line (w.read? target)) := by
    rw [Machine.read]
    cases w.read? target <;> rfl
  rw [hread, World.read?, World.binder?]
  cases w.distances.get? target <;> rfl

/-- The action of a reference that is written, and the chain from which it is taken. -/
def written (w : World) (target : Reference) (v : Value) : Chain × ScopeAction :=
  match w.distances.get? target with
  | some distance => (w.chain, .assignAt distance target.name v)
  | none => (.globals, .assign target.name v)

theorem write_eq_settle (links : List (Option ScopeId)) (w : World) (target : Reference) (v : Value)
    (frames : List Frame) :
    Machine.write w target v frames =
      let (chain, action) := written w target v
      let (result, t) := act ⟨links, w.store⟩ chain action
      Machine.settle { w with store := t.store } frames (result.map fun _ => v) := by
  have hact : (let (chain, action) := written w target v; act ⟨links, w.store⟩ chain action) =
      overwrite ⟨links, w.store⟩ target.name
        (w.store.writeIn? (w.binder? target) target.name.lexeme v) := by
    rw [written, World.binder?]
    cases w.distances.get? target <;> rfl
  dsimp only at hact ⊢
  rw [hact, Machine.write]
  cases w.binder? target <;> rfl

/-! ## What comes about -/

section Trees
variable {t : ScopeTree} {id : ScopeId} {outer : Chain} {x : String}

theorem layout_act (t : ScopeTree) (chain : Chain) {action : ScopeAction} (h : action ≠ .child) :
    (t.act chain action).2.layout = t.layout := by
  cases action with
  | child => exact absurd rfl h
  | define name v => rfl
  | assign name v =>
    rw [act]
    cases t.store.assign? chain name.lexeme v <;> rfl
  | assignAt distance name v =>
    rw [act]
    cases t.store.assignAt? chain distance name.lexeme v <;> rfl

theorem size_overwrite (t : ScopeTree) (name : Token) (binder : Option ScopeId) (v : Value) :
    (t.overwrite name (t.store.writeIn? binder name.lexeme v)).2.store.scopes.size =
      t.store.scopes.size := by
  cases binder with
  | none => rfl
  | some id => exact t.store.size_bind id name.lexeme v

theorem size_act (t : ScopeTree) (chain : Chain) {action : ScopeAction} (h : action ≠ .child) :
    (t.act chain action).2.store.scopes.size = t.store.scopes.size := by
  cases action with
  | child => exact absurd rfl h
  | define name v => exact t.store.size_define chain name v
  | assign name v => exact t.size_overwrite name _ v
  | assignAt distance name v => exact t.size_overwrite name _ v

/-- Links lead to scopes that were opened earlier, and every scope has its link. -/
theorem Built.sound (h : t.Built) :
    t.layout.Sound (fun _ => True) ∧ t.links.length = t.store.scopes.size := by
  induction h with
  | root =>
    exact ⟨⟨rfl, fun id h => (Machine.eq_of_link h).1,
      fun id outer h => absurd (Machine.eq_of_link h).2 (Option.some_ne_none outer),
      fun id origin h => absurd h (Option.some_ne_none origin).symm,
      fun id own closure h => absurd h (Option.some_ne_none _).symm,
      fun id c h => absurd h (Option.some_ne_none _).symm⟩, rfl⟩
  | @act t chain action h hchain ih =>
    obtain ⟨hsound, hlength⟩ := ih
    by_cases haction : action = .child
    · subst haction
      refine ⟨hsound.withScope hchain, ?_⟩
      change (t.links ++ [chain.head?]).length = (t.store.newScope .empty).2.scopes.size
      rw [List.length_append, hlength, Store.size_newScope]
      rfl
    · have hlayout := t.layout_act chain haction
      refine ⟨hlayout ▸ hsound, ?_⟩
      rw [t.size_act chain haction, ← hlength]
      exact congrArg (fun L => L.links.length) hlayout

theorem binderAt?_eq_some_iff (hchain : t.layout.HasChain (id :: outer)) {distance : Nat}
    {binder : ScopeId} :
    t.store.binderAt? (id :: outer) distance x = some binder ↔ t.BindsAt id x distance binder := by
  rw [Store.binderAt?_eq_some, BindsAt, Layout.ancestor?_eq hchain.2]

theorem binderAt?_eq_none_iff (hchain : t.layout.HasChain (id :: outer)) {distance : Nat} :
    t.store.binderAt? (id :: outer) distance x = none ↔ ∀ binder, ¬t.BindsAt id x distance binder := by
  rw [Option.eq_none_iff_forall_ne_some]
  exact forall_congr' fun binder => not_congr (binderAt?_eq_some_iff hchain)

theorem binder?_eq_some_iff (hchain : t.layout.HasChain (id :: outer)) {binder : ScopeId} :
    t.store.binder? x (id :: outer) = some binder ↔ ∃ distance, t.NearestAt id x distance binder := by
  rw [Store.binder?_eq_some]
  exact exists_congr fun distance => and_congr (binderAt?_eq_some_iff hchain)
    (forall_congr' fun k => imp_congr_right fun _ => binderAt?_eq_none_iff hchain)

end Trees

end ScopeTree

/-! ## Searching and indexing -/

namespace ScopeTree

/-- Searching for a name from a scope does what indexing it at a distance does. -/
structure SearchesAt (t : ScopeTree) (chain : Chain) (name : Token) (distance : Nat) : Prop where
  get : t.get chain name = t.getAt chain distance name.lexeme name.line
  assign : ∀ v, t.act chain (.assign name v) = t.act chain (.assignAt distance name v)
  found : ∃ v, t.get chain name = .ok v
  overwritten : ∀ v, (t.act chain (.assign name v)).1 = .ok ()

/-- Neither searching for a name nor indexing it finds a binding, and the tree is left as it is. -/
structure Misses (t : ScopeTree) (chain : Chain) (name : Token) : Prop where
  get : t.get chain name = .error name.undefined
  assign : ∀ v, t.act chain (.assign name v) = (.error name.undefined, t)
  getAt : ∀ distance, t.getAt chain distance name.lexeme name.line = .error name.undefined
  assignAt : ∀ distance v, t.act chain (.assignAt distance name v) = (.error name.undefined, t)

/-- Indexing a name reads and overwrites the binding of one scope. -/
structure IndexesIn (t : ScopeTree) (chain : Chain) (name : Token) (distance : Nat)
    (binder : ScopeId) : Prop where
  getAt : ∃ v, (t.store.scope binder).get? name.lexeme = some v ∧
    t.getAt chain distance name.lexeme name.line = .ok v
  assignAt : ∀ v, t.act chain (.assignAt distance name v) =
    (.ok (), { t with store := t.store.bind binder name.lexeme v })

section Results
variable {t : ScopeTree} {chain : Chain} {name : Token}

theorem searchesAt_of_binder? {distance : Nat} {binder : ScopeId}
    (hsearch : t.store.binder? name.lexeme chain = some binder)
    (hindex : t.store.binderAt? chain distance name.lexeme = some binder) :
    t.SearchesAt chain name distance := by
  obtain ⟨v, hv⟩ := (t.store.binds_iff binder _).mp (Store.binds_of_binder? hsearch)
  have hget : t.get chain name = .ok v := by
    rw [get, Store.lookup?_of_binder? hsearch, hv, resolved]
  have hgetAt : t.getAt chain distance name.lexeme name.line = .ok v := by
    rw [getAt, Store.lookupAt?_of_binderAt? hindex, hv, resolved]
  refine ⟨hget.trans hgetAt.symm, fun u => ?_, ⟨v, hget⟩, fun u => ?_⟩
  · rw [act, act, Store.assign?, Store.assignAt?, hsearch, hindex]
  · rw [act, Store.assign?, hsearch]
    rfl

theorem indexesIn_of_binderAt? {distance : Nat} {binder : ScopeId}
    (hindex : t.store.binderAt? chain distance name.lexeme = some binder) :
    t.IndexesIn chain name distance binder := by
  obtain ⟨v, hv⟩ := (t.store.binds_iff binder _).mp (Store.binds_of_binderAt? hindex)
  refine ⟨⟨v, hv, ?_⟩, fun u => ?_⟩
  · rw [getAt, Store.lookupAt?_of_binderAt? hindex, hv, resolved]
  · rw [act, Store.assignAt?, hindex]
    rfl

theorem getAt_of_binderAt?_eq_none {distance : Nat}
    (hindex : t.store.binderAt? chain distance name.lexeme = none) :
    t.getAt chain distance name.lexeme name.line = .error name.undefined := by
  rw [getAt, Store.lookupAt?, hindex]
  rfl

theorem assignAt_of_binderAt?_eq_none {distance : Nat}
    (hindex : t.store.binderAt? chain distance name.lexeme = none) (v : Value) :
    t.act chain (.assignAt distance name v) = (.error name.undefined, t) := by
  rw [act, Store.assignAt?, hindex]
  rfl

theorem misses_of_binder? (hsearch : t.store.binder? name.lexeme chain = none) :
    t.Misses chain name := by
  have hindex := Store.binder?_eq_none.mp hsearch
  refine ⟨?_, fun v => ?_, fun distance => getAt_of_binderAt?_eq_none (hindex distance),
    fun distance => assignAt_of_binderAt?_eq_none (hindex distance)⟩
  · rw [get, Store.lookup?, hsearch]
    rfl
  · rw [act, Store.assign?, hsearch]
    rfl

end Results

end ScopeTree

/-- In every tree of scopes, from every scope, which is held by the chain along its links: searching for a
name does what indexing it at the least distance with a binding does, and if there is none all four
operations miss it. Indexing succeeds at exactly the distances at which the scope there binds the name,
and it reads and overwrites that binding. -/
theorem searching_agrees_with_indexing {t : ScopeTree} (ht : t.Built) {id : ScopeId}
    (hid : id < t.store.scopes.size) (name : Token) :
    ∃ outer, t.layout.Grounded t.store id outer ∧
      (∀ distance binder, t.NearestAt id name.lexeme distance binder →
        t.SearchesAt (id :: outer) name distance) ∧
      ((¬∃ distance binder, t.NearestAt id name.lexeme distance binder) →
        t.Misses (id :: outer) name) ∧
      ∀ distance,
        (∀ binder, t.BindsAt id name.lexeme distance binder →
          t.IndexesIn (id :: outer) name distance binder) ∧
        ((¬∃ binder, t.BindsAt id name.lexeme distance binder) →
          t.getAt (id :: outer) distance name.lexeme name.line = .error name.undefined ∧
          ∀ v, t.act (id :: outer) (.assignAt distance name v) = (.error name.undefined, t)) := by
  obtain ⟨hsound, hlength⟩ := ht.sound
  obtain ⟨outer, hgrounded⟩ := hsound.grounded t.store (Nat.lt_of_lt_of_eq hid hlength.symm)
  have hchain := hgrounded.chain
  refine ⟨outer, hgrounded, fun distance binder hnearest => ?_, fun hnone => ?_,
    fun distance => ⟨fun binder hbinds => ?_, fun hnone => ?_⟩⟩
  · have hsearch := (ScopeTree.binder?_eq_some_iff hchain).mpr ⟨distance, hnearest⟩
    exact ScopeTree.searchesAt_of_binder? hsearch
      ((ScopeTree.binderAt?_eq_some_iff hchain).mpr hnearest.1)
  · refine ScopeTree.misses_of_binder? (Option.eq_none_iff_forall_ne_some.mpr fun binder hsearch => ?_)
    obtain ⟨distance, hnearest⟩ := (ScopeTree.binder?_eq_some_iff hchain).mp hsearch
    exact hnone ⟨distance, binder, hnearest⟩
  · exact ScopeTree.indexesIn_of_binderAt? ((ScopeTree.binderAt?_eq_some_iff hchain).mpr hbinds)
  · have hindex := (ScopeTree.binderAt?_eq_none_iff hchain).mpr fun binder hbinds =>
      hnone ⟨binder, hbinds⟩
    exact ⟨ScopeTree.getAt_of_binderAt?_eq_none hindex,
      ScopeTree.assignAt_of_binderAt?_eq_none hindex⟩

/-- A global name is found two links up, past a scope that does not bind it. -/
theorem searching_agrees_with_indexing_of_global :
    let a : Token := ⟨.identifier, "a", 1⟩
    let globals := (ScopeTree.root.act .globals (.define "a" (.bool true))).2
    let t := ((globals.act .globals .child).2.act [1, 0] .child).2
    t.Built ∧ 2 < t.store.scopes.size ∧ t.NearestAt 2 "a" 2 0 ∧
      ∃ outer, t.layout.Grounded t.store 2 outer ∧ t.SearchesAt (2 :: outer) a 2 ∧
        t.getAt (2 :: outer) 1 "a" 1 = .error a.undefined := by
  intro a globals t
  have hbuilt : t.Built :=
    .act .child (.act .child (.act _ .root ⟨List.cons_ne_nil _ _, rfl, trivial⟩)
      ⟨List.cons_ne_nil _ _, rfl, trivial⟩) ⟨List.cons_ne_nil _ _, rfl, rfl, trivial⟩
  have hmiddle : ¬∃ binder, t.BindsAt 2 "a" 1 binder := by
    rintro ⟨binder, hancestor, hbinds⟩
    cases hancestor
    exact absurd hbinds (by decide)
  have hnearest : t.NearestAt 2 "a" 2 0 := by
    refine ⟨⟨rfl, by decide⟩, fun k hk other hinner => ?_⟩
    obtain rfl | rfl : k = 0 ∨ k = 1 := by omega
    · obtain ⟨hancestor, hbinds⟩ := hinner
      cases hancestor
      exact absurd hbinds (by decide)
    · exact hmiddle ⟨other, hinner⟩
  obtain ⟨outer, hgrounded, hsearch, -, hindex⟩ :=
    searching_agrees_with_indexing hbuilt (by decide : 2 < t.store.scopes.size) a
  exact ⟨hbuilt, by decide, hnearest, outer, hgrounded, hsearch 2 0 hnearest,
    ((hindex 1).2 hmiddle).1⟩

end LoxLang
