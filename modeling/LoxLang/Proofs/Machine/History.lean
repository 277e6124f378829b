import LoxLang.Proofs.Binding.Enclosure
import LoxLang.Proofs.Machine.Restoration
import LoxLang.Proofs.Machine.Scopes

/-!
What has happened in a session. `Machine.Opens` says that a machine is about to open a scope, and
what for; a `History` holds the programs that were taken and the states that were left, and `Lived`
relates it to the state that is reached. Sources come one after the other, whether the earlier ones
were refused, ended with a fault or came to their end, and with any diagnostics reset in between.
-/
namespace LoxLang
set_option autoImplicit false

/-! ## Why scopes are opened -/

/-- What a scope is opened for. -/
inductive Origin where
  /-- The execution of a block. -/
  | block (body : List Stmt)
  /-- A call of a function or method. -/
  | call (declaration : FunctionDeclaration)
  /-- The binding of a method to an object. -/
  | binding (method : FunctionDeclaration) (object : ObjectRef)
  /-- The declaration of a class whose superclass clause has come to a class. -/
  | inheritance (name : Token) (methods : List FunctionDeclaration) (superclass : ClassObject)

/-- The text that a scope belongs to. -/
def Origin.region : Origin → Region
  | .block body => .block body
  | .call declaration => .body declaration
  | .binding method _ => .receiver method
  | .inheritance name methods _ => .ancestry name methods

namespace Machine

/-- The next step opens a scope for some reason, with an identity and inside a chain. -/
inductive Opens : Machine → Origin → ScopeId → Chain → Prop
  | block (w : World) (frames : List Frame) (body : List Stmt) :
    Opens ⟨w, .exec (.block body), frames⟩ (.block body) w.store.scopes.size w.chain
  | call {m : Machine} {w : World} {closure : Closure} {arguments : List Value}
    {frames : List Frame} : m.world.store.scopes.size ≤ w.store.scopes.size →
    m.step = enterBody w closure arguments frames →
    Opens m (.call closure.declaration) w.store.scopes.size closure.chain
  /-- A method is read from an object. -/
  | property {w : World} {frames : List Frame} {object : ObjectRef} {name : Token}
    {method : Closure} : (w.store.fieldsOf object).get? name.lexeme = none →
    object.origin.method? name.lexeme = some method →
    Opens ⟨w, .value (.object object), .get name :: frames⟩ (.binding method.declaration object)
      w.store.scopes.size method.chain
  /-- A method of the superclass is read. -/
  | super {w : World} {frames : List Frame} {keyword : Reference} {name : Token}
    {superclass : ClassObject} {object : ObjectRef} {method : Closure} :
    superParts w keyword = .ok (superclass, object) →
    superclass.method? name.lexeme = some method →
    Opens ⟨w, .eval (.superMethod keyword name), frames⟩ (.binding method.declaration object)
      w.store.scopes.size method.chain
  /-- The initializer of a new object is called. -/
  | initializer {m : Machine} {w : World} {object : ObjectRef} {method : Closure}
    {arguments : List Value} {frames : List Frame} :
    m.world.store.scopes.size ≤ w.store.scopes.size →
    object.origin.method? initializerName = some method →
    m.step = enterBody (w.onStore (·.bindMethod method object)).2
      (w.onStore (·.bindMethod method object)).1 arguments (.construct object :: frames) →
    Opens m (.binding method.declaration object) w.store.scopes.size method.chain
  | inheritance (w : World) (frames : List Frame) (name parent : Token)
    (methods : List FunctionDeclaration) (superclass : ClassObject) :
    Opens ⟨w, .value (.callable (.classObject superclass)), .superclass name parent methods :: frames⟩
      (.inheritance name methods superclass) w.store.scopes.size w.chain

/-- A scope that is opened was not there before, and is there from then on. -/
theorem Opens.creates {m : Machine} {origin : Origin} {id : ScopeId} {outer : Chain}
    (h : m.Opens origin id outer) :
    m.world.store.scopes.size ≤ id ∧ id < m.step.world.store.scopes.size := by
  cases h with
  | block w frames body => exact ⟨Nat.le_refl _, by simp [step, stepExec, Store.newScope]⟩
  | call hsize hstep => exact ⟨hsize, by rw [hstep]; simp [enterBody, Store.newScope]⟩
  | property hfield hmethod =>
    refine ⟨Nat.le_refl _, ?_⟩
    simp [step, stepValue, readProperty, World.onStore, Store.property?, hfield, hmethod,
      Store.newMethod, Store.bindMethod, Store.newScope, Store.newFunction, Store.newIdentity]
  | super hparts hmethod =>
    refine ⟨Nat.le_refl _, ?_⟩
    simp [step, stepEval, readSuper, hparts, hmethod, World.onStore, Store.newMethod,
      Store.bindMethod, Store.newScope, Store.newFunction, Store.newIdentity]
  | @initializer _ w object method arguments frames hsize hmethod hstep =>
    refine ⟨hsize, ?_⟩
    have hsize : m.step.world.store.scopes.size = w.store.scopes.size + 1 + 1 := by
      rw [hstep]
      simp [enterBody, Store.bindMethod, Store.newScope]
    exact Nat.lt_of_lt_of_eq (Nat.lt_succ_of_lt (Nat.lt_succ_self _)) hsize.symm
  | inheritance w frames name parent methods superclass =>
    refine ⟨Nat.le_refl _, ?_⟩
    simp [step, stepValue, declareClass, complete, World.onStore, Store.newScope, Store.newIdentity]

/-- What a step opens that enters a body: the scope of the call, or before that the scope in which an
initializer is bound to its object. -/
theorem Opens.of_enterBody {m : Machine} {origin : Origin} {id : ScopeId} {outer : Chain}
    (h : m.Opens origin id outer) {w : World} {closure : Closure} {arguments : List Value}
    {frames : List Frame} (hstep : m.step = enterBody w closure arguments frames) :
    (origin = .call closure.declaration ∧ outer = closure.chain ∧ id = w.store.scopes.size) ∨
      ∃ object rest, frames = .construct object :: rest ∧
        origin = .binding closure.declaration object ∧ closure.chain = id :: outer ∧
        id < w.store.scopes.size := by
  have hsame : ∀ {w' closure' arguments' frames'}, m.step = enterBody w' closure' arguments' frames' →
      closure' = closure ∧ frames' = frames ∧ w'.store.scopes.size = w.store.scopes.size := by
    intro w' closure' arguments' frames' hstep'
    have hmachine := hstep'.symm.trans hstep
    have hframes := congrArg Machine.frames hmachine
    have hsize := congrArg (fun m => m.world.store.scopes.size) hmachine
    simp only [enterBody, World.enterScope, Store.newScope, Array.size_push, List.cons.injEq,
      Frame.call.injEq] at hframes hsize
    exact ⟨hframes.1.2, hframes.2, Nat.succ.inj hsize⟩
  cases h with
  | call hsize hcall =>
    obtain ⟨rfl, -, heq⟩ := hsame hcall
    exact .inl ⟨rfl, rfl, heq⟩
  | initializer hsize hmethod hinit =>
    obtain ⟨rfl, rfl, heq⟩ := hsame hinit
    refine .inr ⟨_, _, rfl, rfl, rfl, ?_⟩
    rw [← heq]
    exact Nat.lt_of_lt_of_eq (Nat.lt_succ_self _) (Array.size_push _).symm
  | block w frames body => simp [step, stepExec, enterBody] at hstep
  | property hfield hmethod =>
    simp [step, stepValue, readProperty, World.onStore, Store.property?, hfield, hmethod,
      enterBody] at hstep
  | super hparts hmethod =>
    simp [step, stepEval, readSuper, hparts, hmethod, World.onStore, enterBody] at hstep
  | inheritance w frames name parent methods superclass =>
    simp [step, stepValue, declareClass, complete, World.onStore, enterBody] at hstep

/-- A step opens a scope for one reason only. -/
theorem Opens.unique {m : Machine} {origin origin' : Origin} {id : ScopeId} {outer outer' : Chain}
    (h : m.Opens origin id outer) (h' : m.Opens origin' id outer') :
    origin = origin' ∧ outer = outer' := by
  -- Only a step that enters a body can open two scopes; their identities tell which one is meant.
  by_cases henter : ∃ w closure arguments frames, m.step = enterBody w closure arguments frames
  · obtain ⟨w, closure, arguments, frames, hstep⟩ := henter
    rcases h.of_enterBody hstep with ⟨rfl, rfl, hid⟩ | ⟨object, rest, rfl, rfl, hchain, hlt⟩
    · rcases h'.of_enterBody hstep with ⟨rfl, rfl, -⟩ | ⟨object, rest, -, -, -, hlt⟩
      · exact ⟨rfl, rfl⟩
      · exact absurd hid (Nat.ne_of_lt hlt)
    · rcases h'.of_enterBody hstep with ⟨-, -, hid⟩ | ⟨other, rest', hframes, rfl, hchain', -⟩
      · exact absurd hid (Nat.ne_of_lt hlt)
      · cases hframes
        exact ⟨rfl, (List.cons.inj (hchain.symm.trans hchain')).2⟩
  · generalize id = id' at h'
    cases h with
    | call hsize hstep => exact absurd ⟨_, _, _, _, hstep⟩ henter
    | initializer hsize hmethod hstep => exact absurd ⟨_, _, _, _, hstep⟩ henter
    | block w frames body =>
      cases h' with
      | block => exact ⟨rfl, rfl⟩
      | call _ hstep => exact absurd ⟨_, _, _, _, hstep⟩ henter
      | initializer _ _ hstep => exact absurd ⟨_, _, _, _, hstep⟩ henter
    | property hfield hmethod =>
      cases h' with
      | property _ hmethod' =>
        cases hmethod.symm.trans hmethod'
        exact ⟨rfl, rfl⟩
      | call _ hstep => exact absurd ⟨_, _, _, _, hstep⟩ henter
      | initializer _ _ hstep => exact absurd ⟨_, _, _, _, hstep⟩ henter
    | super hparts hmethod =>
      cases h' with
      | super hparts' hmethod' =>
        cases hparts.symm.trans hparts'
        cases hmethod.symm.trans hmethod'
        exact ⟨rfl, rfl⟩
      | call _ hstep => exact absurd ⟨_, _, _, _, hstep⟩ henter
      | initializer _ _ hstep => exact absurd ⟨_, _, _, _, hstep⟩ henter
    | inheritance w frames name parent methods superclass =>
      cases h' with
      | inheritance => exact ⟨rfl, rfl⟩
      | call _ hstep => exact absurd ⟨_, _, _, _, hstep⟩ henter
      | initializer _ _ hstep => exact absurd ⟨_, _, _, _, hstep⟩ henter

/-- The states before each of some steps, the latest first. -/
def trail : Nat → Machine → List Machine
  | 0, _ => []
  | n + 1, m => trail n m.step ++ [m]

end Machine

/-! ## Loading -/

theorem Session.loadTokens_some {s s' : Session} {tokens : List Token} {program : List Stmt}
    (h : s.loadTokens tokens = (s', some program)) :
    programOfItems (programItems tokens s.nextId).1 = .ok program ∧
      s'.nextId = (programItems tokens s.nextId).2 ∧
      ∃ entries, survey program = .ok entries ∧ s'.world = s.world.record entries := by
  unfold Session.loadTokens at h
  dsimp only at h
  split at h
  · cases h
  · rename_i program' hprogram
    split at h
    · cases h
    · split at h
      · cases h
      · rename_i entries hentries
        cases h
        exact ⟨hprogram, rfl, entries, hentries, rfl⟩

theorem Session.loadTokens_none {s s' : Session} {tokens : List Token}
    (h : s.loadTokens tokens = (s', none)) :
    s'.nextId = (programItems tokens s.nextId).2 ∧ s'.world = s.world := by
  unfold Session.loadTokens at h
  dsimp only at h
  split at h
  · cases h
    exact ⟨rfl, rfl⟩
  · split at h
    · cases h
      exact ⟨rfl, rfl⟩
    · split at h
      · cases h
        exact ⟨rfl, rfl⟩
      · cases h

/-! ## Histories -/

/-- The programs that a session has taken, and the states that its machine has left, each with the
latest first. -/
structure History where
  programs : List (List Stmt)
  left : List Machine

/-- A session can come to a next identity and a machine with some history, all tokens being
admitted. Between two sources the log can be anything. -/
inductive Lived (admits : Token → Prop) : Nat → Machine → History → Prop
  | fresh (sink : Sink) (clock : Clock) :
    Lived admits 0 ⟨.fresh sink clock, .done .normal, []⟩ ⟨[], []⟩
  | step {nextId : Nat} {m : Machine} {h : History} : Lived admits nextId m h →
    Lived admits nextId m.step ⟨h.programs, m :: h.left⟩
  | load {nextId : Nat} {m : Machine} {h : History} {log : Log} {tokens : List Token} {s : Session}
    {program : List Stmt} : Lived admits nextId m h → m.halted = true →
    (∀ t ∈ tokens, admits t) →
    (Session.mk m.world log nextId).loadTokens tokens = (s, some program) →
    Lived admits s.nextId (s.world.program program) ⟨program :: h.programs, h.left⟩
  | refuse {nextId : Nat} {m : Machine} {h : History} {log : Log} {tokens : List Token}
    {s : Session} : Lived admits nextId m h → m.halted = true →
    (∀ t ∈ tokens, admits t) →
    (Session.mk m.world log nextId).loadTokens tokens = (s, none) →
    Lived admits s.nextId ⟨s.world, .done .normal, []⟩ h

/-- A session goes through the states of a run. -/
theorem Lived.run {admits : Token → Prop} {nextId : Nat} {m : Machine} {h : History}
    (hl : Lived admits nextId m h) (n : Nat) :
    Lived admits nextId (m.run n) ⟨h.programs, m.trail n ++ h.left⟩ := by
  induction n generalizing m h with
  | zero => exact hl
  | succ n ih =>
    have hrest := ih hl.step
    rw [Machine.run_succ, Machine.trail, List.append_assoc]
    exact hrest

/-- The first program of a session on its way. -/
theorem Lived.of_load {admits : Token → Prop} {sink : Sink} {clock : Clock} {tokens : List Token}
    {s : Session} {program : List Stmt} (hadmits : ∀ t ∈ tokens, admits t)
    (hload : (Session.fresh sink clock).loadTokens tokens = (s, some program)) (n : Nat) :
    Lived admits s.nextId ((s.world.program program).run n)
      ⟨[program], (s.world.program program).trail n⟩ := by
  have hl := (Lived.load (.fresh sink clock) rfl hadmits hload).run n
  rw [List.append_nil] at hl
  exact hl

/-- Between the runs of a session its machine has come to its end. -/
def Session.Idle (admits : Token → Prop) (s : Session) : Prop :=
  ∃ m h, Lived admits s.nextId m h ∧ m.halted = true ∧ m.world = s.world

theorem Session.idle_fresh (admits : Token → Prop) (sink : Sink) (clock : Clock) :
    (Session.fresh sink clock).Idle admits :=
  ⟨_, _, .fresh sink clock, rfl, rfl⟩

/-- Runs of sources are among what a session can come to. -/
theorem Session.Idle.run? {admits : Token → Prop} {s s' : Session} (hs : s.Idle admits) {fuel : Nat}
    {source : List UInt8} (hadmits : ∀ t ∈ (tokenize source).1, admits t)
    (h : s.run? fuel source = some s') : s'.Idle admits := by
  obtain ⟨m, past, hl, hhalted, hworld⟩ := hs
  obtain ⟨world, log, nextId⟩ := s
  subst hworld
  unfold Session.run? at h
  split at h
  · rename_i loaded hload
    cases h
    exact ⟨_, _, hl.refuse hhalted hadmits hload, rfl, rfl⟩
  · rename_i world log' nextId' program hload
    obtain ⟨⟨fault, world'⟩, hrun, rfl⟩ := Option.map_eq_some_iff.mp h
    have hend := hl.load hhalted hadmits hload
    obtain ⟨hend', hlast⟩ := Session.halted_of_interpret? hrun
    exact ⟨_, _, hend.run fuel, hend', hlast⟩

end LoxLang
