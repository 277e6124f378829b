import Mathlib
import LoxLang.Proofs.Binding.Parameters
import LoxLang.Proofs.Scope.Initializers

/-!
What a call does with its arguments. The number that a call is checked against is the number of parameters
of the code that will run, also where that is an initializer from far up the superclasses
(`Callable.arity_eq`), and the parameters of a program that was taken are different names wherever its
functions have come to (`Lived.distinct`). So the scope of a body binds every parameter to the argument in
its place and nothing else, and a call with another number of arguments changes nothing
(`calls_bind_arguments`).
-/
namespace LoxLang
set_option autoImplicit false

/-! ## Tables of parameters -/

/-- Names that are all different are bound each to the value in its place. -/
theorem Table.get?_ofList_zip {α : Type} {names : List String} {values : List α}
    (hnodup : names.Nodup) {i : Nat} {x : String} {v : α} (hx : names[i]? = some x)
    (hv : values[i]? = some v) : (ofList (names.zip values)).get? x = some v := by
  have hpair : (x, v) ∈ names.zip values :=
    List.mem_iff_getElem?.mpr ⟨i, List.getElem?_zip_eq_some.mpr ⟨hx, hv⟩⟩
  have hbound := (contains_ofList _ x).mpr (List.mem_map_of_mem hpair)
  obtain ⟨u, hu⟩ := Option.isSome_iff_exists.mp hbound
  -- The pair that is found stands at the same place, where the name is the same.
  obtain ⟨j, hj⟩ := List.mem_iff_getElem?.mp (mem_of_get?_ofList hu)
  obtain ⟨hxj, huj⟩ := List.getElem?_zip_eq_some.mp hj
  have hlt := (List.getElem?_eq_some_iff.mp hx).1
  obtain rfl := (List.getElem?_inj hlt hnodup).mp (hx.trans hxj.symm)
  rw [hu, ← huj, hv]

/-! ## The code of a callable -/

/-- What runs in a call: the function itself, and for a class the initializer of the nearest class that
has one, from the class upward. -/
def Callable.code? : Callable → Option Closure
  | .clock => none
  | .function _ closure => some closure
  | .classObject c => c.lineage.findSome? fun k => k.methods.get? initializerName

def Callable.parameters (callable : Callable) : List Token :=
  match callable.code? with
  | some closure => closure.declaration.params
  | none => []

/-- A call is checked against the number of parameters of what runs. -/
theorem Callable.arity_eq (callable : Callable) : callable.arity = callable.parameters.length := by
  cases callable with
  | clock => rfl
  | function id closure => rfl
  | classObject c =>
    rw [arity, ClassObject.arity, ClassObject.method?_eq_findSome?, parameters, code?]
    cases c.lineage.findSome? fun k => k.methods.get? initializerName <;> rfl

/-! ## Functions with different parameters -/

/-- All functions and methods that are listed, and those of a class in the making, have different
parameters. -/
structure Machine.Distinct (L : Layout) (m : Machine) : Prop where
  frames : ∀ name parent methods, .superclass name parent methods ∈ m.frames →
    ∀ d ∈ methods, d.Distinct
  functions : ∀ (id own : Nat) (closure : Closure), L.callables[id]? = some (.function own closure) →
    closure.declaration.Distinct
  classes : ∀ c, L.HasClass c → ∀ x method, c.methods.get? x = some method →
    method.declaration.Distinct

namespace Machine

/-- Only a class declaration leaves its methods for later. -/
theorem Move.mem_superclass {m m' : Machine} (h : Move m m') {name parent : Token}
    {methods : List FunctionDeclaration} (hmem : .superclass name parent methods ∈ m'.frames) :
    .superclass name parent methods ∈ m.frames ∨
      ∃ target, m.control = .exec (.classDeclaration name (some target) methods) := by
  cases h with
  | defers h =>
    rcases List.mem_cons.mp hmem with rfl | hold
    · cases h
      exact .inr ⟨_, rfl⟩
    · exact .inl hold
  | passes h =>
    rcases List.mem_append.mp hmem with hnew | hold
    · cases h <;> simp at hnew
    · exact .inl (List.mem_cons_of_mem _ hold)
  | enters w body frames => exact .inl ((List.mem_cons.mp hmem).resolve_left Frame.noConfusion)
  | calls h =>
    have hrest := (List.mem_cons.mp hmem).resolve_left Frame.noConfusion
    exact .inl (List.mem_cons_of_mem _ hrest)
  | initializes h =>
    have hrest := (List.mem_cons.mp hmem).resolve_left Frame.noConfusion
    have hrest := (List.mem_cons.mp hrest).resolve_left Frame.noConfusion
    exact .inl (List.mem_cons_of_mem _ hrest)
  | _ => first | exact .inl hmem | exact .inl (List.mem_cons_of_mem _ hmem)

theorem mem_superclass_step {m : Machine} {name parent : Token} {methods : List FunctionDeclaration}
    (hmem : .superclass name parent methods ∈ m.step.frames) :
    .superclass name parent methods ∈ m.frames ∨
      ∃ target, m.control = .exec (.classDeclaration name (some target) methods) := by
  cases hhalted : m.halted with
  | true =>
    rw [step_of_halted hhalted] at hmem
    exact .inl hmem
  | false => exact (move_step hhalted).mem_superclass hmem

section Steps
variable {L L' : Layout} {m : Machine}

theorem Distinct.method? (h : m.Distinct L) (hm : m.Fits L Stmt.Distinct) {c : ClassObject}
    (hc : L.HasClass c) {x : String} {method : Closure} (hmethod : c.method? x = some method) :
    method.declaration.Distinct := by
  obtain ⟨k, hk, hown⟩ := hm.holds.sound.exists_own hc hmethod
  exact h.classes k hk x method hown

theorem Distinct.binds (h : m.Distinct L) (hm : m.Fits L Stmt.Distinct) {method closure : Closure}
    {object : ObjectRef} (hbinds : m.Binds method object closure) :
    closure.declaration.Distinct := by
  have hsound := hm.holds.sound
  cases hbinds with
  | property hfield hmethod =>
    have hdistinct := h.method? hm (hsound.origins _ _ hm.control) hmethod
    exact hdistinct
  | super hparts hmethod =>
    have hdistinct := h.method? hm (hm.holds.has_superParts hparts).1 hmethod
    exact hdistinct

theorem Distinct.declares (h : m.Distinct L) (hm : m.Fits L Stmt.Distinct) {c : ClassObject}
    {methods : List FunctionDeclaration} {chain : Chain} (hdeclares : m.DeclaresClass c methods chain) :
    ∀ d ∈ methods, d.Distinct := by
  cases hdeclares with
  | root w name methods frames => exact hm.control _ (Stmt.mem_parts_self _)
  | heir w name parent methods superclass frames =>
    exact h.frames name parent methods List.mem_cons_self

/-- What a step makes has different parameters. -/
theorem Distinct.step (h : m.Distinct L) (hm : m.Fits L Stmt.Distinct) (hlists : m.Lists L L') :
    m.step.Distinct L' := by
  refine ⟨fun name parent methods hmem => ?_, fun id own closure hlisted => ?_,
    fun c hc x method hmethod => ?_⟩
  · rcases mem_superclass_step hmem with hold | ⟨target, hcontrol⟩
    · exact h.frames name parent methods hold
    · have hcode := hm.control
      rw [hcontrol] at hcode
      exact hcode _ (Stmt.mem_parts_self _)
  · rcases hlists.new id _ hlisted with hold | hmade
    · exact h.functions id own closure hold
    · cases hmade with
      | function w declaration frames => exact hm.control _ (Stmt.mem_parts_self _)
      | method hbinds => exact h.binds hm hbinds
  · rcases hlists.new c.id _ hc with hold | hmade
    · exact h.classes c hold x method hmethod
    · cases hmade with
      | classObject hdeclares =>
        rw [hdeclares.methods_eq] at hmethod
        obtain ⟨d, hd, heq⟩ := List.mem_map.mp (Table.mem_of_get?_ofList hmethod)
        cases heq
        exact h.declares hm hdeclares d hd

end Steps

end Machine

/-- In every state of a session all functions and methods have different parameters, since its programs
were surveyed without faults. -/
theorem Lived.distinct {admits : Token → Prop} {nextId : Nat} {m : Machine} {h : History}
    (hl : Lived admits nextId m h) : ∃ L, m.Fits L Stmt.Distinct ∧ m.Distinct L := by
  refine hl.fits_with (P := fun L _ m => m.Distinct L) (fun _ _ => distinct_of_survey) ?_ ?_ ?_
  · exact fun _ _ => ⟨fun _ _ _ hmem => absurd hmem List.not_mem_nil,
      fun _ _ _ hlisted => absurd hlisted (Option.some_ne_none _).symm,
      fun _ hc => absurd hc (Option.some_ne_none _).symm⟩
  · exact fun hm hlists hdistinct => hdistinct.step hm hlists
  · exact fun _ _ _ hdistinct => ⟨fun _ _ _ hmem => absurd hmem List.not_mem_nil, hdistinct.functions,
      hdistinct.classes⟩

/-! ## Evaluating the arguments -/

theorem World.evaluate?_value {fuel : Nat} {w w' : World} {e : Expr} {v : Value} :
    w.evaluate? fuel e = some (.ok v, w') ↔
      Machine.run fuel ⟨w, .eval e, []⟩ = ⟨w', .value v, []⟩ := by
  unfold evaluate?
  generalize Machine.run fuel ⟨w, .eval e, []⟩ = m
  obtain ⟨world, c, frames⟩ := m
  cases c <;> cases frames <;> simp [Machine.outcome?, and_comm]

/-- Expressions come to values one after the other, each in the world that the one before has left. -/
inductive World.EvaluatesAll : World → List Expr → List Value → World → Prop
  | nil (w : World) : EvaluatesAll w [] [] w
  | cons {fuel : Nat} {w mid w' : World} {e : Expr} {rest : List Expr} {v : Value}
    {values : List Value} : w.evaluate? fuel e = some (.ok v, mid) → EvaluatesAll mid rest values w' →
    EvaluatesAll w (e :: rest) (v :: values) w'

/-- With one more value a frame has a callee and some arguments; some expressions for others are left. -/
inductive Frame.Collects : Frame → Value → Value → Token → List Value → List Expr → Prop
  | callee (v : Value) (paren : Token) (rest : List Expr) :
    Collects (.callee paren rest) v v paren [] rest
  | argument (callee v : Value) (paren : Token) (before : List Value) (rest : List Expr) :
    Collects (.argument callee paren before rest) v callee paren (before ++ [v]) rest

namespace Machine
variable {frame : Frame} {v callee : Value} {paren : Token} {before arguments : List Value}

theorem step_of_collects {rest : List Expr} (h : frame.Collects v callee paren before rest) (w : World)
    (frames : List Frame) : step ⟨w, .value v, frame :: frames⟩ =
      evalArguments w callee paren before rest frames := by
  cases h <;> rfl

theorem applies_of_collects (h : frame.Collects v callee paren before []) :
    frame.Applies v callee before := by
  cases h with
  | callee => exact .callee paren _
  | argument => exact .argument _ paren _ _

/-- A value is computed for a frame. -/
theorem exists_run_eval {fuel : Nat} {w w' : World} {e : Expr} {u : Value}
    (h : w.evaluate? fuel e = some (.ok u, w')) (frames : List Frame) :
    ∃ n, run n ⟨w, .eval e, frames⟩ = ⟨w', .value u, frames⟩ :=
  exists_run_lift frames (World.evaluate?_value.mp h) rfl

/-- The arguments are collected one after the other. -/
theorem exists_run_collects {w w' : World} {es : List Expr} (h : w.EvaluatesAll es arguments w')
    (hcollects : frame.Collects v callee paren before es) (frames : List Frame) :
    ∃ n u frame', run n ⟨w, .value v, frame :: frames⟩ = ⟨w', .value u, frame' :: frames⟩ ∧
      frame'.Collects u callee paren (before ++ arguments) [] := by
  induction h generalizing v frame before with
  | nil w =>
    rw [List.append_nil]
    exact ⟨0, v, frame, rfl, hcollects⟩
  | @cons fuel w mid w' e rest u values heval hrest ih =>
    obtain ⟨n, hn⟩ := exists_run_eval heval (.argument callee paren before rest :: frames)
    obtain ⟨k, last, frame', hk, hlast⟩ := ih (.argument callee u paren before rest)
    rw [List.append_assoc, List.singleton_append] at hlast
    refine ⟨n + k + 1, last, frame', ?_, hlast⟩
    rw [run_succ, step_of_collects hcollects, evalArguments, run_add, hn, hk]

/-! ## Entering a body -/

end Machine

/-- A table binds each of some parameters, which are different names, to the argument in its place and
nothing else. -/
structure Table.Assigns (t : Table Value) (params : List Token) (arguments : List Value) : Prop where
  count : arguments.length = params.length
  distinct : (params.map Token.lexeme).Nodup
  bound : ∀ (i : Nat) (param : Token) (v : Value), params[i]? = some param → arguments[i]? = some v →
    t.get? param.lexeme = some v
  only : ∀ x, t.contains x = true → x ∈ params.map Token.lexeme

theorem Table.assigns_ofList {params : List Token} {arguments : List Value}
    (hcount : arguments.length = params.length) (hdistinct : (params.map Token.lexeme).Nodup) :
    (ofList ((params.map Token.lexeme).zip arguments)).Assigns params arguments := by
  refine ⟨hcount, hdistinct, fun i param v hparam hv => ?_, fun x hx => ?_⟩
  · refine get?_ofList_zip hdistinct ?_ hv
    rw [List.getElem?_map, hparam]
    rfl
  · obtain ⟨⟨name, v⟩, hpair, rfl⟩ := List.mem_map.mp ((contains_ofList _ x).mp hx)
    exact (List.of_mem_zip hpair).1

/-- An object has been made for an initializer: from one world to another it has been allocated, without
fields, and a scope has been opened that binds `this` to it and nothing else. -/
structure World.Prepares (w w' : World) (object : ObjectRef) : Prop where
  id : object.id = w.store.fields.size
  fields : w'.store.fields = w.store.fields.push .empty
  opened : w.store.Opened w'.store
  this : ∀ x, (w'.store.scope w.store.scopes.size).get? x =
    if "this" = x then some (.object object) else none
  nextId : w'.store.nextId = w.store.nextId
  rest : w' = { w with store := w'.store }

namespace Machine

/-- The body of a closure is about to run for some arguments: from a world a scope has been opened
directly inside those of the closure, which binds the parameters to the arguments. -/
structure StartsBody (w : World) (closure : Closure) (arguments : List Value) (frames : List Frame)
    (m : Machine) : Prop where
  control : m.control = .execAll closure.declaration.body
  frames : m.frames = .call w.chain closure :: frames
  chain : m.world.chain = w.store.scopes.size :: closure.chain
  opened : w.store.Opened m.world.store
  bindings : (m.world.store.scope w.store.scopes.size).Assigns closure.declaration.params arguments
  fields : m.world.store.fields = w.store.fields
  nextId : m.world.store.nextId = w.store.nextId
  rest : m.world = { w with store := m.world.store, chain := m.world.chain, depth := w.depth + 1 }

/-- What a call that is not refused leads to. -/
inductive StartsCall (w : World) (arguments : List Value) (frames : List Frame) :
    Callable → Machine → Prop
  | clock : StartsCall w arguments frames .clock
    ⟨w.readClock.2, .value (.number w.readClock.1), frames⟩
  | function {id : Nat} {closure : Closure} {m : Machine} : StartsBody w closure arguments frames m →
    StartsCall w arguments frames (.function id closure) m
  | object {c : ClassObject} : (Callable.classObject c).code? = none →
    StartsCall w arguments frames (.classObject c)
      ⟨(w.onStore (·.newObject c)).2, .value (.object ⟨w.store.fields.size, c⟩), frames⟩
  | initializer {c : ClassObject} {init : Closure} {w' : World} {m : Machine} :
    (Callable.classObject c).code? = some init → w.Prepares w' ⟨w.store.fields.size, c⟩ →
    StartsBody w' ⟨init.declaration, w.store.scopes.size :: init.chain, init.isInitializer⟩ arguments
      (.construct ⟨w.store.fields.size, c⟩ :: frames) m → StartsCall w arguments frames (.classObject c) m

section Entering
variable {arguments : List Value}

theorem startsBody_enterBody (w : World) {closure : Closure}
    (hcount : arguments.length = closure.declaration.params.length)
    (hdistinct : closure.declaration.Distinct) (frames : List Frame) :
    StartsBody w closure arguments frames (enterBody w closure arguments frames) := by
  let bindings := Table.ofList ((closure.declaration.params.map Token.lexeme).zip arguments)
  refine ⟨rfl, rfl, rfl, w.store.opened_newScope bindings, ?_, rfl, rfl, rfl⟩
  change ((w.store.newScope bindings).2.scope w.store.scopes.size).Assigns _ _
  rw [Store.scope_newScope_self]
  exact Table.assigns_ofList hcount hdistinct

theorem startsCall_construct (w : World) {c : ClassObject}
    (hcount : arguments.length = (Callable.classObject c).parameters.length)
    (hdistinct : ∀ init, c.method? initializerName = some init → init.declaration.Distinct)
    (frames : List Frame) :
    StartsCall w arguments frames (.classObject c) (construct w c arguments frames) := by
  have hcode : (Callable.classObject c).code? = c.method? initializerName :=
    (c.method?_eq_findSome? initializerName).symm
  cases hmethod : c.method? initializerName with
  | none =>
    rw [construct_none hmethod]
    exact .object (hcode.trans hmethod)
  | some init =>
    rw [construct_some hmethod]
    rw [Callable.parameters, hcode, hmethod] at hcount
    let object : ObjectRef := ⟨w.store.fields.size, c⟩
    let made := (w.onStore (·.newObject c)).2
    let bound := (made.onStore (·.bindMethod init object)).2
    let closure := (made.onStore (·.bindMethod init object)).1
    have hopened := made.store.opened_newScope (Table.empty.insert "this" (.object object))
    have hprepares : w.Prepares bound object :=
      ⟨rfl, rfl, ⟨hopened.size, hopened.others⟩, made.store.get?_scope_bindMethod init object, rfl, rfl⟩
    have hparams : arguments.length = closure.declaration.params.length := hcount
    have hdifferent : closure.declaration.Distinct := hdistinct init hmethod
    exact .initializer (hcode.trans hmethod) hprepares
      (startsBody_enterBody bound hparams hdifferent (.construct object :: frames))

end Entering

end Machine

/-- Consider a call in a program that was taken, whose callee and arguments are evaluated without a fault.
If the number of arguments is not that of the parameters, the next step is the fault with the two numbers,
and nothing else is different. Otherwise, unless there are too many calls in progress, the next step enters
the body, in a new scope that binds the parameters to the arguments. -/
theorem calls_bind_arguments {admits : Token → Prop} {nextId : Nat} {w w₁ w₂ : World} {h : History}
    {callee : Expr} {paren : Token} {es : List Expr} {frames : List Frame} {fuel : Nat}
    {callable : Callable} {arguments : List Value}
    (hl : Lived admits nextId ⟨w, .eval (.call callee paren es), frames⟩ h)
    (hcallee : w.evaluate? fuel callee = some (.ok (.callable callable), w₁))
    (harguments : w₁.EvaluatesAll es arguments w₂) :
    ∃ n v frame, Machine.run n ⟨w, .eval (.call callee paren es), frames⟩ =
        ⟨w₂, .value v, frame :: frames⟩ ∧
      frame.Applies v (.callable callable) arguments ∧
      (arguments.length ≠ callable.parameters.length →
        Machine.step ⟨w₂, .value v, frame :: frames⟩ = ⟨w₂, .fault
          ⟨.arityMismatch callable.parameters.length arguments.length, paren.line⟩, frames⟩) ∧
      (arguments.length = callable.parameters.length → w₂.depth < callDepthLimit →
        Machine.StartsCall w₂ arguments frames callable
          (Machine.step ⟨w₂, .value v, frame :: frames⟩)) := by
  obtain ⟨n, hn⟩ := Machine.exists_run_eval hcallee (.callee paren es :: frames)
  obtain ⟨k, v, frame, hk, hcollects⟩ :=
    Machine.exists_run_collects harguments (.callee (.callable callable) paren es) frames
  rw [List.nil_append] at hcollects
  have hrun : Machine.run (n + k + 1) ⟨w, .eval (.call callee paren es), frames⟩ =
      ⟨w₂, .value v, frame :: frames⟩ := by
    rw [Machine.run_succ, Machine.run_add]
    exact (congrArg (Machine.run k) hn).trans hk
  have happlies := Machine.applies_of_collects hcollects
  have hlived := hl.run (n + k + 1)
  rw [hrun] at hlived
  obtain ⟨L, hfits, hdistinct⟩ := hlived.distinct
  have hlisted : L.HasValue (.callable callable) :=
    (Machine.has_applies happlies (hfits.frames _ List.mem_cons_self) hfits.control).1
  have hstep : Machine.step ⟨w₂, .value v, frame :: frames⟩ =
      Machine.apply w₂ (.callable callable) paren arguments frames :=
    Machine.step_of_collects hcollects w₂ frames
  rw [Machine.apply, callable.arity_eq] at hstep
  refine ⟨_, v, frame, hrun, happlies, fun hcount => ?_, fun hcount hdepth => ?_⟩
  · rw [hstep, if_pos hcount]
    rfl
  · rw [hstep, if_neg (not_not.mpr hcount), if_neg (Nat.not_le.mpr hdepth)]
    cases callable with
    | clock => exact .clock
    | function id closure =>
      exact .function (Machine.startsBody_enterBody w₂ hcount (hdistinct.functions id id closure hlisted)
        frames)
    | classObject c =>
      exact Machine.startsCall_construct w₂ hcount (fun init => hdistinct.method? hfits hlisted)
        frames

/-- The initializer that a class inherits, with two parameters. -/
theorem calls_bind_arguments_of_inherited :
    let name (lexeme : String) : Token := ⟨.identifier, lexeme, 1⟩
    let word (keyword : Keyword) : Token := ⟨.keyword keyword, "", 1⟩
    let sign (symbol : Symbol) : Token := ⟨.symbol symbol, "", 1⟩
    let tokens := [word .classWord, name "A", sign .leftBrace, name "init", sign .leftParen, name "x",
      sign .comma, name "y", sign .rightParen, sign .leftBrace, sign .rightBrace, sign .rightBrace,
      word .classWord, name "B", sign .less, name "A", sign .leftBrace, sign .rightBrace,
      name "B", sign .leftParen, word .nilWord, sign .comma, word .trueWord, sign .rightParen,
      sign .semicolon, .endOn 1]
    let init : FunctionDeclaration := ⟨name "init", [name "x", name "y"], []⟩
    let program : List Stmt := [.classDeclaration (name "A") none [init],
      .classDeclaration (name "B") (some (.variable ⟨0, name "A"⟩)) [],
      .expression (.call (.variable ⟨1, name "B"⟩) (sign .rightParen)
        [.literal .nil, .literal (.bool true)])]
    ∃ s n, (Session.fresh (.ofRoom none) (.standing 0)).loadTokens tokens = (s, some program) ∧
      let m := (s.world.program program).run n
      m.control = .execAll init.body ∧ ∃ id outer, m.world.chain = id :: outer ∧
        (m.world.store.scope id).get? "x" = some .nil ∧
        (m.world.store.scope id).get? "y" = some (.bool true) := by
  intro name word sign tokens init program
  let s : Session := ⟨.fresh (.ofRoom none) (.standing 0), .empty, 2⟩
  have hload : (Session.fresh (.ofRoom none) (.standing 0)).loadTokens tokens =
      (s, some program) := by cbv
  let a : ClassObject := ⟨0, "A", none, Machine.methodTable .globals [init]⟩
  let b : ClassObject := ⟨1, "B", some a, Machine.methodTable [1, 0] []⟩
  let w := (Machine.run 10 (s.world.program program)).world
  have hcall : Machine.run 10 (s.world.program program) = ⟨w, .eval (.call (.variable ⟨1, name "B"⟩)
      (sign .rightParen) [.literal .nil, .literal (.bool true)]), [.discard, .sequence []]⟩ := by rfl
  have hl : Lived (fun _ => True) _ _ _ := Lived.of_load (fun _ _ => trivial) hload 10
  rw [hcall] at hl
  have hcallee : w.evaluate? 1 (.variable ⟨1, name "B"⟩) =
      some (.ok (.callable (.classObject b)), w) := by rfl
  have hliteral : ∀ l, w.evaluate? 1 (.literal l) = some (.ok (.ofLiteral l), w) := fun _ => rfl
  have harguments : w.EvaluatesAll [.literal .nil, .literal (.bool true)] [.nil, .bool true] w :=
    .cons (hliteral .nil) (.cons (hliteral (.bool true)) (.nil w))
  obtain ⟨n, v, frame, hrun, -, -, henters⟩ := calls_bind_arguments hl hcallee harguments
  have hentered := henters rfl (by decide)
  have hcode : (Callable.classObject b).code? = some ⟨init, .globals, true⟩ := by rfl
  have hstep : (s.world.program program).run (10 + n + 1) =
      Machine.step ⟨w, .value v, [frame, .discard, .sequence []]⟩ := by
    rw [Machine.run_succ_last, Machine.run_add, hcall, hrun]
  refine ⟨s, 10 + n + 1, hload, ?_⟩
  dsimp only
  rw [hstep]
  generalize Machine.step ⟨w, .value v, [frame, .discard, .sequence []]⟩ = m at hentered ⊢
  cases hentered with
  | object hnone => exact absurd (hcode.symm.trans hnone) (Option.some_ne_none _)
  | initializer hinit _ hstarts =>
    cases hcode.symm.trans hinit
    exact ⟨hstarts.control, _, _, hstarts.chain, hstarts.bindings.bound 0 _ _ rfl rfl,
      hstarts.bindings.bound 1 _ _ rfl rfl⟩

end LoxLang
