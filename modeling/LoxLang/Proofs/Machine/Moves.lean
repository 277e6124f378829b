import LoxLang.Proofs.Machine.Lifting

/-!
What a step can do, said once. `Machine.Move` lists the steps of a machine that has not come to its
end, each with the conditions under which it is taken, and `move_step` says that there are no others;
what a step keeps is then shown case by case on the list. Most steps leave the world alone: they hand
over to a part of what is done (`Control.Defers`), come to a result at once (`Control.Becomes`) or let
a frame go on with a result (`Frame.Passes`).
-/
namespace LoxLang
set_option autoImplicit false

/-! ## Steps that leave the world alone -/

/-- A control that starts with another one, for which a frame waits. -/
inductive Control.Defers : Control → Control → Frame → Prop
  | unary (operator : Token) (operand : Expr) :
    Defers (.eval (.unary operator operand)) (.eval operand) (.unary operator)
  | binary (left : Expr) (operator : Token) (right : Expr) :
    Defers (.eval (.binary left operator right)) (.eval left) (.binaryLeft operator right)
  | logical (left : Expr) (operator : Token) (right : Expr) :
    Defers (.eval (.logical left operator right)) (.eval left) (.logical operator right)
  | assign (target : Reference) (value : Expr) :
    Defers (.eval (.assign target value)) (.eval value) (.assign target)
  | call (callee : Expr) (paren : Token) (arguments : List Expr) :
    Defers (.eval (.call callee paren arguments)) (.eval callee) (.callee paren arguments)
  | get (object : Expr) (name : Token) :
    Defers (.eval (.get object name)) (.eval object) (.get name)
  | set (object : Expr) (name : Token) (value : Expr) :
    Defers (.eval (.set object name value)) (.eval object) (.setObject name value)
  | expression (value : Expr) : Defers (.exec (.expression value)) (.eval value) .discard
  | print (keyword : Token) (value : Expr) :
    Defers (.exec (.print keyword value)) (.eval value) (.print keyword)
  | variable (name : Token) (initializer : Expr) :
    Defers (.exec (.variable name (some initializer))) (.eval initializer) (.define name)
  | conditional (condition : Expr) (thenBranch : Stmt) (elseBranch : Option Stmt) :
    Defers (.exec (.conditional condition thenBranch elseBranch)) (.eval condition)
      (.branch thenBranch elseBranch)
  | loop (condition : Expr) (body : Stmt) :
    Defers (.exec (.loop condition body)) (.eval condition) (.loopTest condition body)
  | returnWith (keyword : Token) (value : Expr) :
    Defers (.exec (.returnWith keyword (some value))) (.eval value) .returning
  | classDeclaration (name : Token) (parent : Expr) (methods : List FunctionDeclaration) :
    Defers (.exec (.classDeclaration name (some parent) methods)) (.eval parent)
      (.superclass name (parent.nameOr name) methods)
  | sequence (s : Stmt) (rest : List Stmt) :
    Defers (.execAll (s :: rest)) (.exec s) (.sequence rest)

/-- A control that turns into another one at once. -/
inductive Control.Becomes : Control → Control → Prop
  | literal (value : Literal) : Becomes (.eval (.literal value)) (.value (.ofLiteral value))
  | grouping (inner : Expr) : Becomes (.eval (.grouping inner)) (.eval inner)
  | returnNothing (keyword : Token) :
    Becomes (.exec (.returnWith keyword none)) (.done (.returned .nil))
  | nothing : Becomes (.execAll []) (.done .normal)

/-- A frame that goes on with a result: what is done next, and the frames that wait for that. -/
inductive Frame.Passes : Frame → Control → Control → List Frame → Prop
  | unary {operator : Token} {v u : Value} : applyUnary operator v = .ok u →
    Passes (.unary operator) (.value v) (.value u) []
  | binaryLeft (operator : Token) (right : Expr) (v : Value) :
    Passes (.binaryLeft operator right) (.value v) (.eval right) [.binaryRight operator v]
  | binaryRight {operator : Token} {left v u : Value} : applyBinary operator left v = .ok u →
    Passes (.binaryRight operator left) (.value v) (.value u) []
  | decided {operator : Token} {right : Expr} {v : Value} : decidesLogical operator v = true →
    Passes (.logical operator right) (.value v) (.value v) []
  | undecided {operator : Token} {right : Expr} {v : Value} : decidesLogical operator v = false →
    Passes (.logical operator right) (.value v) (.eval right) []
  | callee (paren : Token) (e : Expr) (rest : List Expr) (v : Value) :
    Passes (.callee paren (e :: rest)) (.value v) (.eval e) [.argument v paren [] rest]
  | argument (callee : Value) (paren : Token) (before : List Value) (e : Expr) (rest : List Expr)
    (v : Value) : Passes (.argument callee paren before (e :: rest)) (.value v) (.eval e)
      [.argument callee paren (before ++ [v]) rest]
  | setObject (name : Token) (value : Expr) (object : ObjectRef) :
    Passes (.setObject name value) (.value (.object object)) (.eval value) [.setValue object name]
  | discard (v : Value) : Passes .discard (.value v) (.done .normal) []
  | thenBranch {thenBranch : Stmt} {elseBranch : Option Stmt} {v : Value} : v.isTruthy = true →
    Passes (.branch thenBranch elseBranch) (.value v) (.exec thenBranch) []
  | elseBranch {thenBranch elseBranch : Stmt} {v : Value} : v.isTruthy = false →
    Passes (.branch thenBranch (some elseBranch)) (.value v) (.exec elseBranch) []
  | noBranch {thenBranch : Stmt} {v : Value} : v.isTruthy = false →
    Passes (.branch thenBranch none) (.value v) (.done .normal) []
  | loopOn {condition : Expr} {body : Stmt} {v : Value} : v.isTruthy = true →
    Passes (.loopTest condition body) (.value v) (.exec body) [.loopBody condition body]
  | loopEnd {condition : Expr} {body : Stmt} {v : Value} : v.isTruthy = false →
    Passes (.loopTest condition body) (.value v) (.done .normal) []
  | loopAgain (condition : Expr) (body : Stmt) :
    Passes (.loopBody condition body) (.done .normal) (.eval condition) [.loopTest condition body]
  | loopReturn (condition : Expr) (body : Stmt) (v : Value) :
    Passes (.loopBody condition body) (.done (.returned v)) (.done (.returned v)) []
  | returning (v : Value) : Passes .returning (.value v) (.done (.returned v)) []
  | construct (object : ObjectRef) (v : Value) :
    Passes (.construct object) (.value v) (.value (.object object)) []
  | sequence (rest : List Stmt) : Passes (.sequence rest) (.done .normal) (.execAll rest) []
  | sequenceReturn (rest : List Stmt) (v : Value) :
    Passes (.sequence rest) (.done (.returned v)) (.done (.returned v)) []

/-- Whether a frame waits for a statement; the others wait for a value. -/
def Frame.awaitsStatement : Frame → Bool
  | .loopBody _ _ => true
  | .sequence _ => true
  | .block _ => true
  | .call _ _ => true
  | _ => false

/-! ## All steps -/

/-- A frame that with one more value has what a call takes. -/
inductive Frame.Applies : Frame → Value → Value → List Value → Prop
  | callee (paren : Token) (v : Value) : Applies (.callee paren []) v v []
  | argument (callee : Value) (paren : Token) (before : List Value) (v : Value) :
    Applies (.argument callee paren before []) v callee (before ++ [v])

/-- What a body that has completed gives its caller. -/
inductive Closure.Yields (w : World) (closure : Closure) : Completion → Control → Prop
  | initializer {completion : Completion} {v : Value} : closure.isInitializer = true →
    w.store.lookupAt? closure.chain 0 "this" = some v → Yields w closure completion (.value v)
  | unbound {completion : Completion} : closure.isInitializer = true →
    w.store.lookupAt? closure.chain 0 "this" = none → Yields w closure completion
      (.fault (closure.declaration.name.fault (.undefinedVariable "this")))
  | returned {v : Value} : closure.isInitializer = false →
    Yields w closure (.returned v) (.value v)
  | normal : closure.isInitializer = false → Yields w closure .normal (.value .nil)

namespace Machine

/-- Enters the initializer of a new object. -/
def enterInitializer (w : World) (origin : ClassObject) (method : Closure) (arguments : List Value)
    (frames : List Frame) : Machine :=
  let (object, w) := w.onStore (·.newObject origin)
  let (closure, w) := w.onStore (·.bindMethod method object)
  enterBody w closure arguments (.construct object :: frames)

/-- The steps of a machine that has not come to its end. -/
inductive Move : Machine → Machine → Prop
  | defers {w : World} {c c' : Control} {frame : Frame} {frames : List Frame} :
    c.Defers c' frame → Move ⟨w, c, frames⟩ ⟨w, c', frame :: frames⟩
  | becomes {w : World} {c c' : Control} {frames : List Frame} : c.Becomes c' →
    Move ⟨w, c, frames⟩ ⟨w, c', frames⟩
  | passes {w : World} {c c' : Control} {frame : Frame} {more frames : List Frame} :
    frame.Passes c c' more → Move ⟨w, c, frame :: frames⟩ ⟨w, c', more ++ frames⟩
  /-- A value where a statement is waited for. -/
  | completes {w : World} {v : Value} {frame : Frame} {frames : List Frame} :
    frame.awaitsStatement = true →
    Move ⟨w, .value v, frame :: frames⟩ ⟨w, .done .normal, frame :: frames⟩
  /-- A statement where a value is waited for. -/
  | voids {w : World} {completion : Completion} {frame : Frame} {frames : List Frame} :
    frame.awaitsStatement = false →
    Move ⟨w, .done completion, frame :: frames⟩ ⟨w, .value .nil, frame :: frames⟩
  | faults {w : World} {e : Expr} {f : RuntimeFault} {frames : List Frame} :
    Move ⟨w, .eval e, frames⟩ ⟨w, .fault f, frames⟩
  | refuses {w : World} {v : Value} {frame : Frame} {f : RuntimeFault} {frames : List Frame} :
    frame.awaitsStatement = false → Move ⟨w, .value v, frame :: frames⟩ ⟨w, .fault f, frames⟩
  | unwinds (w : World) (f : RuntimeFault) (frame : Frame) (frames : List Frame) :
    Move ⟨w, .fault f, frame :: frames⟩ ⟨unwind w frame, .fault f, frames⟩
  | reads {w : World} {e : Expr} {target : Reference} {v : Value} {frames : List Frame} :
    e = .variable target ∨ e = .thisObject target → w.read? target = some v →
    Move ⟨w, .eval e, frames⟩ ⟨w, .value v, frames⟩
  | writes {w : World} {target : Reference} {id : ScopeId} {v : Value} {frames : List Frame} :
    w.binder? target = some id → Move ⟨w, .value v, .assign target :: frames⟩
      ⟨w.bind id target.name.lexeme v, .value v, frames⟩
  | field {w : World} {object : ObjectRef} {name : Token} {v : Value} {frames : List Frame} :
    (w.store.fieldsOf object).get? name.lexeme = some v →
    Move ⟨w, .value (.object object), .get name :: frames⟩ ⟨w, .value v, frames⟩
  | method {w : World} {object : ObjectRef} {name : Token} {method : Closure} {frames : List Frame} :
    (w.store.fieldsOf object).get? name.lexeme = none →
    object.origin.method? name.lexeme = some method →
    Move ⟨w, .value (.object object), .get name :: frames⟩
      ⟨(w.onStore (·.newMethod method object)).2,
        .value (w.onStore (·.newMethod method object)).1, frames⟩
  | super {w : World} {keyword : Reference} {name : Token} {superclass : ClassObject}
    {object : ObjectRef} {method : Closure} {frames : List Frame} :
    superParts w keyword = .ok (superclass, object) →
    superclass.method? name.lexeme = some method →
    Move ⟨w, .eval (.superMethod keyword name), frames⟩
      ⟨(w.onStore (·.newMethod method object)).2,
        .value (w.onStore (·.newMethod method object)).1, frames⟩
  | setsField (w : World) (object : ObjectRef) (name : Token) (v : Value) (frames : List Frame) :
    Move ⟨w, .value v, .setValue object name :: frames⟩
      ⟨w.setField object name.lexeme v, .value v, frames⟩
  | prints {w : World} {keyword : Token} {v : Value} {frames : List Frame} :
    w.sink.isFull = false →
    Move ⟨w, .value v, .print keyword :: frames⟩ ⟨w.print v.text, .done .normal, frames⟩
  | declares (w : World) (name : Token) (frames : List Frame) :
    Move ⟨w, .exec (.variable name none), frames⟩
      ⟨w.define name.lexeme .nil, .done .normal, frames⟩
  | defines (w : World) (name : Token) (v : Value) (frames : List Frame) :
    Move ⟨w, .value v, .define name :: frames⟩ ⟨w.define name.lexeme v, .done .normal, frames⟩
  | function (w : World) (declaration : FunctionDeclaration) (frames : List Frame) :
    Move ⟨w, .exec (.function declaration), frames⟩ (declareFunction w declaration frames)
  | root (w : World) (name : Token) (methods : List FunctionDeclaration) (frames : List Frame) :
    Move ⟨w, .exec (.classDeclaration name none methods), frames⟩
      (declareClass w name none methods frames)
  | inherits (w : World) (name parent : Token) (methods : List FunctionDeclaration)
    (superclass : ClassObject) (frames : List Frame) :
    Move ⟨w, .value (.callable (.classObject superclass)),
        .superclass name parent methods :: frames⟩
      (declareClass w name (some superclass) methods frames)
  | enters (w : World) (body : List Stmt) (frames : List Frame) :
    Move ⟨w, .exec (.block body), frames⟩
      ⟨w.enterScope w.chain .empty, .execAll body, .block w.chain :: frames⟩
  | leaves (w : World) (completion : Completion) (outer : Chain) (frames : List Frame) :
    Move ⟨w, .done completion, .block outer :: frames⟩
      ⟨w.withChain outer, .done completion, frames⟩
  | clock {w : World} {v : Value} {frame : Frame} {frames : List Frame} {arguments : List Value} :
    frame.Applies v (.callable .clock) arguments →
    Move ⟨w, .value v, frame :: frames⟩ ⟨w.readClock.2, .value (.number w.readClock.1), frames⟩
  | calls {w : World} {v : Value} {frame : Frame} {frames : List Frame} {id : Nat}
    {closure : Closure} {arguments : List Value} :
    frame.Applies v (.callable (.function id closure)) arguments →
    arguments.length = closure.arity → w.depth < callDepthLimit →
    Move ⟨w, .value v, frame :: frames⟩ (enterBody w closure arguments frames)
  | creates {w : World} {v : Value} {frame : Frame} {frames : List Frame} {origin : ClassObject}
    {arguments : List Value} : frame.Applies v (.callable (.classObject origin)) arguments →
    origin.method? initializerName = none →
    Move ⟨w, .value v, frame :: frames⟩
      ⟨(w.onStore (·.newObject origin)).2, .value (.object (w.onStore (·.newObject origin)).1),
        frames⟩
  | initializes {w : World} {v : Value} {frame : Frame} {frames : List Frame} {origin : ClassObject}
    {method : Closure} {arguments : List Value} :
    frame.Applies v (.callable (.classObject origin)) arguments →
    origin.method? initializerName = some method → arguments.length = method.arity →
    w.depth < callDepthLimit →
    Move ⟨w, .value v, frame :: frames⟩ (enterInitializer w origin method arguments frames)
  | returns {w : World} {completion : Completion} {caller : Chain} {closure : Closure} {c : Control}
    {frames : List Frame} : closure.Yields (w.leaveCall caller) completion c →
    Move ⟨w, .done completion, .call caller closure :: frames⟩ ⟨w.leaveCall caller, c, frames⟩

/-! ## There are no others -/

section Parts
variable (w : World) (frames : List Frame)

theorem move_read {e : Expr} {target : Reference} (h : e = .variable target ∨ e = .thisObject target) :
    Move ⟨w, .eval e, frames⟩ (read w target frames) := by
  unfold read
  split
  · exact .reads h ‹_›
  · exact .faults

theorem move_readSuper (keyword : Reference) (name : Token) :
    Move ⟨w, .eval (.superMethod keyword name), frames⟩ (readSuper w keyword name frames) := by
  unfold readSuper
  split
  · exact .faults
  · rename_i superclass object hparts
    split
    · exact .faults
    · rename_i method hmethod
      exact .super hparts hmethod

theorem move_eval (e : Expr) : Move ⟨w, .eval e, frames⟩ (stepEval w frames e) := by
  cases e with
  | literal value => exact .becomes (.literal value)
  | grouping inner => exact .becomes (.grouping inner)
  | unary operator operand => exact .defers (.unary operator operand)
  | binary left operator right => exact .defers (.binary left operator right)
  | logical left operator right => exact .defers (.logical left operator right)
  | «variable» target => exact move_read w frames (.inl rfl)
  | assign target value => exact .defers (.assign target value)
  | call callee paren arguments => exact .defers (.call callee paren arguments)
  | get object name => exact .defers (.get object name)
  | set object name value => exact .defers (.set object name value)
  | thisObject keyword => exact move_read w frames (.inr rfl)
  | superMethod keyword name => exact move_readSuper w frames keyword name

theorem move_exec (s : Stmt) : Move ⟨w, .exec s, frames⟩ (stepExec w frames s) := by
  cases s with
  | expression value => exact .defers (.expression value)
  | print keyword value => exact .defers (.print keyword value)
  | «variable» name initializer =>
    cases initializer with
    | none => exact .declares w name frames
    | some e => exact .defers (.variable name e)
  | block body => exact .enters w body frames
  | conditional condition thenBranch elseBranch =>
    exact .defers (.conditional condition thenBranch elseBranch)
  | loop condition body => exact .defers (.loop condition body)
  | function declaration => exact .function w declaration frames
  | returnWith keyword value =>
    cases value with
    | none => exact .becomes (.returnNothing keyword)
    | some e => exact .defers (.returnWith keyword e)
  | classDeclaration name superclass methods =>
    cases superclass with
    | none => exact .root w name methods frames
    | some parent => exact .defers (.classDeclaration name parent methods)

theorem move_settle {v : Value} {frame : Frame} {result : Except RuntimeFault Value}
    (hframe : frame.awaitsStatement = false)
    (h : ∀ u, result = .ok u → frame.Passes (.value v) (.value u) []) :
    Move ⟨w, .value v, frame :: frames⟩ (settle w frames result) := by
  cases result with
  | ok u => exact .passes (h u rfl)
  | error f => exact .refuses hframe

theorem move_readProperty (v : Value) (name : Token) :
    Move ⟨w, .value v, .get name :: frames⟩ (readProperty w v name frames) := by
  unfold readProperty
  split
  · rename_i object
    cases hfield : (w.store.fieldsOf object).get? name.lexeme with
    | some u =>
      have hfound : w.onStore (·.property? object name.lexeme) = (some u, w) := by
        simp only [World.onStore, Store.property?, hfield]
      rw [hfound]
      exact .field hfield
    | none =>
      cases hmethod : object.origin.method? name.lexeme with
      | none =>
        have hfound : w.onStore (·.property? object name.lexeme) = (none, w) := by
          simp only [World.onStore, Store.property?, hfield, hmethod]
        rw [hfound]
        exact .refuses rfl
      | some method =>
        have hfound : w.onStore (·.property? object name.lexeme) =
            (some (w.onStore (·.newMethod method object)).1,
              (w.onStore (·.newMethod method object)).2) := by
          simp only [World.onStore, Store.property?, hfield, hmethod]
        rw [hfound]
        exact .method hfield hmethod
  · exact .refuses rfl

theorem Applies.awaitsValue {frame : Frame} {v callee : Value} {arguments : List Value}
    (h : frame.Applies v callee arguments) : frame.awaitsStatement = false := by
  cases h <;> rfl

/-- Whatever is called, some frame has waited for it or for the last argument. -/
theorem exists_applies (callee : Value) (paren : Token) (arguments : List Value) :
    ∃ (frame : Frame) (v : Value), frame.Applies v callee arguments := by
  rcases arguments.eq_nil_or_concat with rfl | ⟨before, v, rfl⟩
  · exact ⟨_, _, .callee paren callee⟩
  · rw [List.concat_eq_append]
    exact ⟨_, _, .argument callee paren before v⟩

theorem move_apply {frame : Frame} {v callee : Value} {arguments : List Value}
    (h : frame.Applies v callee arguments) (paren : Token) :
    Move ⟨w, .value v, frame :: frames⟩ (apply w callee paren arguments frames) := by
  have hframe := Applies.awaitsValue h
  unfold apply
  split
  · rename_i callable
    split
    · exact .refuses hframe
    · -- The arity is looked at before the depth, for each kind of callable.
      rename_i harity
      have harity : arguments.length = callable.arity := Classical.not_not.mp harity
      split
      · exact .refuses hframe
      · rename_i hdepth
        have hdepth : w.depth < callDepthLimit := Nat.lt_of_not_le hdepth
        cases callable with
        | clock => exact .clock h
        | function id closure => exact .calls h harity hdepth
        | classObject origin =>
          dsimp only [enter, construct]
          cases hinit : origin.method? initializerName with
          | none => exact .creates h hinit
          | some method =>
            rw [Callable.arity, ClassObject.arity, hinit] at harity
            exact .initializes h hinit harity hdepth
  · exact .refuses hframe

theorem move_value (v : Value) (frame : Frame) :
    Move ⟨w, .value v, frame :: frames⟩ (stepValue w v frames frame) := by
  cases frame with
  | unary operator => exact move_settle w frames rfl fun _ => .unary
  | binaryLeft operator right => exact .passes (.binaryLeft operator right v)
  | binaryRight operator left => exact move_settle w frames rfl fun _ => .binaryRight
  | logical operator right =>
    simp only [stepValue]
    split
    · exact .passes (.decided ‹_›)
    · exact .passes (.undecided (Bool.eq_false_iff.mpr ‹_›))
  | assign target =>
    simp only [stepValue, write]
    split
    · exact .writes ‹_›
    · exact .refuses rfl
  | callee paren arguments =>
    cases arguments with
    | nil => exact move_apply w frames (.callee paren v) paren
    | cons e rest => exact .passes (.callee paren e rest v)
  | argument callee paren before rest =>
    cases rest with
    | nil => exact move_apply w frames (.argument callee paren before v) paren
    | cons e rest => exact .passes (.argument callee paren before e rest v)
  | get name => exact move_readProperty w frames v name
  | setObject name value =>
    cases v with
    | object object => exact .passes (.setObject name value object)
    | _ => exact .refuses rfl
  | setValue object name => exact .setsField w object name v frames
  | discard => exact .passes (.discard v)
  | print keyword =>
    simp only [stepValue]
    split
    · exact .refuses rfl
    · exact .prints (Bool.eq_false_iff.mpr ‹_›)
  | define name => exact .defines w name v frames
  | branch thenBranch elseBranch =>
    simp only [stepValue]
    split
    · exact .passes (.thenBranch ‹_›)
    · rename_i hfalse
      have hfalse := Bool.eq_false_iff.mpr hfalse
      cases elseBranch with
      | none => exact .passes (.noBranch hfalse)
      | some s => exact .passes (.elseBranch hfalse)
  | loopTest condition body =>
    simp only [stepValue]
    split
    · exact .passes (.loopOn ‹_›)
    · exact .passes (.loopEnd (Bool.eq_false_iff.mpr ‹_›))
  | returning => exact .passes (.returning v)
  | superclass name parent methods =>
    simp only [stepValue]
    split
    · exact .inherits w name parent methods _ frames
    · exact .refuses rfl
  | construct object => exact .passes (.construct object v)
  | _ => exact .completes rfl

theorem move_done (completion : Completion) (frame : Frame) :
    Move ⟨w, .done completion, frame :: frames⟩ (stepDone w completion frames frame) := by
  cases frame with
  | sequence rest =>
    cases completion with
    | normal => exact .passes (.sequence rest)
    | returned v => exact .passes (.sequenceReturn rest v)
  | loopBody condition body =>
    cases completion with
    | normal => exact .passes (.loopAgain condition body)
    | returned v => exact .passes (.loopReturn condition body v)
  | block outer => exact .leaves w completion outer frames
  | call caller closure =>
    simp only [stepDone, finishCall]
    split
    · split
      · exact .returns (.initializer ‹_› ‹_›)
      · exact .returns (.unbound ‹_› ‹_›)
    · rename_i hplain
      have hplain := Bool.eq_false_iff.mpr hplain
      cases completion with
      | normal => exact .returns (.normal hplain)
      | returned v => exact .returns (.returned hplain)
  | _ => exact .voids rfl

end Parts

/-- A machine that has not come to its end moves. -/
theorem move_step {m : Machine} (h : m.halted = false) : Move m m.step := by
  obtain ⟨w, c, frames⟩ := m
  cases c with
  | eval e => exact move_eval w frames e
  | exec s => exact move_exec w frames s
  | execAll body =>
    cases body with
    | nil => exact .becomes .nothing
    | cons s rest => exact .defers (.sequence s rest)
  | value v =>
    cases frames with
    | nil => cases h
    | cons frame frames => exact move_value w frames v frame
  | done completion =>
    cases frames with
    | nil => cases h
    | cons frame frames => exact move_done w frames completion frame
  | fault f =>
    cases frames with
    | nil => cases h
    | cons frame frames => exact .unwinds w f frame frames

/-! ## What no step changes -/

theorem Move.distances {m m' : Machine} (h : Move m m') :
    m'.world.distances = m.world.distances := by
  cases h with
  | unwinds w f frame frames => cases frame <;> rfl
  | _ => rfl

/-- Distances are recorded between runs only. -/
theorem distances_run (n : Nat) (m : Machine) : (run n m).world.distances = m.world.distances :=
  run_preserves (P := fun m' => m'.world.distances = m.world.distances)
    (fun _ hactive h => (move_step hactive).distances.trans h) rfl n

end Machine

end LoxLang
