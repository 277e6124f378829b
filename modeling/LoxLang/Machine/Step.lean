import LoxLang.Machine.Operation
import LoxLang.Machine.World

/-!
The machine that runs programs. Its state is a world, the thing to do next and the stack of frames
that wait for the result; a `step` does the next thing and never recurses, so the depth of a
program's calls is a number in the world and not a depth of the machine. Frames that have changed
the active chain or the call depth hold what restores them, and every way out of a frame restores
it: a value, a completed statement, a `return` and a fault.
-/
namespace LoxLang

/-- How a statement completes. -/
inductive Completion where
  | normal
  | returned (value : Value)

/-- What the machine does next: evaluate, execute, or hand a result to the frame on top. -/
inductive Control where
  | eval (e : Expr)
  | exec (s : Stmt)
  | execAll (body : List Stmt)
  | value (value : Value)
  | done (completion : Completion)
  | fault (fault : RuntimeFault)

/-- A computation that waits for a result. -/
inductive Frame where
  | unary (operator : Token)
  /-- Waits for the left operand; the right one comes next. -/
  | binaryLeft (operator : Token) (right : Expr)
  | binaryRight (operator : Token) (left : Value)
  | logical (operator : Token) (right : Expr)
  | assign (target : Reference)
  | callee (paren : Token) (arguments : List Expr)
  /-- Waits for an argument, after those in `before`; those in `rest` come next. -/
  | argument (callee : Value) (paren : Token) (before : List Value) (rest : List Expr)
  | get (name : Token)
  | setObject (name : Token) (value : Expr)
  | setValue (object : ObjectRef) (name : Token)
  | discard
  | print (keyword : Token)
  | define (name : Token)
  | branch (thenBranch : Stmt) (elseBranch : Option Stmt)
  | loopTest (condition : Expr) (body : Stmt)
  | loopBody (condition : Expr) (body : Stmt)
  | returning
  /-- Waits for the superclass; `parent` is the token to blame if that is no class. -/
  | superclass (name parent : Token) (methods : List FunctionDeclaration)
  | sequence (rest : List Stmt)
  /-- A block; `outer` was active around it. -/
  | block (outer : Chain)
  /-- The body of a call; `caller` was active around it. -/
  | call (caller : Chain) (closure : Closure)
  /-- The initializer of a new object, whose result is dropped. -/
  | construct (object : ObjectRef)

structure Machine where
  world : World
  control : Control
  frames : List Frame

/-- The token to blame for an expression: a variable answers for itself, `name` for all else. -/
def Expr.nameOr (e : Expr) (name : Token) : Token :=
  e.target?.elim name Reference.name

namespace Machine

/-- Hands over a value or a fault. -/
def settle (w : World) (frames : List Frame) : Except RuntimeFault Value → Machine
  | .ok v => ⟨w, .value v, frames⟩
  | .error f => ⟨w, .fault f, frames⟩

def complete (w : World) (frames : List Frame) : Machine :=
  ⟨w, .done .normal, frames⟩

/-! ## Names and properties -/

def read (w : World) (target : Reference) (frames : List Frame) : Machine :=
  match w.read? target with
  | some v => ⟨w, .value v, frames⟩
  | none => ⟨w, .fault target.name.undefined, frames⟩

/-- Writes a value through a reference; the value is the result. -/
def write (w : World) (target : Reference) (v : Value) (frames : List Frame) : Machine :=
  match w.binder? target with
  | some id => ⟨w.bind id target.name.lexeme v, .value v, frames⟩
  | none => ⟨w, .fault target.name.undefined, frames⟩

def readProperty (w : World) (v : Value) (name : Token) (frames : List Frame) : Machine :=
  match v with
  | .object object =>
    match w.onStore (·.property? object name.lexeme) with
    | (some v, w) => ⟨w, .value v, frames⟩
    | (none, w) => ⟨w, .fault (name.fault (.undefinedProperty name.lexeme)), frames⟩
  | _ => ⟨w, .fault (name.mismatch .objectForProperty), frames⟩

/-- The class that `super` stands for and the object that `this` stands for. `this` is bound exactly
one scope inside the one that binds `super`. -/
def superParts (w : World) (keyword : Reference) : Except RuntimeFault (ClassObject × ObjectRef) :=
  match w.distances.get? keyword with
  | none => .error keyword.name.undefined
  | some distance =>
    match w.store.lookupAt? w.chain distance "super" with
    | none => .error (keyword.name.fault (.undefinedVariable "super"))
    | some (.callable (.classObject superclass)) =>
      match distance with
      | 0 => .error keyword.name.undefined
      | inner + 1 =>
        match w.store.lookupAt? w.chain inner "this" with
        | none => .error (keyword.name.fault (.undefinedVariable "this"))
        | some (.object object) => .ok (superclass, object)
        | some _ => .error (keyword.name.mismatch .objectForProperty)
    | some _ => .error (keyword.name.mismatch .classForSuperclass)

/-- Reads a method of the superclass, bound to the current object. -/
def readSuper (w : World) (keyword : Reference) (method : Token) (frames : List Frame) : Machine :=
  match superParts w keyword with
  | .error f => ⟨w, .fault f, frames⟩
  | .ok (superclass, object) =>
    match superclass.method? method.lexeme with
    | none => ⟨w, .fault (method.fault (.undefinedProperty method.lexeme)), frames⟩
    | some found =>
      let (v, w) := w.onStore (·.newMethod found object)
      ⟨w, .value v, frames⟩

/-! ## Calls -/

/-- Starts the body of a closure in a new scope that binds each parameter to its argument. -/
def enterBody (w : World) (closure : Closure) (arguments : List Value) (frames : List Frame) :
    Machine :=
  let names := closure.declaration.params.map Token.lexeme
  let caller := w.chain
  let entered := w.enterScope closure.chain (.ofList (names.zip arguments))
  ⟨{ entered with depth := entered.depth + 1 }, .execAll closure.declaration.body,
    .call caller closure :: frames⟩

/-- Creates an object, and starts its initializer if there is one. -/
def construct (w : World) (origin : ClassObject) (arguments : List Value) (frames : List Frame) :
    Machine :=
  let (object, w) := w.onStore (·.newObject origin)
  match origin.method? initializerName with
  | none => ⟨w, .value (.object object), frames⟩
  | some init =>
    let (closure, w) := w.onStore (·.bindMethod init object)
    enterBody w closure arguments (.construct object :: frames)

/-- Starts a call whose number of arguments is right. -/
def enter (w : World) (callable : Callable) (arguments : List Value) (frames : List Frame) :
    Machine :=
  match callable with
  | .clock =>
    let (time, w) := w.readClock
    ⟨w, .value (.number time), frames⟩
  | .function _ closure => enterBody w closure arguments frames
  | .classObject origin => construct w origin arguments frames

/-- Calls a value. It is checked in this order that the value is callable, that it takes this many
arguments, and that one more call is allowed. -/
def apply (w : World) (callee : Value) (paren : Token) (arguments : List Value)
    (frames : List Frame) : Machine :=
  match callee with
  | .callable callable =>
    if arguments.length ≠ callable.arity then
      ⟨w, .fault (paren.fault (.arityMismatch callable.arity arguments.length)), frames⟩
    else if callDepthLimit ≤ w.depth then ⟨w, .fault (paren.fault .stackOverflow), frames⟩
    else enter w callable arguments frames
  | _ => ⟨w, .fault (paren.fault .notCallable), frames⟩

/-- Evaluates the next argument, or calls the value if there is none. -/
def evalArguments (w : World) (callee : Value) (paren : Token) (before : List Value)
    (rest : List Expr) (frames : List Frame) : Machine :=
  match rest with
  | [] => apply w callee paren before frames
  | e :: rest => ⟨w, .eval e, .argument callee paren before rest :: frames⟩

/-- The result of a call whose body has completed. An initializer always yields its object. -/
def finishCall (w : World) (caller : Chain) (closure : Closure) (completion : Completion)
    (frames : List Frame) : Machine :=
  let w := w.leaveCall caller
  if closure.isInitializer then
    match w.store.lookupAt? closure.chain 0 "this" with
    | some v => ⟨w, .value v, frames⟩
    | none =>
      ⟨w, .fault (closure.declaration.name.fault (.undefinedVariable "this")), frames⟩
  else
    match completion with
    | .returned v => ⟨w, .value v, frames⟩
    | .normal => ⟨w, .value .nil, frames⟩

/-! ## Declarations -/

/-- Declares a function in the active scope, which it closes over. -/
def declareFunction (w : World) (declaration : FunctionDeclaration) (frames : List Frame) :
    Machine :=
  let closure := ⟨declaration, w.chain, false⟩
  let (v, w) := w.onStore (·.newFunction closure)
  complete (w.define declaration.name.lexeme v) frames

/-- The methods of a class, closed over a chain; of two with one name the later counts. -/
def methodTable (chain : Chain) (methods : List FunctionDeclaration) : Table Closure :=
  .ofList (methods.map fun m =>
    (m.name.lexeme, ⟨m, chain, m.name.lexeme == initializerName⟩))

/-- Declares a class in the active scope. Its methods see `super` in a scope of their own if there
is a superclass. -/
def declareClass (w : World) (name : Token) (superclass : Option ClassObject)
    (methods : List FunctionDeclaration) (frames : List Frame) : Machine :=
  let outer := w.chain
  let w := w.define name.lexeme .nil
  let w := match superclass with
    | some parent =>
      w.enterScope outer (Table.empty.insert "super" (.callable (.classObject parent)))
    | none => w
  let table := methodTable w.chain methods
  let (id, w) := w.onStore Store.newIdentity
  let w := w.withChain outer
  complete (w.define name.lexeme (.callable (.classObject ⟨id, name.lexeme, superclass, table⟩)))
    frames

/-! ## Steps -/

def stepEval (w : World) (frames : List Frame) : Expr → Machine
  | .literal value => ⟨w, .value (.ofLiteral value), frames⟩
  | .unary operator operand => ⟨w, .eval operand, .unary operator :: frames⟩
  | .binary left operator right => ⟨w, .eval left, .binaryLeft operator right :: frames⟩
  | .logical left operator right => ⟨w, .eval left, .logical operator right :: frames⟩
  | .grouping inner => ⟨w, .eval inner, frames⟩
  | .variable target => read w target frames
  | .assign target value => ⟨w, .eval value, .assign target :: frames⟩
  | .call callee paren arguments => ⟨w, .eval callee, .callee paren arguments :: frames⟩
  | .get object name => ⟨w, .eval object, .get name :: frames⟩
  | .set object name value => ⟨w, .eval object, .setObject name value :: frames⟩
  | .thisObject keyword => read w keyword frames
  | .superMethod keyword method => readSuper w keyword method frames

def stepExec (w : World) (frames : List Frame) : Stmt → Machine
  | .expression value => ⟨w, .eval value, .discard :: frames⟩
  | .print keyword value => ⟨w, .eval value, .print keyword :: frames⟩
  | .variable name none => complete (w.define name.lexeme .nil) frames
  | .variable name (some initializer) => ⟨w, .eval initializer, .define name :: frames⟩
  | .block body =>
    let outer := w.chain
    ⟨w.enterScope outer .empty, .execAll body, .block outer :: frames⟩
  | .conditional condition thenBranch elseBranch =>
    ⟨w, .eval condition, .branch thenBranch elseBranch :: frames⟩
  | .loop condition body => ⟨w, .eval condition, .loopTest condition body :: frames⟩
  | .function declaration => declareFunction w declaration frames
  | .returnWith _ none => ⟨w, .done (.returned .nil), frames⟩
  | .returnWith _ (some value) => ⟨w, .eval value, .returning :: frames⟩
  | .classDeclaration name none methods => declareClass w name none methods frames
  | .classDeclaration name (some parent) methods =>
    ⟨w, .eval parent, .superclass name (parent.nameOr name) methods :: frames⟩

/-- Hands a value to the frame on top. For a frame that waits for a statement the value counts as
its normal completion. -/
def stepValue (w : World) (v : Value) (frames : List Frame) (frame : Frame) : Machine :=
  match frame with
  | .unary operator => settle w frames (applyUnary operator v)
  | .binaryLeft operator right => ⟨w, .eval right, .binaryRight operator v :: frames⟩
  | .binaryRight operator left => settle w frames (applyBinary operator left v)
  | .logical operator right =>
    if decidesLogical operator v then ⟨w, .value v, frames⟩ else ⟨w, .eval right, frames⟩
  | .assign target => write w target v frames
  | .callee paren arguments => evalArguments w v paren [] arguments frames
  | .argument callee paren before rest =>
    evalArguments w callee paren (before ++ [v]) rest frames
  | .get name => readProperty w v name frames
  | .setObject name value =>
    match v with
    | .object object => ⟨w, .eval value, .setValue object name :: frames⟩
    | _ => ⟨w, .fault (name.mismatch .objectForField), frames⟩
  | .setValue object name => ⟨w.setField object name.lexeme v, .value v, frames⟩
  | .discard => complete w frames
  | .print keyword =>
    if w.sink.isFull then ⟨w, .fault (keyword.fault (.outputFailed w.sink.refusal)), frames⟩
    else complete (w.print v.text) frames
  | .define name => complete (w.define name.lexeme v) frames
  | .branch thenBranch elseBranch =>
    if v.isTruthy then ⟨w, .exec thenBranch, frames⟩
    else match elseBranch with
      | some s => ⟨w, .exec s, frames⟩
      | none => complete w frames
  | .loopTest condition body =>
    if v.isTruthy then ⟨w, .exec body, .loopBody condition body :: frames⟩
    else complete w frames
  | .returning => ⟨w, .done (.returned v), frames⟩
  | .superclass name parent methods =>
    match v with
    | .callable (.classObject superclass) => declareClass w name (some superclass) methods frames
    | _ => ⟨w, .fault (parent.mismatch .classForSuperclass), frames⟩
  | .construct object => ⟨w, .value (.object object), frames⟩
  | .loopBody _ _ | .sequence _ | .block _ | .call _ _ => ⟨w, .done .normal, frame :: frames⟩

/-- Hands the completion of a statement to the frame on top. For a frame that waits for a value it
counts as nil. -/
def stepDone (w : World) (completion : Completion) (frames : List Frame) (frame : Frame) :
    Machine :=
  match frame with
  | .sequence rest =>
    match completion with
    | .normal => ⟨w, .execAll rest, frames⟩
    | .returned v => ⟨w, .done (.returned v), frames⟩
  | .loopBody condition body =>
    match completion with
    | .normal => ⟨w, .eval condition, .loopTest condition body :: frames⟩
    | .returned v => ⟨w, .done (.returned v), frames⟩
  | .block outer => ⟨w.withChain outer, .done completion, frames⟩
  | .call caller closure => finishCall w caller closure completion frames
  | frame => ⟨w, .value .nil, frame :: frames⟩

/-- What the world is restored to when a fault passes a frame. -/
def unwind (w : World) : Frame → World
  | .block outer => w.withChain outer
  | .call caller _ => w.leaveCall caller
  | _ => w

/-- One step of the machine; a machine whose last result stands keeps it. -/
def step : Machine → Machine
  | ⟨w, .eval e, frames⟩ => stepEval w frames e
  | ⟨w, .exec s, frames⟩ => stepExec w frames s
  | ⟨w, .execAll [], frames⟩ => complete w frames
  | ⟨w, .execAll (s :: rest), frames⟩ => ⟨w, .exec s, .sequence rest :: frames⟩
  | ⟨w, .value v, frame :: frames⟩ => stepValue w v frames frame
  | ⟨w, .done completion, frame :: frames⟩ => stepDone w completion frames frame
  | ⟨w, .fault f, frame :: frames⟩ => ⟨unwind w frame, .fault f, frames⟩
  | ⟨w, .value v, []⟩ => ⟨w, .value v, []⟩
  | ⟨w, .done completion, []⟩ => ⟨w, .done completion, []⟩
  | ⟨w, .fault f, []⟩ => ⟨w, .fault f, []⟩

/-- Whether the last result stands. -/
def halted : Machine → Bool
  | ⟨_, .value _, []⟩ => true
  | ⟨_, .done _, []⟩ => true
  | ⟨_, .fault _, []⟩ => true
  | _ => false

/-- At most `fuel` steps. -/
def run : (fuel : Nat) → Machine → Machine
  | 0, m => m
  | fuel + 1, m => if m.halted then m else run fuel m.step

end Machine

/-! ## Results -/

/-- What a finished machine has come to. -/
inductive Outcome where
  | value (value : Value)
  | done (completion : Completion)
  | fault (fault : RuntimeFault)

def Machine.outcome? : Machine → Option Outcome
  | ⟨_, .value v, []⟩ => some (.value v)
  | ⟨_, .done completion, []⟩ => some (.done completion)
  | ⟨_, .fault f, []⟩ => some (.fault f)
  | _ => none

def World.evaluate? (fuel : Nat) (w : World) (e : Expr) :
    Option (Except RuntimeFault Value × World) :=
  let m := Machine.run fuel ⟨w, .eval e, []⟩
  match m.outcome? with
  | some (.value v) => some (.ok v, m.world)
  | some (.fault f) => some (.error f, m.world)
  | _ => none

def World.execute? (fuel : Nat) (w : World) (s : Stmt) :
    Option (Except RuntimeFault Completion × World) :=
  let m := Machine.run fuel ⟨w, .exec s, []⟩
  match m.outcome? with
  | some (.done completion) => some (.ok completion, m.world)
  | some (.fault f) => some (.error f, m.world)
  | _ => none

def World.program (w : World) (statements : List Stmt) : Machine :=
  ⟨w, .execAll statements, []⟩

/-- Runs a program within some steps. A `return` outside of functions ends it quietly. -/
def World.interpret? (fuel : Nat) (w : World) (statements : List Stmt) :
    Option (Option RuntimeFault × World) :=
  let m := Machine.run fuel (w.program statements)
  match m.outcome? with
  | some (.done _) => some (none, m.world)
  | some (.fault f) => some (some f, m.world)
  | _ => none

end LoxLang
