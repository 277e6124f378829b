import LoxLang.Binding.Distances
import LoxLang.Machine.Fault
import LoxLang.Machine.Store

/-!
The world that a program acts on: the store, the chain of scopes that is active, the number of calls
in progress, the known distances, the printed lines and the clock. References are read and written
here: with a distance in exactly that scope of the active chain, without one in the global scope.
-/
namespace LoxLang

/-- The most calls that can be in progress. -/
def callDepthLimit : Nat := 8192

/-- The printed lines, how many more are taken if there is a limit, and the text of the error with
which all others are refused. -/
structure Sink where
  lines : Array String
  room : Option Nat
  refusal : String

def Sink.ofRoom (room : Option Nat) (refusal : String := "pipe closed") : Sink :=
  ⟨#[], room, refusal⟩

def Sink.isFull (sink : Sink) : Bool :=
  sink.room == some 0

def Sink.print (sink : Sink) (line : String) : Sink :=
  match sink with
  | ⟨lines, room, refusal⟩ => ⟨lines.push line, room.map (· - 1), refusal⟩

/-- The times that the clock shows, one reading after the other, and how many have been taken. -/
structure Clock where
  readings : Nat → Float
  taken : Nat

/-- A clock that always shows the same time. -/
def Clock.standing (time : Float) : Clock :=
  ⟨fun _ => time, 0⟩

def Clock.read (c : Clock) : Float × Clock :=
  (c.readings c.taken, { c with taken := c.taken + 1 })

structure World where
  store : Store
  chain : Chain
  depth : Nat
  distances : Distances
  sink : Sink
  clock : Clock

namespace World

/-- The world before the first program. -/
def fresh (sink : Sink) (clock : Clock) : World :=
  ⟨.ofGlobals (Table.empty.insert "clock" (.callable .clock)), .globals, 0, .empty, sink, clock⟩

def record (w : World) (found : List DistanceEntry) : World :=
  { w with distances := w.distances.record found }

def define (w : World) (name : String) (value : Value) : World :=
  match w with
  | ⟨store, chain, depth, distances, sink, clock⟩ =>
    ⟨store.define chain name value, chain, depth, distances, sink, clock⟩

/-- Changes the store and keeps what the change yields. -/
def onStore {α : Type} (w : World) (change : Store → α × Store) : α × World :=
  match w with
  | ⟨store, chain, depth, distances, sink, clock⟩ =>
    let (result, store) := change store
    (result, ⟨store, chain, depth, distances, sink, clock⟩)

def setField (w : World) (object : ObjectRef) (name : String) (value : Value) : World :=
  match w with
  | ⟨store, chain, depth, distances, sink, clock⟩ =>
    ⟨store.setField object name value, chain, depth, distances, sink, clock⟩

def withChain (w : World) (chain : Chain) : World :=
  match w with
  | ⟨store, _, depth, distances, sink, clock⟩ => ⟨store, chain, depth, distances, sink, clock⟩

/-- Makes a scope with some bindings the innermost of a chain, and that chain active. -/
def enterScope (w : World) (outer : Chain) (bindings : Table Value) : World :=
  match w with
  | ⟨store, _, depth, distances, sink, clock⟩ =>
    let (id, store) := store.newScope bindings
    ⟨store, id :: outer, depth, distances, sink, clock⟩

/-- Ends the innermost call, and makes the chain of its caller active again. -/
def leaveCall (w : World) (caller : Chain) : World :=
  match w with
  | ⟨store, _, depth, distances, sink, clock⟩ => ⟨store, caller, depth - 1, distances, sink, clock⟩

/-- The scope in which a reference finds its name. -/
def binder? (w : World) (target : Reference) : Option ScopeId :=
  match w.distances.get? target with
  | some distance => w.store.binderAt? w.chain distance target.name.lexeme
  | none => w.store.binder? target.name.lexeme .globals

def read? (w : World) (target : Reference) : Option Value :=
  w.store.valueIn? (w.binder? target) target.name.lexeme

def bind (w : World) (id : ScopeId) (name : String) (value : Value) : World :=
  match w with
  | ⟨store, chain, depth, distances, sink, clock⟩ =>
    ⟨store.bind id name value, chain, depth, distances, sink, clock⟩

def print (w : World) (line : String) : World :=
  match w with
  | ⟨store, chain, depth, distances, sink, clock⟩ =>
    ⟨store, chain, depth, distances, sink.print line, clock⟩

def readClock (w : World) : Float × World :=
  let (time, clock) := w.clock.read
  (time, { w with clock })

end World

end LoxLang
