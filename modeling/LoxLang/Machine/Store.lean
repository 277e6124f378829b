import LoxLang.Machine.Value

/-!
The store: all scopes and the fields of all objects, by identity. Scopes are shared by every chain
they occur in, so a write through one chain is seen through the others. A name is found either by
searching a chain outward (`lookup?`, `assign?`) or in the scope at an exact distance (`lookupAt?`,
`assignAt?`); neither way of writing ever declares a name.
-/
namespace LoxLang

/-- The scopes, the fields of the objects, and the next identity of a function or class. -/
structure Store where
  scopes : Array (Table Value)
  fields : Array (Table Value)
  nextId : Nat

namespace Store

/-- A store with only a global scope. -/
def ofGlobals (globals : Table Value) : Store :=
  ⟨#[globals], #[], 0⟩

def scope (s : Store) (id : ScopeId) : Table Value :=
  s.scopes[id]?.getD .empty

def fieldsOf (s : Store) (object : ObjectRef) : Table Value :=
  s.fields[object.id]?.getD .empty

/-! ## Scopes -/

def newScope (s : Store) (bindings : Table Value) : ScopeId × Store :=
  match s with
  | ⟨scopes, fields, nextId⟩ => (scopes.size, ⟨scopes.push bindings, fields, nextId⟩)

def bind (s : Store) (id : ScopeId) (name : String) (value : Value) : Store :=
  match s with
  | ⟨scopes, fields, nextId⟩ => ⟨scopes.modify id (·.insert name value), fields, nextId⟩

/-- Binds a name in the innermost scope of a chain, in place of any binding there. -/
def define (s : Store) (chain : Chain) (name : String) (value : Value) : Store :=
  match chain with
  | id :: _ => s.bind id name value
  | [] => s

def binds (s : Store) (id : ScopeId) (name : String) : Bool :=
  (s.scope id).contains name

/-- The first scope of a chain that binds a name. -/
def binder? (s : Store) (name : String) : Chain → Option ScopeId
  | [] => none
  | id :: outer => if s.binds id name then some id else binder? s name outer

/-- The scope at a distance along a chain, if it binds a name. -/
def binderAt? (s : Store) (chain : Chain) (distance : Nat) (name : String) : Option ScopeId :=
  match chain[distance]? with
  | some id => if s.binds id name then some id else none
  | none => none

/-- The value of a name in the scope that has been found for it. -/
def valueIn? (s : Store) (binder : Option ScopeId) (name : String) : Option Value :=
  match binder with
  | some id => (s.scope id).get? name
  | none => none

/-- Overwrites a name in the scope that has been found for it. -/
def writeIn? (s : Store) (binder : Option ScopeId) (name : String) (value : Value) : Option Store :=
  match binder with
  | some id => some (s.bind id name value)
  | none => none

def lookup? (s : Store) (chain : Chain) (name : String) : Option Value :=
  s.valueIn? (s.binder? name chain) name

def assign? (s : Store) (chain : Chain) (name : String) (value : Value) : Option Store :=
  s.writeIn? (s.binder? name chain) name value

def lookupAt? (s : Store) (chain : Chain) (distance : Nat) (name : String) : Option Value :=
  s.valueIn? (s.binderAt? chain distance name) name

def assignAt? (s : Store) (chain : Chain) (distance : Nat) (name : String) (value : Value) :
    Option Store :=
  s.writeIn? (s.binderAt? chain distance name) name value

/-! ## Objects, functions and classes -/

def newObject (s : Store) (origin : ClassObject) : ObjectRef × Store :=
  match s with
  | ⟨scopes, fields, nextId⟩ => (⟨fields.size, origin⟩, ⟨scopes, fields.push .empty, nextId⟩)

/-- Writes a field, whether it is there or not. -/
def setField (s : Store) (object : ObjectRef) (name : String) (value : Value) : Store :=
  match s with
  | ⟨scopes, fields, nextId⟩ => ⟨scopes, fields.modify object.id (·.insert name value), nextId⟩

def newIdentity (s : Store) : Nat × Store :=
  match s with
  | ⟨scopes, fields, nextId⟩ => (nextId, ⟨scopes, fields, nextId + 1⟩)

def newFunction (s : Store) (closure : Closure) : Value × Store :=
  let (id, s) := s.newIdentity
  (.callable (.function id closure), s)

/-- A method with `this` bound to an object, in a scope of its own around the method. -/
def bindMethod (s : Store) (method : Closure) (object : ObjectRef) : Closure × Store :=
  let (id, s) := s.newScope (Table.empty.insert "this" (.object object))
  ({ method with chain := id :: method.chain }, s)

def newMethod (s : Store) (method : Closure) (object : ObjectRef) : Value × Store :=
  let (closure, s) := s.bindMethod method object
  s.newFunction closure

/-- The value of a property: a field, or else a method bound to the object. -/
def property? (s : Store) (object : ObjectRef) (name : String) : Option Value × Store :=
  match (s.fieldsOf object).get? name with
  | some value => (some value, s)
  | none =>
    match object.origin.method? name with
    | some method =>
      let (value, s) := s.newMethod method object
      (some value, s)
    | none => (none, s)

end Store

end LoxLang
