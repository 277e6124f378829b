import LoxLang.Machine.World

/-!
What the actions on a world change. Every action is an update of some of the parts of a world, so
that the others are left as they are; `simp` opens an action through the equations below and never
through its definition.
-/
namespace LoxLang.World
set_option autoImplicit false

@[simp] theorem define_eq (w : World) (name : String) (v : Value) :
    w.define name v = { w with store := w.store.define w.chain name v } := rfl

@[simp] theorem onStore_fst {α : Type} (w : World) (change : Store → α × Store) :
    (w.onStore change).1 = (change w.store).1 := rfl

@[simp] theorem onStore_snd {α : Type} (w : World) (change : Store → α × Store) :
    (w.onStore change).2 = { w with store := (change w.store).2 } := rfl

@[simp] theorem setField_eq (w : World) (object : ObjectRef) (name : String) (v : Value) :
    w.setField object name v = { w with store := w.store.setField object name v } := rfl

@[simp] theorem withChain_eq (w : World) (chain : Chain) :
    w.withChain chain = { w with chain } := rfl

@[simp] theorem enterScope_eq (w : World) (outer : Chain) (bindings : Table Value) :
    w.enterScope outer bindings =
      { w with store := (w.store.newScope bindings).2, chain := w.store.scopes.size :: outer } := rfl

@[simp] theorem leaveCall_eq (w : World) (caller : Chain) :
    w.leaveCall caller = { w with chain := caller, depth := w.depth - 1 } := rfl

@[simp] theorem bind_eq (w : World) (id : ScopeId) (name : String) (v : Value) :
    w.bind id name v = { w with store := w.store.bind id name v } := rfl

@[simp] theorem print_eq (w : World) (line : String) :
    w.print line = { w with sink := w.sink.print line } := rfl

@[simp] theorem readClock_fst (w : World) : w.readClock.1 = w.clock.read.1 := rfl

@[simp] theorem readClock_snd (w : World) :
    w.readClock.2 = { w with clock := w.clock.read.2 } := rfl

@[simp] theorem record_eq (w : World) (found : List DistanceEntry) :
    w.record found = { w with distances := w.distances.record found } := rfl

end LoxLang.World
