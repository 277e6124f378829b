import Mathlib
import LoxLang.Proofs.Machine.Graph
import LoxLang.Proofs.Machine.Sequencing
import LoxLang.Proofs.Machine.Sorts

/-!
Programs without loops come to an end. What is left to do within one call has a weight, and a step
either makes it smaller or enters a body (`move_lighter`), which only so many calls on top of each other
can do; so the calls that are still allowed and the weight decrease together (`halts_of_loopFree`).
Whatever is called has been allocated, so its code is that of the programs that were run
(`Machine.Fits`). `loop_free_terminates` puts it together for sessions.
-/
namespace LoxLang
set_option autoImplicit false

/-! ## Weights -/

mutual

/-- What it takes at most to come to the value of an expression, calls apart. -/
def Expr.weight : Expr → Nat
  | .literal _ => 2
  | .unary _ operand => operand.weight + 2
  | .binary left _ right => left.weight + right.weight + 3
  | .logical left _ right => left.weight + right.weight + 2
  | .grouping inner => inner.weight + 2
  | .variable _ => 2
  | .assign _ value => value.weight + 2
  | .call callee _ arguments => callee.weight + Expr.weightAll arguments + 2
  | .get object _ => object.weight + 2
  | .set object _ value => object.weight + value.weight + 2
  | .thisObject _ => 2
  | .superMethod _ _ => 2

/-- The same of some arguments and the call that they are for. -/
def Expr.weightAll : List Expr → Nat
  | [] => 2
  | e :: rest => e.weight + Expr.weightAll rest + 1

end

def Expr.weightOption : Option Expr → Nat
  | none => 2
  | some e => e.weight + 2

mutual

/-- What it takes at most to complete a statement, calls apart. Loops have no bound. -/
def Stmt.weight : Stmt → Nat
  | .expression value => value.weight + 2
  | .print _ value => value.weight + 2
  | .variable _ initializer => Expr.weightOption initializer
  | .block body => Stmt.weightAll body + 2
  | .conditional condition thenBranch none => condition.weight + thenBranch.weight + 2
  | .conditional condition thenBranch (some elseBranch) =>
    condition.weight + thenBranch.weight + elseBranch.weight + 2
  | .loop _ _ => 0
  | .function _ => 2
  | .returnWith _ value => Expr.weightOption value
  | .classDeclaration _ superclass _ => Expr.weightOption superclass

def Stmt.weightAll : List Stmt → Nat
  | [] => 2
  | s :: rest => s.weight + Stmt.weightAll rest + 2

end

/-- What a frame still takes once it is handed a result. -/
def Frame.weight : Frame → Nat
  | .binaryLeft _ right => right.weight + 1
  | .logical _ right => right.weight + 1
  | .callee _ arguments => Expr.weightAll arguments
  | .argument _ _ _ rest => Expr.weightAll rest
  | .setObject _ value => value.weight + 1
  | .branch thenBranch none => thenBranch.weight + 1
  | .branch thenBranch (some elseBranch) => thenBranch.weight + elseBranch.weight + 1
  | .sequence rest => Stmt.weightAll rest + 1
  | _ => 1

def Control.weight : Control → Nat
  | .eval e => e.weight
  | .exec s => s.weight
  | .execAll body => Stmt.weightAll body
  | _ => 1

def Frame.weightAll (frames : List Frame) : Nat :=
  (frames.map Frame.weight).sum

/-- What is left to do, when no calls are among the frames. -/
def Machine.weight (m : Machine) : Nat :=
  m.control.weight + Frame.weightAll m.frames

def Stmt.isLoop : Stmt → Bool
  | .loop _ _ => true
  | _ => false

/-- No statement among some, or inside of them, is a loop. -/
def Stmt.LoopFree (body : List Stmt) : Prop :=
  ∀ s ∈ Stmt.partsAll body, s.isLoop = false

instance (body : List Stmt) : Decidable (Stmt.LoopFree body) :=
  inferInstanceAs (Decidable (∀ s ∈ Stmt.partsAll body, s.isLoop = false))

def Frame.isCall : Frame → Bool
  | .call _ _ => true
  | _ => false

/-! ## Steps make the weight smaller -/

@[simp] theorem Frame.weightAll_nil : Frame.weightAll [] = 0 := rfl

@[simp] theorem Frame.weightAll_cons (frame : Frame) (frames : List Frame) :
    Frame.weightAll (frame :: frames) = frame.weight + Frame.weightAll frames := rfl

theorem Frame.weightAll_append (first second : List Frame) :
    Frame.weightAll (first ++ second) = Frame.weightAll first + Frame.weightAll second := by
  rw [weightAll, List.map_append, List.sum_append]
  rfl

theorem Expr.one_lt_weight (e : Expr) : 1 < e.weight := by
  cases e <;> simp only [weight] <;> omega

theorem Frame.weight_pos (frame : Frame) : 0 < frame.weight := by
  cases frame with
  | callee paren arguments =>
    cases arguments <;> simp only [weight, Expr.weightAll] <;> omega
  | argument callee paren before rest =>
    cases rest <;> simp only [weight, Expr.weightAll] <;> omega
  | branch thenBranch elseBranch =>
    cases elseBranch <;> simp only [weight] <;> omega
  | _ => exact Nat.succ_pos _

section Steps
variable {L : Layout}

theorem lighter_defers {c c' : Control} {frame : Frame} (h : c.Defers c' frame)
    (hc : L.HasControl (fun s => s.isLoop = false) c) :
    c'.weight + frame.weight < c.weight ∧ frame.isCall = false := by
  cases h with
  | loop condition body => cases hc _ List.mem_cons_self
  | conditional condition thenBranch elseBranch =>
    refine ⟨?_, rfl⟩
    cases elseBranch <;> simp only [Control.weight, Frame.weight, Stmt.weight] <;> omega
  | _ =>
    refine ⟨?_, rfl⟩
    simp only [Control.weight, Frame.weight, Expr.weight, Stmt.weight, Stmt.weightAll,
      Expr.weightOption]
    omega

theorem lighter_becomes {c c' : Control} (h : c.Becomes c') : c'.weight < c.weight := by
  cases h <;> simp only [Control.weight, Expr.weight, Stmt.weight, Stmt.weightAll,
    Expr.weightOption] <;> omega

theorem lighter_passes {frame : Frame} {c c' : Control} {more : List Frame}
    (h : frame.Passes c c' more) (hframe : L.HasFrame (fun s => s.isLoop = false) frame) :
    c'.weight + Frame.weightAll more < c.weight + frame.weight ∧
      ∀ f ∈ more, f.isCall = false := by
  have hnone : ∀ f ∈ ([] : List Frame), f.isCall = false := List.forall_mem_nil _
  have hone : ∀ {g : Frame}, g.isCall = false → ∀ f ∈ [g], f.isCall = false :=
    fun hg => List.forall_mem_singleton.mpr hg
  cases h with
  | loopOn => cases hframe _ List.mem_cons_self
  | loopEnd => cases hframe _ List.mem_cons_self
  | loopAgain => cases hframe _ List.mem_cons_self
  | loopReturn => cases hframe _ List.mem_cons_self
  | thenBranch =>
    rename_i thenBranch elseBranch v htrue
    refine ⟨?_, hnone⟩
    cases elseBranch <;> simp only [Control.weight, Frame.weight, Frame.weightAll_nil] <;> omega
  | binaryLeft | callee | argument | setObject =>
    refine ⟨?_, hone rfl⟩
    simp only [Control.weight, Frame.weight, Expr.weightAll, Frame.weightAll_cons,
      Frame.weightAll_nil]
    omega
  | _ =>
    refine ⟨?_, hnone⟩
    simp only [Control.weight, Frame.weight, Frame.weightAll_nil]
    omega

theorem weight_applies {frame : Frame} {v callee : Value} {arguments : List Value}
    (h : frame.Applies v callee arguments) : frame.weight = 2 := by
  cases h <;> rfl

end Steps

namespace Machine

def Within (frames : List Frame) : Prop :=
  ∀ f ∈ frames, f.isCall = false

/-- A machine is about to do as much as it has frames for, once a body that it enters has come to its
end. -/
structure Enters (m m' : Machine) (w : World) (closure : Closure) (arguments : List Value)
    (frames : List Frame) : Prop where
  entered : m' = enterBody w closure arguments frames
  depth : w.depth = m.world.depth
  allowed : m.world.depth < callDepthLimit
  lighter : 1 + Frame.weightAll frames < m.weight
  within : Within frames

/-- A step within a call makes the weight smaller or enters the body of another call. -/
theorem move_lighter {L : Layout} {m m' : Machine} {goal : Bool} (h : Move m m')
    (hsorted : m.Sorted goal) (hfits : m.Fits L fun s => s.isLoop = false)
    (hwithin : Within m.frames) :
    (m'.weight < m.weight ∧ m'.world.depth = m.world.depth ∧ Within m'.frames) ∨
      ∃ w closure arguments frames, Enters m m' w closure arguments frames := by
  obtain ⟨given, hgives, hcarry⟩ := hsorted
  have hcontrol := hfits.control
  have hframes := hfits.frames
  have hpop : ∀ {w w' : World} {c c' : Control} {frame : Frame} {frames : List Frame},
      Within (frame :: frames) → w'.depth = w.depth → c.weight = 1 → c'.weight = 1 →
      (weight ⟨w', c', frames⟩ < weight ⟨w, c, frame :: frames⟩ ∧ w'.depth = w.depth ∧
        Within frames) := by
    intro w w' c c' frame frames hwithin hdepth hc hc'
    have hpos := frame.weight_pos
    refine ⟨?_, hdepth, (List.forall_mem_cons.mp hwithin).2⟩
    simp only [weight, Frame.weightAll_cons, hc, hc']
    omega
  have hstay : ∀ {w w' : World} {c c' : Control} {frames : List Frame}, Within frames →
      w'.depth = w.depth → c'.weight < c.weight →
      (weight ⟨w', c', frames⟩ < weight ⟨w, c, frames⟩ ∧ w'.depth = w.depth ∧ Within frames) :=
    fun hwithin hdepth hlighter => ⟨Nat.add_lt_add_right hlighter _, hdepth, hwithin⟩
  cases h with
  | defers h =>
    obtain ⟨hlighter, hplain⟩ := lighter_defers h hcontrol
    refine .inl ⟨?_, rfl, List.forall_mem_cons.mpr ⟨hplain, hwithin⟩⟩
    simp only [weight, Frame.weightAll_cons]
    omega
  | becomes h => exact .inl (hstay hwithin rfl (lighter_becomes h))
  | passes h =>
    obtain ⟨hframe, -⟩ := List.forall_mem_cons.mp hframes
    obtain ⟨hlighter, hmore⟩ := lighter_passes h hframe
    refine .inl ⟨?_, rfl, List.forall_mem_append.mpr ⟨hmore, (List.forall_mem_cons.mp hwithin).2⟩⟩
    simp only [weight, Frame.weightAll_cons, Frame.weightAll_append]
    omega
  | completes hframe =>
    obtain rfl : given = false := hgives
    cases hcarry.1.trans hframe
  | voids hframe =>
    obtain rfl : given = true := hgives
    cases hcarry.1.trans hframe
  | faults => exact .inl (hstay hwithin rfl (Expr.one_lt_weight _))
  | refuses => exact .inl (hpop hwithin rfl rfl rfl)
  | unwinds w f frame frames =>
    cases frame with
    | call caller closure => cases hwithin _ List.mem_cons_self
    | _ => exact .inl (hpop hwithin rfl rfl rfl)
  | reads => exact .inl (hstay hwithin rfl (Expr.one_lt_weight _))
  | writes => exact .inl (hpop hwithin rfl rfl rfl)
  | field => exact .inl (hpop hwithin rfl rfl rfl)
  | method => exact .inl (hpop hwithin rfl rfl rfl)
  | super => exact .inl (hstay hwithin rfl (Expr.one_lt_weight _))
  | setsField => exact .inl (hpop hwithin rfl rfl rfl)
  | prints => exact .inl (hpop hwithin rfl rfl rfl)
  | declares => exact .inl (hstay hwithin rfl (Nat.lt_succ_self 1))
  | defines => exact .inl (hpop hwithin rfl rfl rfl)
  | function => exact .inl (hstay hwithin rfl (Nat.lt_succ_self 1))
  | root => exact .inl (hstay hwithin rfl (Nat.lt_succ_self 1))
  | inherits w name parent methods superclass frames =>
    exact .inl (hpop hwithin rfl rfl rfl)
  | enters w body frames =>
    refine .inl ⟨?_, rfl, List.forall_mem_cons.mpr ⟨rfl, hwithin⟩⟩
    simp only [weight, Control.weight, Stmt.weight, Frame.weightAll_cons, Frame.weight]
    omega
  | leaves => exact .inl (hpop hwithin rfl rfl rfl)
  | clock => exact .inl (hpop hwithin rfl rfl rfl)
  | calls h harity hdepth =>
    refine .inr ⟨_, _, _, _, rfl, rfl, hdepth, ?_, (List.forall_mem_cons.mp hwithin).2⟩
    simp only [weight, Control.weight, Frame.weightAll_cons, weight_applies h]
    omega
  | creates => exact .inl (hpop hwithin rfl rfl rfl)
  | initializes h hmethod harity hdepth =>
    refine .inr ⟨_, _, _, _, rfl, rfl, hdepth, ?_,
      List.forall_mem_cons.mpr ⟨rfl, (List.forall_mem_cons.mp hwithin).2⟩⟩
    simp only [weight, Control.weight, Frame.weightAll_cons, weight_applies h]
    change 1 + (1 + Frame.weightAll _) < 1 + (2 + Frame.weightAll _)
    omega
  | returns => cases hwithin _ List.mem_cons_self

/-! ## Runs come to an end -/

def Halts (m : Machine) : Prop :=
  ∃ n, (run n m).halted = true

theorem Halts.of_run {m : Machine} (n : Nat) (h : (run n m).Halts) : m.Halts := by
  obtain ⟨k, hk⟩ := h
  refine ⟨n + k, ?_⟩
  rwa [run_add]

theorem Halts.of_step {m : Machine} (h : m.step.Halts) : m.Halts := by
  obtain ⟨k, hk⟩ := h
  exact ⟨k + 1, by rwa [run_succ]⟩

/-- Nothing stops a fault on its way. -/
theorem run_fault (w : World) (f : RuntimeFault) (frames : List Frame) :
    ∃ w', run frames.length ⟨w, .fault f, frames⟩ = ⟨w', .fault f, []⟩ := by
  induction frames generalizing w with
  | nil => exact ⟨w, rfl⟩
  | cons frame frames ih =>
    obtain ⟨w', hrun⟩ := ih (unwind w frame)
    exact ⟨w', (run_succ _ _).trans hrun⟩

/-- A machine that ends normally has had no fault, and one that ends with a fault no other. -/
theorem fault_of_passed {n k : Nat} {m last : Machine} {w : World} {f : RuntimeFault}
    {frames : List Frame} (h : run n m = last) (hlast : last.halted = true)
    (hfault : run k m = ⟨w, .fault f, frames⟩) : last.control = .fault f := by
  obtain ⟨w', hend⟩ := run_fault w f frames
  have hpassed := run_of_passed h hlast (k + frames.length)
  rw [run_add, hfault, hend, run_of_halted rfl] at hpassed
  rw [← hpassed]

/-- All code that a machine holds is free of loops. -/
def LoopFree (m : Machine) : Prop :=
  ∃ L : Layout, m.Fits L fun s => s.isLoop = false

theorem LoopFree.step {m : Machine} (hactive : m.halted = false) (h : m.LoopFree) :
    m.step.LoopFree := by
  obtain ⟨L, hfits⟩ := h
  obtain ⟨L', -, hfits', -⟩ := move_fits (move_step hactive) rfl hfits
  exact ⟨L', hfits'⟩

theorem LoopFree.run {m : Machine} (h : m.LoopFree) (n : Nat) : (run n m).LoopFree :=
  run_preserves (fun _ hactive hm => hm.step hactive) h n

/-- The body of a closure on its own. -/
def bodyOf (w : World) (closure : Closure) (arguments : List Value) : Machine :=
  { enterBody w closure arguments [] with frames := [] }

theorem enterBody_eq_lift (w : World) (closure : Closure) (arguments : List Value)
    (frames : List Frame) : enterBody w closure arguments frames =
      lift (.call w.chain closure :: frames) (bodyOf w closure arguments) := rfl

theorem finishCall_eq (w : World) (caller : Chain) (closure : Closure) (completion : Completion)
    (frames : List Frame) : ∃ c, finishCall w caller closure completion frames =
      ⟨w.leaveCall caller, c, frames⟩ ∧ c.weight = 1 := by
  unfold finishCall
  dsimp only
  split
  · split
    · exact ⟨_, rfl, rfl⟩
    · exact ⟨_, rfl, rfl⟩
  · split
    · exact ⟨_, rfl, rfl⟩
    · exact ⟨_, rfl, rfl⟩

/-- What a body on its own comes to is handed to the caller, with as many calls in progress as
before. -/
theorem Enters.returns {m : Machine} {w : World} {closure : Closure} {arguments : List Value}
    {frames : List Frame} (h : Enters m m.step w closure arguments frames)
    (hbody : (bodyOf w closure arguments).Halts) :
    ∃ n w' c, run n m = ⟨w', c, frames⟩ ∧ c.weight = 1 ∧ w'.depth = m.world.depth := by
  obtain ⟨n, hn⟩ := hbody
  rcases run_lift_or (.call w.chain closure :: frames) (n + 1) (bodyOf w closure arguments) with
    ⟨hactive, -⟩ | ⟨k, -, hhalted, hlift⟩
  · rw [hactive n (Nat.lt_succ_self n)] at hn
    cases hn
  · have hrun : ∀ m', step (lift (.call w.chain closure :: frames)
        (run k (bodyOf w closure arguments))) = m' → run (k + 1 + 1) m = m' := by
      rintro m' rfl
      rw [run_succ, h.entered, enterBody_eq_lift, run_add, hlift, run_succ, run_zero]
    have hdepth := congrArg Prod.snd (context_run ((halted_iff _).mp hhalted).1)
    have hsorted : (bodyOf w closure arguments).Sorted true := ⟨true, rfl, rfl⟩
    obtain ⟨w', ⟨completion, hend⟩ | ⟨f, hend⟩⟩ := done_of_halted (sorted_run hsorted k) hhalted
    · obtain ⟨c, hfinish, hc⟩ := finishCall_eq w' w.chain closure completion frames
      rw [hend] at hrun hdepth
      refine ⟨_, _, c, hrun _ hfinish, hc, ?_⟩
      rw [World.leaveCall_eq, ← h.depth]
      exact congrArg (· - 1) hdepth
    · rw [hend] at hrun hdepth
      refine ⟨_, _, _, hrun _ rfl, rfl, ?_⟩
      rw [← h.depth]
      exact congrArg (· - 1) hdepth

/-- A machine without loops comes to its end. -/
theorem halts_of_loopFree {m : Machine} {goal : Bool} (hsorted : m.Sorted goal)
    (hfree : m.LoopFree) (hwithin : Within m.frames) : m.Halts := by
  -- Each body that is entered uses up one of the calls that are still allowed; within one call the
  -- weight becomes smaller.
  induction hcalls : callDepthLimit - m.world.depth using Nat.strongRecOn generalizing m goal with
  | ind calls ihcalls =>
    induction hweight : m.weight using Nat.strongRecOn generalizing m with
    | ind weight ihweight =>
      cases hhalted : m.halted with
      | true => exact ⟨0, hhalted⟩
      | false =>
        have hstep := hfree.step hhalted
        obtain ⟨L, hfits⟩ := hfree
        rcases move_lighter (move_step hhalted) hsorted hfits hwithin with
          ⟨hlighter, hdepth, hnext⟩ | ⟨w, closure, arguments, frames, henters⟩
        · have hsorted' := move_sorted (move_step hhalted) hsorted
          exact .of_step (ihweight m.step.weight (hweight ▸ hlighter) hsorted' hstep hnext
            (by rw [hdepth, hcalls]) rfl)
        · obtain ⟨L', hbody⟩ := hstep
          rw [henters.entered] at hbody
          have hbodyFree : (bodyOf w closure arguments).LoopFree :=
            ⟨L', hbody.holds, hbody.chain, hbody.control, List.forall_mem_nil _⟩
          have hfewer : callDepthLimit - (w.depth + 1) < calls := by
            have hdepth := henters.depth
            have hallowed := henters.allowed
            omega
          have hends : (bodyOf w closure arguments).Halts :=
            ihcalls _ hfewer ⟨true, rfl, rfl⟩ hbodyFree (List.forall_mem_nil _) rfl
          obtain ⟨n, w', c, hrun, hc, hdepth⟩ := henters.returns hends
          refine .of_run n ?_
          have hsorted' := sorted_run hsorted n
          have hfree' := LoopFree.run ⟨L, hfits⟩ n
          rw [hrun] at hsorted' hfree' ⊢
          have hlighter : Machine.weight ⟨w', c, frames⟩ < weight := by
            rw [← hweight, Machine.weight, hc]
            exact henters.lighter
          exact ihweight _ hlighter hsorted' hfree' henters.within (by rw [hdepth, hcalls]) rfl

end Machine

/-! ## Runaway recursion -/

namespace Machine

/-- A function without parameters stands in the global scope under the name that a reference reads. -/
structure Recurs (target : Reference) (id : Nat) (closure : Closure) (w : World) : Prop where
  global : w.distances.get? target = none
  bound : (w.store.scope 0).get? target.name.lexeme = some (.callable (.function id closure))
  parameters : closure.declaration.params = []

section Recursion
variable {target : Reference} {id : Nat} {closure : Closure} {paren : Token} {rest : List Stmt}

/-- A body that calls its own function first comes to the call. -/
theorem run_recursion {w : World} (hw : Recurs target id closure w)
    (hbody : closure.declaration.body = .expression (.call (.variable target) paren []) :: rest)
    (frames : List Frame) :
    run 5 ⟨w, .execAll closure.declaration.body, frames⟩ =
      if callDepthLimit ≤ w.depth then
        ⟨w, .fault (paren.fault .stackOverflow), .discard :: .sequence rest :: frames⟩
      else enterBody w closure [] (.discard :: .sequence rest :: frames) := by
  have hread : w.read? target = some (.callable (.function id closure)) :=
    (World.read?_of_global hw.global).trans hw.bound
  have harity : closure.arity = 0 := congrArg List.length hw.parameters
  simp only [hbody, run_succ, run_zero, step, stepExec, stepEval, read, hread, stepValue,
    evalArguments, apply, Callable.arity, harity, enter, List.length_nil]
  simp

theorem Recurs.enterBody {w : World} (hw : Recurs target id closure w) (frames : List Frame) :
    Recurs target id closure (enterBody w closure [] frames).world := by
  refine ⟨hw.global, ?_, hw.parameters⟩
  change ((w.store.newScope _).2.scope 0).get? _ = _
  rw [Store.scope_newScope, if_neg]
  · exact hw.bound
  · intro hzero
    have hempty := Store.scope_of_size_le (Nat.le_of_eq hzero.symm)
    have hbound := hw.bound
    rw [hempty] at hbound
    cases hbound

/-- A function that calls itself before anything else ends with a fault: there are too many calls. -/
theorem recursion_overflows {w : World} (hw : Recurs target id closure w)
    (hbody : closure.declaration.body = .expression (.call (.variable target) paren []) :: rest)
    (frames : List Frame) :
    ∃ n w', run n ⟨w, .execAll closure.declaration.body, frames⟩ =
      ⟨w', .fault (paren.fault .stackOverflow), []⟩ := by
  induction hcalls : callDepthLimit - w.depth generalizing w frames with
  | zero =>
    obtain ⟨w', hfault⟩ := run_fault w (paren.fault .stackOverflow)
      (.discard :: .sequence rest :: frames)
    refine ⟨5 + (.discard :: .sequence rest :: frames : List Frame).length, w', ?_⟩
    rw [run_add, run_recursion hw hbody, if_pos (Nat.le_of_sub_eq_zero hcalls), hfault]
  | succ calls ih =>
    have hdepth : ¬ callDepthLimit ≤ w.depth := by omega
    obtain ⟨n, w', hrun⟩ := ih (hw.enterBody (.discard :: .sequence rest :: frames))
      (.call w.chain closure :: .discard :: .sequence rest :: frames) (by
        change callDepthLimit - (w.depth + 1) = calls
        omega)
    refine ⟨5 + n, w', ?_⟩
    rw [run_add, run_recursion hw hbody, if_neg hdepth]
    exact hrun

end Recursion

end Machine

/-! ## Sessions -/

/-- What a session comes to an interpreter can come to, with the code of the programs that were
taken. -/
theorem Lived.reachable {admits : Token → Prop} {nextId : Nat} {m : Machine} {h : History}
    {allowed : Stmt → Prop} (hl : Lived admits nextId m h)
    (hall : ∀ program ∈ h.programs, ∀ s ∈ Stmt.partsAll program, allowed s) :
    ∃ past, m.Reachable allowed past := by
  induction hl with
  | fresh sink clock => exact ⟨[], .fresh sink clock⟩
  | step hl ih =>
    obtain ⟨past, hreached⟩ := ih hall
    exact ⟨_, hreached.step⟩
  | load hl hhalted hadmits hload ih =>
    obtain ⟨hprogram, hearlier⟩ := List.forall_mem_cons.mp hall
    obtain ⟨past, hreached⟩ := ih hearlier
    obtain ⟨-, -, entries, -, hworld⟩ := Session.loadTokens_some hload
    rw [hworld]
    exact ⟨past, .program _ hreached hhalted hprogram⟩
  | @refuse nextId m h log tokens s hl hhalted hadmits hload ih =>
    obtain ⟨past, hreached⟩ := ih hall
    obtain ⟨-, hworld⟩ := Session.loadTokens_none hload
    rw [hworld]
    have hnothing : ∀ s ∈ Stmt.partsAll [], allowed s := List.forall_mem_nil _
    -- A program of no statements leads to the same world.
    exact ⟨_, (Machine.Reachable.program m.world.distances hreached hhalted hnothing).step⟩

theorem World.interpret?_of_halts {w : World} {program : List Stmt} (h : (w.program program).Halts) :
    ∃ fuel fault w', w.interpret? fuel program = some (fault, w') ∧
      ∀ n w' f frames, Machine.run n (w.program program) = ⟨w', .fault f, frames⟩ →
        fault = some f := by
  obtain ⟨n, hhalted⟩ := h
  have hsorted : (w.program program).Sorted true := ⟨true, rfl, rfl⟩
  unfold World.interpret?
  obtain ⟨w', ⟨completion, hend⟩ | ⟨f, hend⟩⟩ :=
    Machine.done_of_halted (Machine.sorted_run hsorted n) hhalted
  · refine ⟨n, none, w', by rw [hend]; rfl, fun k w₁ f frames hfault => ?_⟩
    cases Machine.fault_of_passed hend rfl hfault
  · refine ⟨n, some f, w', by rw [hend]; rfl, fun k w₁ f' frames hfault => ?_⟩
    cases Machine.fault_of_passed hend rfl hfault
    rfl

theorem World.evaluate?_of_halts {w : World} {e : Expr} (h : Machine.Halts ⟨w, .eval e, []⟩) :
    ∃ fuel result w', w.evaluate? fuel e = some (result, w') := by
  obtain ⟨n, hhalted⟩ := h
  have hsorted : Machine.Sorted false ⟨w, .eval e, []⟩ := ⟨false, rfl, rfl⟩
  unfold World.evaluate?
  obtain ⟨w', ⟨v, hend⟩ | ⟨f, hend⟩⟩ :=
    Machine.value_of_halted (Machine.sorted_run hsorted n) hhalted
  · exact ⟨n, .ok v, w', by rw [hend]; rfl⟩
  · exact ⟨n, .error f, w', by rw [hend]; rfl⟩

/-- In a session whose earlier programs have no loops, a program without loops comes to its end, normally
or with the first fault that comes up, too many calls on top of each other among them; and so does the
evaluation of any expression. -/
theorem loop_free_terminates {admits : Token → Prop} {nextId : Nat} {m : Machine} {h : History}
    (hl : Lived admits nextId m h) (hhalted : m.halted = true)
    (hearlier : ∀ program ∈ h.programs, Stmt.LoopFree program) :
    (∀ (log : Log) (tokens : List Token) (s : Session) (program : List Stmt),
      (Session.mk m.world log nextId).loadTokens tokens = (s, some program) →
      Stmt.LoopFree program →
      ∃ fuel fault w', s.world.interpret? fuel program = some (fault, w') ∧
        ∀ n w' f frames, Machine.run n (s.world.program program) = ⟨w', .fault f, frames⟩ →
          fault = some f) ∧
    ∀ e : Expr, ∃ fuel result w', m.world.evaluate? fuel e = some (result, w') := by
  obtain ⟨past, hreached⟩ := hl.reachable hearlier
  refine ⟨fun log tokens s program hload hfree => ?_, fun e => ?_⟩
  · obtain ⟨-, -, entries, -, hworld⟩ := Session.loadTokens_some hload
    rw [hworld]
    obtain ⟨L, hfits, -⟩ := (hreached.program (m.world.distances.record entries) hhalted hfree).fits
    exact World.interpret?_of_halts
      (Machine.halts_of_loopFree ⟨true, rfl, rfl⟩ ⟨L, hfits⟩ (List.forall_mem_nil _))
  · obtain ⟨L, hfits, -⟩ := (hreached.expression m.world.distances e hhalted).fits
    exact World.evaluate?_of_halts
      (Machine.halts_of_loopFree ⟨false, rfl, rfl⟩ ⟨L, hfits⟩ (List.forall_mem_nil _))

/-- A function that does nothing but call itself. -/
theorem loop_free_terminates_in_overflow :
    let name : Token := ⟨.identifier, "f", 1⟩
    let sign (symbol : Symbol) : Token := ⟨.symbol symbol, "", 1⟩
    let call (id : Nat) : Stmt :=
      .expression (.call (.variable ⟨id, name⟩) (sign .rightParen) [])
    let calling : List Token := [name, sign .leftParen, sign .rightParen, sign .semicolon]
    let tokens := [⟨.keyword .funWord, "fun", 1⟩, name, sign .leftParen, sign .rightParen,
      sign .leftBrace] ++ calling ++ [sign .rightBrace] ++ calling ++ [.endOn 1]
    let program : List Stmt := [.function ⟨name, [], [call 0]⟩, call 1]
    ∃ s fuel w', (Session.fresh (.ofRoom none) (.standing 0)).loadTokens tokens = (s, some program) ∧
      Stmt.LoopFree program ∧
      s.world.interpret? fuel program = some (some ⟨.stackOverflow, 1⟩, w') := by
  intro name sign call calling tokens program
  let s : Session := ⟨.fresh (.ofRoom none) (.standing 0), .empty, 2⟩
  have hload : (Session.fresh (.ofRoom none) (.standing 0)).loadTokens tokens =
      (s, some program) := by cbv
  have hfree : Stmt.LoopFree program := by decide
  have hl : Lived (fun _ => True) 0 _ ⟨[], []⟩ := .fresh (.ofRoom none) (.standing 0)
  obtain ⟨hprograms, -⟩ := loop_free_terminates hl rfl (List.forall_mem_nil _)
  obtain ⟨fuel, fault, w', hruns, hfault⟩ :=
    hprograms .empty tokens s program hload hfree
  -- The body is entered for the first time after some steps.
  let first := Machine.run 8 (s.world.program program)
  have hcalls : Machine.Recurs ⟨0, name⟩ 0 ⟨⟨name, [], [call 0]⟩, .globals, false⟩ first.world :=
    ⟨by rfl, by rfl, rfl⟩
  obtain ⟨n, w, hoverflow⟩ := Machine.recursion_overflows hcalls rfl first.frames
  have hentered : first = ⟨first.world, .execAll [call 0], first.frames⟩ := by rfl
  obtain rfl : fault = some ⟨.stackOverflow, 1⟩ := by
    refine hfault (8 + n) w _ [] ?_
    rw [Machine.run_add]
    exact (congrArg (Machine.run n) hentered).trans hoverflow
  exact ⟨s, fuel, w', hload, hfree, hruns⟩

end LoxLang
