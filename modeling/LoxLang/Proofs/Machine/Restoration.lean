import LoxLang.Proofs.Machine.Moves
import LoxLang.Proofs.Machine.Updates
import LoxLang.Session

/-!
Every way out of an evaluation restores its context, which is the active chain and the number of
calls in progress. The frames say what the context will be once they are gone; a step never changes
that (`Move.unwound`), so a task that comes to its end leaves the context it found, and a session is
back in the global scope between its runs.
-/
namespace LoxLang
set_option autoImplicit false

/-- The active chain and the number of calls in progress. -/
def World.context (w : World) : Chain × Nat :=
  (w.chain, w.depth)

/-- The context once a frame is gone. -/
def Frame.restore : Frame → Chain × Nat → Chain × Nat
  | .block outer, (_, depth) => (outer, depth)
  | .call caller _, (_, depth) => (caller, depth - 1)
  | _, context => context

/-- The context once some frames are gone, the first of them at first. -/
def Frame.restoreAll (frames : List Frame) (context : Chain × Nat) : Chain × Nat :=
  frames.foldl (fun context frame => frame.restore context) context

@[simp] theorem Frame.restoreAll_nil (context : Chain × Nat) : restoreAll [] context = context := rfl

@[simp] theorem Frame.restoreAll_cons (frame : Frame) (frames : List Frame)
    (context : Chain × Nat) :
    restoreAll (frame :: frames) context = restoreAll frames (frame.restore context) := rfl

namespace Machine

/-- The context once all frames are gone. -/
def unwound (m : Machine) : Chain × Nat :=
  Frame.restoreAll m.frames m.world.context

/-! ## Steps and runs -/

theorem restore_defers {c c' : Control} {frame : Frame} (h : c.Defers c' frame)
    (context : Chain × Nat) : frame.restore context = context := by
  cases h <;> rfl

theorem restore_passes {frame : Frame} {c c' : Control} {more : List Frame}
    (h : frame.Passes c c' more) (context : Chain × Nat) :
    frame.restore context = context ∧ ∀ f ∈ more, f.restore context = context := by
  cases h <;> exact ⟨rfl, by simp [Frame.restore]⟩

/-- Frames that wait for a value restore nothing. -/
theorem restore_of_value {frame : Frame} (h : frame.awaitsStatement = false)
    (context : Chain × Nat) : frame.restore context = context := by
  cases frame with
  | block outer => cases h
  | call caller closure => cases h
  | _ => rfl

theorem restoreAll_append_of_same {more : List Frame} {context : Chain × Nat}
    (h : ∀ frame ∈ more, frame.restore context = context) (frames : List Frame) :
    Frame.restoreAll (more ++ frames) context = Frame.restoreAll frames context := by
  induction more with
  | nil => rfl
  | cons frame more ih =>
    obtain ⟨hframe, hmore⟩ := List.forall_mem_cons.mp h
    rw [List.cons_append, Frame.restoreAll_cons, hframe]
    exact ih hmore

/-- A step leaves the context to which the frames lead back as it is. -/
theorem Move.unwound {m m' : Machine} (h : Move m m') : m'.unwound = m.unwound := by
  -- Only the frames of blocks and calls restore anything, and they wait for statements.
  have hpop : ∀ {frame : Frame} (frames : List Frame) (context : Chain × Nat),
      frame.awaitsStatement = false →
      Frame.restoreAll frames context = Frame.restoreAll (frame :: frames) context :=
    fun frames context hframe => congrArg (Frame.restoreAll frames) (restore_of_value hframe _).symm
  cases h with
  | defers h => exact congrArg (Frame.restoreAll _) (restore_defers h _)
  | @passes w c c' frame more frames h =>
    obtain ⟨hframe, hmore⟩ := restore_passes h w.context
    exact (restoreAll_append_of_same hmore frames).trans
      (congrArg (Frame.restoreAll frames) hframe.symm)
  | refuses hframe => exact hpop _ _ hframe
  | unwinds w f frame frames => cases frame <;> rfl
  | clock h => exact hpop _ _ (Applies.awaitsValue h)
  | @calls w v frame frames id closure arguments h =>
    exact hpop frames w.context (Applies.awaitsValue h)
  | creates h => exact hpop _ _ (Applies.awaitsValue h)
  | @initializes w v frame frames origin method arguments h =>
    exact hpop frames w.context (Applies.awaitsValue h)
  | _ => rfl

/-- A body is entered below the limit only. -/
theorem Move.depth_le {m m' : Machine} (h : Move m m') (hm : m.world.depth ≤ callDepthLimit) :
    m'.world.depth ≤ callDepthLimit := by
  cases h with
  | unwinds w f frame frames =>
    cases frame with
    | call caller closure => exact Nat.le_trans (Nat.sub_le w.depth 1) hm
    | _ => exact hm
  | calls h harity hdepth => exact hdepth
  | initializes h hmethod harity hdepth => exact hdepth
  | @returns w => exact Nat.le_trans (Nat.sub_le w.depth 1) hm
  | _ => exact hm

theorem unwound_run (n : Nat) (m : Machine) : (run n m).unwound = m.unwound :=
  run_preserves (P := fun m' => m'.unwound = m.unwound)
    (fun _ hactive h => (move_step hactive).unwound.trans h) rfl n

theorem unwound_step (m : Machine) : m.step.unwound = m.unwound := by
  have hfirst := unwound_run 1 m
  rwa [run_succ, run_zero] at hfirst

/-- The bound on the number of calls holds in every state that a machine passes. -/
theorem depth_run_le (n : Nat) (m : Machine) (h : m.world.depth ≤ callDepthLimit) :
    (run n m).world.depth ≤ callDepthLimit :=
  run_preserves (fun _ hactive hm => (move_step hactive).depth_le hm) h n

/-- A run that ends without frames ends in the context to which its start leads back. -/
theorem context_run {n : Nat} {m : Machine} (h : (run n m).frames = []) :
    (run n m).world.context = m.unwound := by
  rw [← unwound_run n m, Machine.unwound, h, Frame.restoreAll_nil]

end Machine

/-! ## Tasks -/

/-- Whether a control hands a result to the frame on top. -/
def Control.isResult : Control → Bool
  | .value _ => true
  | .done _ => true
  | .fault _ => true
  | _ => false

def Control.isValue : Control → Bool
  | .value _ => true
  | _ => false

namespace Machine

/-- The machine hands a result to the frames `base`. -/
def YieldsTo (base : List Frame) (m : Machine) : Prop :=
  m.frames = base ∧ m.control.isResult = true

/-- The machine hands a result to the frames `base` after `n` steps and not before. -/
def FinishesAt (base : List Frame) (n : Nat) (m : Machine) : Prop :=
  (run n m).YieldsTo base ∧ ∀ k < n, ¬ (run k m).YieldsTo base

theorem halted_iff (m : Machine) : m.halted = true ↔ m.YieldsTo [] := by
  obtain ⟨w, c, frames⟩ := m
  cases c <;> cases frames <;> simp [halted, YieldsTo, Control.isResult]

theorem outcome?_eq_none {m : Machine} : m.outcome? = none ↔ m.halted = false := by
  obtain ⟨w, c, frames⟩ := m
  cases c <;> cases frames <;> simp [outcome?, halted]

/-- The machine does not hand a result to the frames `base` before `n` steps. -/
def Busy (base : List Frame) (n : Nat) (m : Machine) : Prop :=
  ∀ k < n, ¬ (run k m).YieldsTo base

/-- Read off the numbers of frames that a machine is busy. -/
theorem Busy.of_lengths {base : List Frame} {n : Nat} {m : Machine}
    (h : ∀ k < n, ¬ ((run k m).frames.length = base.length ∧
      (run k m).control.isResult = true)) : m.Busy base n :=
  fun k hk hyields => h k hk ⟨congrArg List.length hyields.1, hyields.2⟩

/-- A machine on its own comes to its end no sooner than it yields to the frames below it. -/
theorem Busy.not_halted {base : List Frame} {n : Nat} {m : Machine}
    (h : (lift base m).Busy base n) : ∀ k < n, (run k m).halted = false := by
  intro k
  -- Up to step `k` the two runs agree, so an end of the one at `k` is a result of the other.
  induction k using Nat.strongRecOn with
  | ind k ih =>
    intro hk
    cases hend : (run k m).halted with
    | false => rfl
    | true =>
      obtain ⟨hframes, hresult⟩ := (halted_iff _).mp hend
      refine absurd ?_ (h k hk)
      rw [run_lift base k m fun j hj => ih j hj (Nat.lt_trans hj hk)]
      exact ⟨by simp [hframes], hresult⟩

/-- A machine that has not come to its end does not yield to the frames below it. -/
theorem Busy.of_active {base : List Frame} {n : Nat} {m : Machine}
    (h : ∀ k < n, (run k m).halted = false) : (lift base m).Busy base n := by
  intro k hk hyields
  rw [Machine.run_lift base k m fun j hj => h j (Nat.lt_trans hj hk)] at hyields
  have hframes : (run k m).frames = [] := List.append_left_eq_self.mp hyields.1
  have hhalted := (halted_iff (run k m)).mpr ⟨hframes, hyields.2⟩
  rw [h k hk] at hhalted
  cases hhalted

theorem Busy.run_lift {base : List Frame} {n : Nat} {m : Machine} (h : (lift base m).Busy base n) :
    run n (lift base m) = lift base (run n m) :=
  Machine.run_lift base n m h.not_halted

/-- A machine that finishes with frames below it comes back to its own context. -/
theorem FinishesAt.context {base : List Frame} {n : Nat} {m : Machine}
    (h : (lift base m).FinishesAt base n) :
    (run n (lift base m)).world.context = m.unwound := by
  have hlift := Busy.run_lift h.2
  have hframes := h.1.1
  rw [hlift, lift_frames] at hframes
  have hnil : (run n m).frames = [] := List.append_left_eq_self.mp hframes
  rw [hlift, lift_world, context_run hnil]

end Machine

/-- Something that a machine can be set to do in a world. -/
inductive Task where
  | evaluate (e : Expr)
  | execute (s : Stmt)
  /-- Statements that run in a chain of their own. -/
  | executeAll (body : List Stmt) (chain : Chain)
  | call (callee : Value) (paren : Token) (arguments : List Value)

/-- The machine that sets out on a task, with frames that wait for the result. -/
def Task.start (w : World) (frames : List Frame) : Task → Machine
  | .evaluate e => ⟨w, .eval e, frames⟩
  | .execute s => ⟨w, .exec s, frames⟩
  | .executeAll body chain => ⟨w.withChain chain, .execAll body, .block w.chain :: frames⟩
  | .call callee paren arguments => Machine.apply w callee paren arguments frames

namespace Task
variable (w : World) (task : Task)

theorem start_lift (base : List Frame) : task.start w base = Machine.lift base (task.start w []) := by
  cases task with
  | call callee paren arguments => exact Machine.apply_lift base [] w callee paren arguments
  | _ => rfl

theorem unwound_start : (task.start w []).unwound = w.context := by
  cases task with
  | call callee paren arguments =>
    obtain ⟨frame, v, h⟩ := Machine.exists_applies callee paren arguments
    exact (Machine.move_apply w [] h paren).unwound.trans
      (Machine.restore_of_value (Machine.Applies.awaitsValue h) _)
  | _ => rfl

theorem depth_start_le (base : List Frame) (h : w.depth ≤ callDepthLimit) :
    (task.start w base).world.depth ≤ callDepthLimit := by
  cases task with
  | call callee paren arguments =>
    obtain ⟨frame, v, hcall⟩ := Machine.exists_applies callee paren arguments
    exact (Machine.move_apply w base hcall paren).depth_le h
  | _ => exact h

end Task

/-! ## Sessions -/

namespace Session

/-- Loading leaves the context as it is, whether the source is refused or not. -/
theorem loadTokens_context (s : Session) (tokens : List Token) :
    (s.loadTokens tokens).1.world.context = s.world.context := by
  unfold loadTokens
  dsimp only [reportAll]
  split
  · rfl
  · split
    · rfl
    · split
      · rfl
      · rfl

theorem load_context (s : Session) (source : List UInt8) :
    (s.load source).1.world.context = s.world.context :=
  loadTokens_context _ _

/-- A program that has come to its end leaves the world of a machine at its end. -/
theorem halted_of_interpret? {fuel : Nat} {w w' : World} {program : List Stmt}
    {fault : Option RuntimeFault} (h : w.interpret? fuel program = some (fault, w')) :
    (Machine.run fuel (w.program program)).halted = true ∧
      (Machine.run fuel (w.program program)).world = w' := by
  unfold World.interpret? at h
  generalize Machine.run fuel (w.program program) = m at h ⊢
  obtain ⟨world, c, frames⟩ := m
  cases c <;> cases frames <;> simp_all [Machine.outcome?, Machine.halted]

theorem run?_context {fuel : Nat} {s s' : Session} {source : List UInt8}
    (h : s.run? fuel source = some s') : s'.world.context = s.world.context := by
  have hload := load_context s source
  unfold run? at h
  split at h
  · rename_i loaded he
    rw [he] at hload
    cases h
    exact hload
  · rename_i world log nextId program he
    rw [he] at hload
    obtain ⟨⟨fault, world'⟩, hrun, hs⟩ := Option.map_eq_some_iff.mp h
    subst hs
    obtain ⟨hhalted, hworld⟩ := halted_of_interpret? hrun
    calc (concluded log nextId fault world').world.context
        = (Machine.run fuel (world.program program)).world.context := by rw [hworld]; rfl
      _ = world.context := Machine.context_run ((Machine.halted_iff _).mp hhalted).1
      _ = s.world.context := hload

/-- Runs sources one after the other, each within some steps. -/
def runAll? (s : Session) : List (Nat × List UInt8) → Option Session
  | [] => some s
  | (fuel, source) :: rest => (s.run? fuel source).bind (runAll? · rest)

theorem runAll?_context {runs : List (Nat × List UInt8)} {s s' : Session}
    (h : s.runAll? runs = some s') : s'.world.context = s.world.context := by
  induction runs generalizing s with
  | nil =>
    cases h
    rfl
  | cons run rest ih =>
    obtain ⟨fuel, source⟩ := run
    obtain ⟨next, hrun, hrest⟩ := Option.bind_eq_some_iff.mp h
    rw [ih hrest, run?_context hrun]

end Session

/-- A task that finishes, in whatever way, leaves the active chain and the number of calls as it found
them, and never is there one call more than the limit; between the runs of a session the global scope
is active and no call is in progress. -/
theorem context_restored :
    (∀ (w : World) (task : Task) (base : List Frame), w.depth ≤ callDepthLimit →
      (∀ k, (Machine.run k (task.start w base)).world.depth ≤ callDepthLimit) ∧
      ∀ n, (task.start w base).FinishesAt base n →
        (Machine.run n (task.start w base)).world.chain = w.chain ∧
        (Machine.run n (task.start w base)).world.depth = w.depth) ∧
    ∀ (sink : Sink) (clock : Clock) (runs : List (Nat × List UInt8)) (s : Session),
      (Session.fresh sink clock).runAll? runs = some s →
      s.world.chain = .globals ∧ s.world.depth = 0 := by
  refine ⟨fun w task base hdepth => ⟨fun k => ?_, fun n hfinish => ?_⟩, fun sink clock runs s h => ?_⟩
  · exact Machine.depth_run_le k _ (task.depth_start_le w base hdepth)
  · rw [task.start_lift w base] at hfinish ⊢
    have hcontext := hfinish.context
    rw [task.unwound_start w] at hcontext
    exact ⟨congrArg Prod.fst hcontext, congrArg Prod.snd hcontext⟩
  · have hcontext := Session.runAll?_context h
    exact ⟨congrArg Prod.fst hcontext, congrArg Prod.snd hcontext⟩

/-- A call whose body returns from inside a block, and a session whose only source fails inside one. -/
theorem context_restored_from_blocks :
    let w := World.fresh (.ofRoom none) (.standing 0)
    let name : Token := ⟨.identifier, "f", 1⟩
    let closure : Closure := ⟨⟨name, [], [.block [.returnWith name none]]⟩, .globals, false⟩
    let called := Task.start w [.discard] (.call (.callable (.function 0 closure)) name [])
    called.FinishesAt [.discard] 8 ∧ called.world.depth = 1 ∧
      ((Machine.run 8 called).world.chain = w.chain ∧
        (Machine.run 8 called).world.depth = w.depth) ∧
      ∃ s, (Session.fresh (.ofRoom none) (.standing 0)).runAll?
          [(100, [123, 110, 105, 108, 40, 41, 59, 125])] = some s ∧
        s.log.hadRuntimeError = true ∧ s.world.chain = .globals ∧ s.world.depth = 0 := by
  intro w name closure called
  have hlength : ∀ k < 8, (Machine.run k called).frames.length ≠ 1 := by decide
  have hfinish : called.FinishesAt [.discard] 8 :=
    ⟨⟨rfl, rfl⟩, fun k hk h => hlength k hk (congrArg List.length h.1)⟩
  have hcall := context_restored.1 w (.call (.callable (.function 0 closure)) name []) [.discard]
    (Nat.zero_le callDepthLimit)
  have hfails : ((Session.fresh (.ofRoom none) (.standing 0)).runAll?
      [(100, [123, 110, 105, 108, 40, 41, 59, 125])]).any (·.log.hadRuntimeError) = true := by
    decide +kernel
  obtain ⟨s, hs, herror⟩ := (Option.any_eq_true _ _).mp hfails
  exact ⟨hfinish, rfl, hcall.2 8 hfinish, s, hs, herror, context_restored.2 _ _ _ s hs⟩

end LoxLang
