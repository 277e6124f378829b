import LoxLang.Machine.Step

/-!
Steps look at the top of the stack of frames only. `step_lift` says that a machine that has not come
to its end takes the same step with more frames below, and `run_lift` that it takes the same steps
until it comes to its end; so what is shown of a part of a program on its own holds wherever that
part stands.
-/
namespace LoxLang.Machine
set_option autoImplicit false

/-- The machine with more frames below its own. -/
def lift (base : List Frame) (m : Machine) : Machine :=
  { m with frames := m.frames ++ base }

@[simp] theorem lift_mk (base frames : List Frame) (w : World) (c : Control) :
    lift base ⟨w, c, frames⟩ = ⟨w, c, frames ++ base⟩ := rfl

@[simp] theorem lift_world (base : List Frame) (m : Machine) : (lift base m).world = m.world := rfl

@[simp] theorem lift_control (base : List Frame) (m : Machine) :
    (lift base m).control = m.control := rfl

@[simp] theorem lift_frames (base : List Frame) (m : Machine) :
    (lift base m).frames = m.frames ++ base := rfl

theorem lift_lift (base below : List Frame) (m : Machine) :
    lift base (lift below m) = lift (below ++ base) m := by
  simp [lift]

/-! ## Parts of a step -/

section Parts
variable (base frames : List Frame) (w : World)

theorem settle_lift (result : Except RuntimeFault Value) :
    settle w (frames ++ base) result = lift base (settle w frames result) := by
  cases result <;> rfl

theorem read_lift (target : Reference) :
    read w target (frames ++ base) = lift base (read w target frames) := by
  unfold read
  cases w.read? target <;> rfl

theorem write_lift (target : Reference) (v : Value) :
    write w target v (frames ++ base) = lift base (write w target v frames) := by
  unfold write
  cases w.binder? target <;> rfl

theorem readProperty_lift (v : Value) (name : Token) :
    readProperty w v name (frames ++ base) = lift base (readProperty w v name frames) := by
  unfold readProperty
  cases v with
  | object object =>
    dsimp only
    generalize w.onStore (·.property? object name.lexeme) = found
    obtain ⟨_ | v, w'⟩ := found <;> rfl
  | _ => rfl

theorem readSuper_lift (keyword : Reference) (method : Token) :
    readSuper w keyword method (frames ++ base) =
      lift base (readSuper w keyword method frames) := by
  unfold readSuper
  cases superParts w keyword with
  | error f => rfl
  | ok parts =>
    obtain ⟨superclass, object⟩ := parts
    dsimp only
    cases superclass.method? method.lexeme <;> rfl

theorem construct_lift (origin : ClassObject) (arguments : List Value) :
    construct w origin arguments (frames ++ base) =
      lift base (construct w origin arguments frames) := by
  unfold construct
  dsimp only
  cases origin.method? initializerName <;> rfl

theorem enter_lift (callable : Callable) (arguments : List Value) :
    enter w callable arguments (frames ++ base) =
      lift base (enter w callable arguments frames) := by
  cases callable with
  | clock => rfl
  | function id closure => rfl
  | classObject origin => exact construct_lift base frames w origin arguments

theorem apply_lift (callee : Value) (paren : Token) (arguments : List Value) :
    apply w callee paren arguments (frames ++ base) =
      lift base (apply w callee paren arguments frames) := by
  unfold apply
  cases callee with
  | callable callable =>
    dsimp only
    rw [enter_lift]
    split
    · rfl
    · split <;> rfl
  | _ => rfl

theorem evalArguments_lift (callee : Value) (paren : Token) (before : List Value)
    (rest : List Expr) :
    evalArguments w callee paren before rest (frames ++ base) =
      lift base (evalArguments w callee paren before rest frames) := by
  cases rest with
  | nil => exact apply_lift base frames w callee paren before
  | cons e rest => rfl

theorem finishCall_lift (caller : Chain) (closure : Closure) (completion : Completion) :
    finishCall w caller closure completion (frames ++ base) =
      lift base (finishCall w caller closure completion frames) := by
  unfold finishCall
  dsimp only
  split
  · split <;> rfl
  · cases completion <;> rfl

theorem stepEval_lift (e : Expr) :
    stepEval w (frames ++ base) e = lift base (stepEval w frames e) := by
  cases e with
  | «variable» target => exact read_lift base frames w target
  | thisObject keyword => exact read_lift base frames w keyword
  | superMethod keyword method => exact readSuper_lift base frames w keyword method
  | _ => rfl

theorem stepExec_lift (s : Stmt) :
    stepExec w (frames ++ base) s = lift base (stepExec w frames s) := by
  cases s with
  | «variable» name initializer => cases initializer <;> rfl
  | returnWith keyword value => cases value <;> rfl
  | classDeclaration name superclass methods => cases superclass <;> rfl
  | _ => rfl

theorem stepValue_lift (v : Value) (frame : Frame) :
    stepValue w v (frames ++ base) frame = lift base (stepValue w v frames frame) := by
  cases frame with
  | unary operator => exact settle_lift base frames w _
  | binaryRight operator left => exact settle_lift base frames w _
  | logical operator right =>
    simp only [stepValue]
    split <;> rfl
  | assign target => exact write_lift base frames w target v
  | callee paren arguments => exact evalArguments_lift base frames w v paren [] arguments
  | argument callee paren before rest =>
    exact evalArguments_lift base frames w callee paren (before ++ [v]) rest
  | get name => exact readProperty_lift base frames w v name
  | setObject name value => cases v <;> rfl
  | print keyword =>
    simp only [stepValue]
    split <;> rfl
  | branch thenBranch elseBranch =>
    simp only [stepValue]
    split
    · rfl
    · cases elseBranch <;> rfl
  | loopTest condition body =>
    simp only [stepValue]
    split <;> rfl
  | superclass name parent methods =>
    simp only [stepValue]
    split <;> rfl
  | _ => rfl

theorem stepDone_lift (completion : Completion) (frame : Frame) :
    stepDone w completion (frames ++ base) frame =
      lift base (stepDone w completion frames frame) := by
  cases frame with
  | sequence rest => cases completion <;> rfl
  | loopBody condition body => cases completion <;> rfl
  | call caller closure => exact finishCall_lift base frames w caller closure completion
  | _ => rfl

end Parts

/-! ## Steps and runs -/

/-- A machine that has not come to its end does not see the frames below its own. -/
theorem step_lift (base : List Frame) (m : Machine) (h : m.halted = false) :
    step (lift base m) = lift base (step m) := by
  obtain ⟨w, c, frames⟩ := m
  cases c with
  | eval e => exact stepEval_lift base frames w e
  | exec s => exact stepExec_lift base frames w s
  | execAll body => cases body <;> rfl
  | value v =>
    cases frames with
    | nil => simp [halted] at h
    | cons frame frames => exact stepValue_lift base frames w v frame
  | done completion =>
    cases frames with
    | nil => simp [halted] at h
    | cons frame frames => exact stepDone_lift base frames w completion frame
  | fault f =>
    cases frames with
    | nil => simp [halted] at h
    | cons frame frames => rfl

/-- A machine that has come to its end stays there. -/
theorem step_of_halted {m : Machine} (h : m.halted = true) : m.step = m := by
  obtain ⟨w, c, frames⟩ := m
  cases c <;> cases frames <;> simp_all [halted, step]

@[simp] theorem run_zero (m : Machine) : run 0 m = m := rfl

theorem run_of_halted {m : Machine} (h : m.halted = true) (n : Nat) : run n m = m := by
  cases n with
  | zero => rfl
  | succ n => simp [run, h]

/-- The first step of a run; the test for the end makes no difference to the states passed. -/
theorem run_succ (n : Nat) (m : Machine) : run (n + 1) m = run n m.step := by
  cases h : m.halted with
  | true => rw [step_of_halted h, run_of_halted h, run_of_halted h]
  | false => simp [run, h]

/-- What every step keeps is kept by runs. -/
theorem run_preserves {P : Machine → Prop} (hP : ∀ m, m.halted = false → P m → P m.step) {m : Machine}
    (h : P m) (n : Nat) : P (run n m) := by
  induction n generalizing m with
  | zero => exact h
  | succ n ih =>
    rw [run_succ]
    cases hhalted : m.halted with
    | true =>
      rw [step_of_halted hhalted]
      exact ih h
    | false => exact ih (hP m hhalted h)

theorem run_add (k n : Nat) (m : Machine) : run (k + n) m = run n (run k m) := by
  induction k generalizing m with
  | zero => rw [Nat.zero_add, run_zero]
  | succ k ih => rw [Nat.succ_add, run_succ, run_succ, ih]

/-- The last step of a run. -/
theorem run_succ_last (n : Nat) (m : Machine) : run (n + 1) m = (run n m).step := by
  rw [run_add, run_succ, run_zero]

/-- Up to its end a machine passes the same states with more frames below. -/
theorem run_lift (base : List Frame) (n : Nat) (m : Machine)
    (h : ∀ k < n, (run k m).halted = false) : run n (lift base m) = lift base (run n m) := by
  induction n generalizing m with
  | zero => rfl
  | succ n ih =>
    have h0 := h 0 (Nat.succ_pos n)
    have hrest : ∀ k < n, (run k m.step).halted = false := by
      intro k hk
      rw [← run_succ]
      exact h (k + 1) (Nat.succ_lt_succ hk)
    rw [run_succ, run_succ, step_lift base m h0, ih m.step hrest]

end LoxLang.Machine
