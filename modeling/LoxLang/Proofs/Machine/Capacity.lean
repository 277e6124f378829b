import LoxLang.Proofs.Machine.Printing
import LoxLang.Proofs.Machine.Termination

/-!
Sinks that take a certain number of lines. `Machine.within capacity m` is a machine whose sink refuses
the next line once it holds `capacity` lines, and is like `m` otherwise. Room for one line more and one
line more printed cancel out, so printing keeps the capacity (`Sink.within_print`), and the two machines
take the same steps (`step_within`, `run_within`) until a line is refused. When that happens first is
told from the lines of the unlimited machine (`exists_refusal`).
-/
namespace LoxLang
set_option autoImplicit false

/-- The sink with room for as many lines more as are missing to `capacity`. -/
def Sink.within (capacity : Nat) (sink : Sink) : Sink :=
  { sink with room := some (capacity - sink.lines.size) }

def World.within (capacity : Nat) (w : World) : World :=
  { w with sink := w.sink.within capacity }

theorem Sink.within_print (capacity : Nat) (sink : Sink) (line : String) :
    (sink.print line).within capacity = (sink.within capacity).print line := by
  obtain ⟨lines, room, refusal⟩ := sink
  change Sink.mk (lines.push line) (some (capacity - (lines.push line).size)) refusal =
    ⟨lines.push line, some (capacity - lines.size - 1), refusal⟩
  rw [Array.size_push, Nat.sub_add_eq]

theorem Sink.isFull_within (capacity : Nat) (sink : Sink) :
    (sink.within capacity).isFull = true ↔ capacity ≤ sink.lines.size := by
  change (some (capacity - sink.lines.size) == some 0) = true ↔ _
  rw [beq_iff_eq, Option.some_inj, Nat.sub_eq_zero_iff_le]

theorem Sink.size_print (sink : Sink) (line : String) :
    (sink.print line).lines.size = sink.lines.size + 1 :=
  Array.size_push line

theorem Sink.isFull_of_room {sink : Sink} (h : sink.room = none) : sink.isFull = false := by
  rw [Sink.isFull, h]
  rfl

namespace Machine

def within (capacity : Nat) (m : Machine) : Machine :=
  { m with world := m.world.within capacity }

@[simp] theorem within_mk (capacity : Nat) (w : World) (c : Control) (frames : List Frame) :
    within capacity ⟨w, c, frames⟩ = ⟨w.within capacity, c, frames⟩ := rfl

/-- A line is about to be printed that goes beyond a capacity. -/
def Exceeds (capacity : Nat) (m : Machine) : Prop :=
  ∃ v keyword frames, m.control = .value v ∧ m.frames = .print keyword :: frames ∧
    capacity ≤ m.world.sink.lines.size

/-! ## Parts of a step -/

section Parts
variable (capacity : Nat) (w : World) (frames : List Frame)

theorem settle_within (result : Except RuntimeFault Value) :
    settle (w.within capacity) frames result = (settle w frames result).within capacity := by
  cases result <;> rfl

theorem read_within (target : Reference) :
    read (w.within capacity) target frames = (read w target frames).within capacity := by
  have hsame : (w.within capacity).read? target = w.read? target := rfl
  unfold read
  rw [hsame]
  cases w.read? target <;> rfl

theorem write_within (target : Reference) (v : Value) :
    write (w.within capacity) target v frames = (write w target v frames).within capacity := by
  have hsame : (w.within capacity).binder? target = w.binder? target := rfl
  unfold write
  rw [hsame]
  cases w.binder? target <;> rfl

theorem readProperty_within (v : Value) (name : Token) :
    readProperty (w.within capacity) v name frames =
      (readProperty w v name frames).within capacity := by
  cases v with
  | object object =>
    obtain ⟨store, chain, depth, distances, sink, clock⟩ := w
    simp only [readProperty, World.within, World.onStore]
    generalize store.property? object name.lexeme = found
    obtain ⟨_ | v, store'⟩ := found <;> rfl
  | _ => rfl

theorem superParts_within (keyword : Reference) :
    superParts (w.within capacity) keyword = superParts w keyword := rfl

theorem readSuper_within (keyword : Reference) (method : Token) :
    readSuper (w.within capacity) keyword method frames =
      (readSuper w keyword method frames).within capacity := by
  unfold readSuper
  rw [superParts_within]
  cases superParts w keyword with
  | error f => rfl
  | ok parts =>
    obtain ⟨superclass, object⟩ := parts
    dsimp only
    cases superclass.method? method.lexeme <;> rfl

theorem construct_within (origin : ClassObject) (arguments : List Value) :
    construct (w.within capacity) origin arguments frames =
      (construct w origin arguments frames).within capacity := by
  unfold construct
  dsimp only
  cases origin.method? initializerName <;> rfl

theorem enter_within (callable : Callable) (arguments : List Value) :
    enter (w.within capacity) callable arguments frames =
      (enter w callable arguments frames).within capacity := by
  cases callable with
  | clock => rfl
  | function id closure => rfl
  | classObject origin => exact construct_within capacity w frames origin arguments

theorem apply_within (callee : Value) (paren : Token) (arguments : List Value) :
    apply (w.within capacity) callee paren arguments frames =
      (apply w callee paren arguments frames).within capacity := by
  unfold apply
  cases callee with
  | callable callable =>
    dsimp only
    rw [enter_within]
    change (if _ then _ else if callDepthLimit ≤ w.depth then _ else _) = _
    split
    · rfl
    · split <;> rfl
  | _ => rfl

theorem evalArguments_within (callee : Value) (paren : Token) (before : List Value)
    (rest : List Expr) :
    evalArguments (w.within capacity) callee paren before rest frames =
      (evalArguments w callee paren before rest frames).within capacity := by
  cases rest with
  | nil => exact apply_within capacity w frames callee paren before
  | cons e rest => rfl

theorem finishCall_within (caller : Chain) (closure : Closure) (completion : Completion) :
    finishCall (w.within capacity) caller closure completion frames =
      (finishCall w caller closure completion frames).within capacity := by
  obtain ⟨store, chain, depth, distances, sink, clock⟩ := w
  simp only [finishCall, World.within, World.leaveCall]
  split
  · cases store.lookupAt? closure.chain 0 "this" <;> rfl
  · cases completion <;> rfl

theorem stepEval_within (e : Expr) :
    stepEval (w.within capacity) frames e = (stepEval w frames e).within capacity := by
  cases e with
  | «variable» target => exact read_within capacity w frames target
  | thisObject keyword => exact read_within capacity w frames keyword
  | superMethod keyword method => exact readSuper_within capacity w frames keyword method
  | _ => rfl

theorem stepExec_within (s : Stmt) :
    stepExec (w.within capacity) frames s = (stepExec w frames s).within capacity := by
  cases s with
  | «variable» name initializer => cases initializer <;> rfl
  | returnWith keyword value => cases value <;> rfl
  | classDeclaration name superclass methods => cases superclass <;> rfl
  | _ => rfl

theorem stepDone_within (completion : Completion) (frame : Frame) :
    stepDone (w.within capacity) completion frames frame =
      (stepDone w completion frames frame).within capacity := by
  cases frame with
  | sequence rest => cases completion <;> rfl
  | loopBody condition body => cases completion <;> rfl
  | call caller closure => exact finishCall_within capacity w frames caller closure completion
  | _ => rfl

/-- While the line fits, a print comes to the same with a limit as without. -/
theorem stepValue_within (v : Value) (frame : Frame) (hroom : w.sink.room = none)
    (hfits : ∀ keyword, frame = .print keyword → w.sink.lines.size < capacity) :
    stepValue (w.within capacity) v frames frame =
      (stepValue w v frames frame).within capacity := by
  cases frame with
  | unary operator => exact settle_within capacity w frames _
  | binaryRight operator left => exact settle_within capacity w frames _
  | logical operator right =>
    simp only [stepValue]
    split <;> rfl
  | assign target => exact write_within capacity w frames target v
  | callee paren arguments => exact evalArguments_within capacity w frames v paren [] arguments
  | argument callee paren before rest =>
    exact evalArguments_within capacity w frames callee paren (before ++ [v]) rest
  | get name => exact readProperty_within capacity w frames v name
  | setObject name value => cases v <;> rfl
  | print keyword =>
    have hopen : (w.within capacity).sink.isFull = false :=
      Bool.eq_false_iff.mpr (mt (Sink.isFull_within capacity w.sink).mp
        (Nat.not_le.mpr (hfits keyword rfl)))
    simp only [stepValue, hopen, Sink.isFull_of_room hroom, Bool.false_eq_true, if_false]
    change Machine.mk { w with sink := (w.sink.within capacity).print v.text } (.done .normal) frames =
      ⟨{ w with sink := (w.sink.print v.text).within capacity }, .done .normal, frames⟩
    rw [Sink.within_print]
  | branch thenBranch elseBranch =>
    simp only [stepValue]
    split
    · rfl
    · cases elseBranch <;> rfl
  | loopTest condition body =>
    simp only [stepValue]
    split <;> rfl
  | superclass name parent methods =>
    simp only [stepValue]
    split <;> rfl
  | _ => rfl

theorem unwind_within (frame : Frame) :
    unwind (w.within capacity) frame = (unwind w frame).within capacity := by
  cases frame <;> rfl

end Parts

/-! ## Steps and runs -/

variable {capacity : Nat} {m : Machine}

theorem step_within (hroom : m.world.sink.room = none) (hfits : ¬ m.Exceeds capacity) :
    step (m.within capacity) = (step m).within capacity := by
  obtain ⟨w, c, frames⟩ := m
  cases c with
  | eval e => exact stepEval_within capacity w frames e
  | exec s => exact stepExec_within capacity w frames s
  | execAll body => cases body <;> rfl
  | value v =>
    cases frames with
    | nil => rfl
    | cons frame frames =>
      refine stepValue_within capacity w frames v frame hroom fun keyword hframe => ?_
      exact Nat.not_le.mp fun hle => hfits ⟨v, keyword, frames, rfl, by rw [hframe], hle⟩
  | done completion =>
    cases frames with
    | nil => rfl
    | cons frame frames => exact stepDone_within capacity w frames completion frame
  | fault f =>
    cases frames with
    | nil => rfl
    | cons frame frames =>
      change Machine.mk (unwind (w.within capacity) frame) _ _ = _
      rw [unwind_within]
      rfl

/-- A sink without a limit has none after a step. -/
theorem room_step (hroom : m.world.sink.room = none) : (step m).world.sink.room = none := by
  cases hhalted : m.halted with
  | true => rwa [step_of_halted hhalted]
  | false =>
    rcases (move_step hhalted).sink with hsame | ⟨v, -, -, -, -, hprint⟩
    · rwa [hsame]
    · rw [hprint]
      change m.world.sink.room.map _ = none
      rw [hroom, Option.map_none]

theorem room_run (hroom : m.world.sink.room = none) (n : Nat) :
    (run n m).world.sink.room = none :=
  run_preserves (P := fun m => m.world.sink.room = none) (fun _ _ h => room_step h) hroom n

/-- Until a line goes beyond the capacity, both machines take the same steps. -/
theorem run_within (hroom : m.world.sink.room = none) (n : Nat)
    (hfits : ∀ k < n, ¬ (run k m).Exceeds capacity) :
    run n (m.within capacity) = (run n m).within capacity := by
  induction n with
  | zero => rfl
  | succ n ih =>
    have hn := ih fun k hk => hfits k (Nat.lt_succ_of_lt hk)
    rw [run_succ_last, run_succ_last, hn]
    exact step_within (room_run hroom n) (hfits n (Nat.lt_succ_self n))

/-- A line beyond the capacity is printed if there is no limit. -/
theorem size_of_exceeds (hroom : m.world.sink.room = none) (h : m.Exceeds capacity) :
    capacity < (step m).world.sink.lines.size := by
  obtain ⟨w, c, frames⟩ := m
  obtain ⟨v, keyword, frames', hcontrol, hframes, hle⟩ := h
  cases hcontrol
  cases hframes
  have hopen : w.sink.isFull = false := Sink.isFull_of_room hroom
  change capacity < (stepValue w v frames' (.print keyword)).world.sink.lines.size
  simp only [stepValue, hopen, Bool.false_eq_true, if_false]
  exact Nat.lt_of_lt_of_eq (Nat.lt_succ_of_le hle) (Sink.size_print w.sink v.text).symm

/-- A run that never holds more lines than the capacity is the same with the limit. -/
theorem run_within_of_size (hroom : m.world.sink.room = none)
    (hsize : ∀ k, (run k m).world.sink.lines.size ≤ capacity) (n : Nat) :
    run n (m.within capacity) = (run n m).within capacity := by
  refine run_within hroom n fun k _ hexceeds => ?_
  have hprinted := size_of_exceeds (room_run hroom k) hexceeds
  rw [← run_succ_last] at hprinted
  exact absurd (hsize (k + 1)) (Nat.not_le.mpr hprinted)

/-- A run that comes to hold more lines than the capacity passes the print of the first of them, and
nothing before it goes beyond the capacity. -/
theorem exists_refusal (hroom : m.world.sink.room = none)
    (hstart : m.world.sink.lines.size ≤ capacity)
    (hsize : ∃ k, capacity < (run k m).world.sink.lines.size) :
    ∃ k w v keyword frames, run k m = ⟨w, .value v, .print keyword :: frames⟩ ∧
      w.sink.lines.size = capacity ∧ ∀ j < k, ¬ (run j m).Exceeds capacity := by
  classical
  have hfound := Nat.find_spec hsize
  have hleast := fun j (hj : j < Nat.find hsize) => Nat.find_min hsize hj
  cases hk : Nat.find hsize with
  | zero =>
    rw [hk] at hfound
    exact absurd hstart (Nat.not_le.mpr hfound)
  | succ k =>
    rw [hk] at hfound hleast
    have hbefore : (run k m).world.sink.lines.size ≤ capacity :=
      Nat.not_lt.mp (hleast k (Nat.lt_succ_self k))
    rw [run_succ_last] at hfound
    have hactive : (run k m).halted = false := by
      rw [← Bool.not_eq_true]
      intro hhalted
      rw [step_of_halted hhalted] at hfound
      exact absurd hbefore (Nat.not_le.mpr hfound)
    rcases (move_step hactive).sink with hsame | ⟨v, keyword, frames, hcontrol, hframes, hprint⟩
    · rw [hsame] at hfound
      exact absurd hbefore (Nat.not_le.mpr hfound)
    · rw [hprint, Sink.size_print] at hfound
      refine ⟨k, (run k m).world, v, keyword, frames, ?_,
        Nat.le_antisymm hbefore (Nat.lt_succ_iff.mp hfound), fun j hj hexceeds => ?_⟩
      · rw [← hcontrol, ← hframes]
      · have hprinted := size_of_exceeds (room_run hroom j) hexceeds
        rw [← run_succ_last] at hprinted
        exact hleast (j + 1) (Nat.succ_lt_succ hj) hprinted

/-- A fault prints nothing on its way. -/
theorem sink_run_fault (w : World) (f : RuntimeFault) (frames : List Frame) (n : Nat) :
    (run n ⟨w, .fault f, frames⟩).world.sink = w.sink := by
  induction n generalizing w frames with
  | zero => rfl
  | succ n ih =>
    rw [run_succ]
    cases frames with
    | nil => exact ih w []
    | cons frame frames =>
      refine (ih (unwind w frame) frames).trans ?_
      cases frame <;> rfl

end Machine

end LoxLang
