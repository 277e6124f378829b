import LoxLang.Proofs.Machine.Moves

/-!
Sorts of results. An evaluation comes to a value and an execution to the completion of a statement, if
no fault comes first: each frame waits for one of the two and leaves one of the two to the frames below
it, and a step never hands over the one where the other is awaited (`move_sorted`). So a machine that
has come to its end has come to what it set out for (`value_of_halted`, `done_of_halted`).
-/
namespace LoxLang
set_option autoImplicit false

/-- Whether a frame leaves the completion of a statement; the others leave a value. -/
def Frame.leavesStatement : Frame → Bool
  | .discard => true
  | .print _ => true
  | .define _ => true
  | .branch _ _ => true
  | .loopTest _ _ => true
  | .loopBody _ _ => true
  | .returning => true
  | .superclass _ _ _ => true
  | .sequence _ => true
  | .block _ => true
  | _ => false

/-- Some frames take the one sort of result and come to the other. -/
def Frame.Carry : Bool → List Frame → Bool → Prop
  | given, [], goal => given = goal
  | given, frame :: frames, goal =>
    given = frame.awaitsStatement ∧ Carry frame.leavesStatement frames goal

theorem Frame.Carry.append {given mid goal : Bool} {first second : List Frame}
    (h1 : Carry given first mid) (h2 : Carry mid second goal) :
    Carry given (first ++ second) goal := by
  induction first generalizing given with
  | nil =>
    obtain rfl : given = mid := h1
    exact h2
  | cons frame frames ih => exact ⟨h1.1, ih h1.2⟩

/-- What a control comes to, the completion of a statement or else a value. A fault counts as both. -/
def Control.Gives : Control → Bool → Prop
  | .eval _, given => given = false
  | .value _, given => given = false
  | .exec _, given => given = true
  | .execAll _, given => given = true
  | .done _, given => given = true
  | .fault _, _ => True

namespace Machine

/-- Whatever is handed over is of the sort that is awaited, and in the end of some sort. -/
def Sorted (goal : Bool) (m : Machine) : Prop :=
  ∃ given, m.control.Gives given ∧ Frame.Carry given m.frames goal

/-! ## Steps -/

theorem sorted_defers {c c' : Control} {frame : Frame} (h : c.Defers c' frame) {given : Bool}
    (hgives : c.Gives given) :
    c'.Gives frame.awaitsStatement ∧ given = frame.leavesStatement := by
  cases h <;> exact ⟨rfl, hgives⟩

theorem sorted_becomes {c c' : Control} (h : c.Becomes c') {given : Bool}
    (hgives : c.Gives given) : c'.Gives given := by
  cases h <;> exact hgives

theorem sorted_passes {frame : Frame} {c c' : Control} {more : List Frame}
    (h : frame.Passes c c' more) :
    ∃ given, c'.Gives given ∧ Frame.Carry given more frame.leavesStatement := by
  cases h
  -- These six leave a frame of their own above what was below.
  case binaryLeft => exact ⟨false, rfl, rfl, rfl⟩
  case callee => exact ⟨false, rfl, rfl, rfl⟩
  case argument => exact ⟨false, rfl, rfl, rfl⟩
  case setObject => exact ⟨false, rfl, rfl, rfl⟩
  case loopOn => exact ⟨true, rfl, rfl, rfl⟩
  case loopAgain => exact ⟨false, rfl, rfl, rfl⟩
  all_goals exact ⟨_, rfl, rfl⟩

theorem carry_applies {frame : Frame} {v callee : Value} {arguments : List Value}
    (h : frame.Applies v callee arguments) {frames : List Frame} {goal : Bool}
    (hcarry : Frame.Carry frame.leavesStatement frames goal) : Frame.Carry false frames goal := by
  cases h <;> exact hcarry

theorem sorted_enterBody {goal : Bool} (w : World) (closure : Closure) (arguments : List Value)
    {frames : List Frame} (h : Frame.Carry false frames goal) :
    (enterBody w closure arguments frames).Sorted goal :=
  ⟨true, rfl, rfl, h⟩

/-- A step keeps the sorts. -/
theorem move_sorted {m m' : Machine} {goal : Bool} (h : Move m m') (hm : m.Sorted goal) :
    m'.Sorted goal := by
  obtain ⟨given, hgives, hcarry⟩ := hm
  cases h with
  | defers h =>
    obtain ⟨hnext, rfl⟩ := sorted_defers h hgives
    exact ⟨_, hnext, rfl, hcarry⟩
  | becomes h => exact ⟨given, sorted_becomes h hgives, hcarry⟩
  | passes h =>
    obtain ⟨next, hnext, hmore⟩ := sorted_passes h
    exact ⟨next, hnext, hmore.append hcarry.2⟩
  | completes hframe => exact ⟨true, rfl, hframe.symm, hcarry.2⟩
  | voids hframe => exact ⟨false, rfl, hframe.symm, hcarry.2⟩
  | faults => exact ⟨given, trivial, hcarry⟩
  | refuses => exact ⟨_, trivial, hcarry.2⟩
  | unwinds => exact ⟨_, trivial, hcarry.2⟩
  | reads => exact ⟨given, hgives, hcarry⟩
  | writes => exact ⟨false, rfl, hcarry.2⟩
  | field => exact ⟨false, rfl, hcarry.2⟩
  | method => exact ⟨false, rfl, hcarry.2⟩
  | super => exact ⟨given, hgives, hcarry⟩
  | setsField => exact ⟨false, rfl, hcarry.2⟩
  | prints => exact ⟨true, rfl, hcarry.2⟩
  | declares => exact ⟨given, hgives, hcarry⟩
  | defines => exact ⟨true, rfl, hcarry.2⟩
  | function => exact ⟨given, hgives, hcarry⟩
  | root => exact ⟨given, hgives, hcarry⟩
  | inherits => exact ⟨true, rfl, hcarry.2⟩
  | enters =>
    obtain rfl : given = true := hgives
    exact ⟨true, rfl, rfl, hcarry⟩
  | leaves => exact ⟨true, rfl, hcarry.2⟩
  | clock h => exact ⟨false, rfl, carry_applies h hcarry.2⟩
  | calls h => exact sorted_enterBody _ _ _ (carry_applies h hcarry.2)
  | creates h => exact ⟨false, rfl, carry_applies h hcarry.2⟩
  | initializes h => exact sorted_enterBody _ _ _ ⟨rfl, carry_applies h hcarry.2⟩
  | returns h =>
    cases h with
    | unbound => exact ⟨false, trivial, hcarry.2⟩
    | _ => exact ⟨false, rfl, hcarry.2⟩

theorem sorted_run {m : Machine} {goal : Bool} (hm : m.Sorted goal) (n : Nat) :
    (run n m).Sorted goal :=
  run_preserves (fun _ hactive h => move_sorted (move_step hactive) h) hm n

/-! ## Ends -/

/-- What sets out for a value comes to one, or to a fault. -/
theorem value_of_halted {m : Machine} (hm : m.Sorted false) (h : m.halted = true) :
    ∃ w, (∃ v, m = ⟨w, .value v, []⟩) ∨ ∃ f, m = ⟨w, .fault f, []⟩ := by
  obtain ⟨w, c, frames⟩ := m
  obtain ⟨given, hgives, hcarry⟩ := hm
  cases frames with
  | cons frame frames => cases c <;> cases h
  | nil =>
    obtain rfl : given = false := hcarry
    cases c with
    | value v => exact ⟨w, .inl ⟨v, rfl⟩⟩
    | fault f => exact ⟨w, .inr ⟨f, rfl⟩⟩
    | done completion => cases hgives
    | _ => cases h

/-- What sets out for the completion of a statement comes to one, or to a fault. -/
theorem done_of_halted {m : Machine} (hm : m.Sorted true) (h : m.halted = true) :
    ∃ w, (∃ completion, m = ⟨w, .done completion, []⟩) ∨ ∃ f, m = ⟨w, .fault f, []⟩ := by
  obtain ⟨w, c, frames⟩ := m
  obtain ⟨given, hgives, hcarry⟩ := hm
  cases frames with
  | cons frame frames => cases c <;> cases h
  | nil =>
    obtain rfl : given = true := hcarry
    cases c with
    | done completion => exact ⟨w, .inl ⟨completion, rfl⟩⟩
    | fault f => exact ⟨w, .inr ⟨f, rfl⟩⟩
    | value v => cases hgives
    | _ => cases h

end Machine

end LoxLang
