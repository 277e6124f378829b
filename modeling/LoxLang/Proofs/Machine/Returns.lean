import LoxLang.Proofs.Binding.Agreement
import LoxLang.Proofs.Machine.Moves

/-!
A `return` stays inside its call. A survey without faults finds no `return` outside of functions, and
a step keeps it so (`step_confined`): what the machine does is free of `return`, or it happens inside a
call below which everything is. A program that is surveyed without faults therefore never ends with a
`return` (`normal_of_done`).
-/
namespace LoxLang
set_option autoImplicit false

/-! ## In the text -/

mutual

/-- No `return` stands outside of the functions that a statement declares. -/
def Stmt.ReturnFree : Stmt → Prop
  | .block body => Stmt.AllReturnFree body
  | .conditional _ thenBranch none => thenBranch.ReturnFree
  | .conditional _ thenBranch (some elseBranch) => thenBranch.ReturnFree ∧ elseBranch.ReturnFree
  | .loop _ body => body.ReturnFree
  | .returnWith _ _ => False
  | _ => True

def Stmt.AllReturnFree : List Stmt → Prop
  | [] => True
  | s :: rest => s.ReturnFree ∧ Stmt.AllReturnFree rest

end

namespace Survey

mutual

theorem returnFree_of_visitStmt {context : BindingContext} (hcontext : context.inFunction = false)
    (stmt : Stmt) {s : Survey} (h : (visitStmt context stmt s).faults = []) : stmt.ReturnFree := by
  cases stmt with
  | block body => exact returnFree_of_visitStmts hcontext body (s := s.enter []) h
  | conditional condition thenBranch elseBranch =>
    cases elseBranch with
    | none => exact returnFree_of_visitStmt hcontext thenBranch h
    | some elseBranch =>
      exact ⟨returnFree_of_visitStmt hcontext thenBranch (clean_of_visitStmt elseBranch h),
        returnFree_of_visitStmt hcontext elseBranch h⟩
  | loop condition body => exact returnFree_of_visitStmt hcontext body h
  | returnWith keyword value =>
    have hvalue := clean_of_visitOption h
    rw [hcontext] at hvalue
    exact absurd hvalue (faults_blame_ne _ _ _)
  | _ => trivial

theorem returnFree_of_visitStmts {context : BindingContext} (hcontext : context.inFunction = false)
    (body : List Stmt) {s : Survey} (h : (visitStmts context body s).faults = []) :
    Stmt.AllReturnFree body := by
  cases body with
  | nil => trivial
  | cons stmt rest =>
    exact ⟨returnFree_of_visitStmt hcontext stmt (clean_of_visitStmts rest h),
      returnFree_of_visitStmts hcontext rest h⟩

end

end Survey

theorem returnFree_of_survey {program : List Stmt} {entries : List DistanceEntry}
    (h : survey program = .ok entries) : Stmt.AllReturnFree program :=
  Survey.returnFree_of_visitStmts rfl program (Survey.clean_of_survey h)

/-! ## In the machine -/

/-- What a control still executes is free of `return`. -/
def Control.ReturnFree : Control → Prop
  | .exec s => s.ReturnFree
  | .execAll body => Stmt.AllReturnFree body
  | .done (.returned _) => False
  | _ => True

/-- What a frame still executes is free of `return`, and it is not itself one or a call. -/
def Frame.ReturnFree : Frame → Prop
  | .branch thenBranch elseBranch => thenBranch.ReturnFree ∧ ∀ s ∈ elseBranch, s.ReturnFree
  | .loopTest _ body => body.ReturnFree
  | .loopBody _ body => body.ReturnFree
  | .sequence rest => Stmt.AllReturnFree rest
  | .returning => False
  | .call _ _ => False
  | _ => True

/-- Everything is free of `return`. -/
def Frame.AllReturnFree (frames : List Frame) : Prop :=
  ∀ frame ∈ frames, frame.ReturnFree

namespace Machine

/-- Nothing outside of the outermost call in progress can return. -/
def Confined (m : Machine) : Prop :=
  (m.control.ReturnFree ∧ Frame.AllReturnFree m.frames) ∨
    ∃ above caller closure below, m.frames = above ++ .call caller closure :: below ∧
      Frame.AllReturnFree below

theorem returnFree_defers {c c' : Control} {frame : Frame} (h : c.Defers c' frame)
    (hc : c.ReturnFree) : c'.ReturnFree ∧ frame.ReturnFree := by
  cases h with
  | conditional condition thenBranch elseBranch =>
    cases elseBranch with
    | none => exact ⟨trivial, hc, fun _ hs => absurd hs (Option.not_mem_none _)⟩
    | some elseBranch => exact ⟨trivial, hc.1, fun _ hs => Option.mem_some.mp hs ▸ hc.2⟩
  | loop condition body => exact ⟨trivial, hc⟩
  | returnWith keyword value => exact hc.elim
  | sequence s rest => exact hc
  | _ => exact ⟨trivial, trivial⟩

theorem returnFree_becomes {c c' : Control} (h : c.Becomes c') (hc : c.ReturnFree) :
    c'.ReturnFree := by
  cases h with
  | returnNothing keyword => exact hc.elim
  | _ => trivial

theorem returnFree_passes {frame : Frame} {c c' : Control} {more : List Frame}
    (h : frame.Passes c c' more) (hc : c.ReturnFree) (hframe : frame.ReturnFree) :
    c'.ReturnFree ∧ Frame.AllReturnFree more := by
  cases h with
  | thenBranch => exact ⟨hframe.1, List.forall_mem_nil _⟩
  | elseBranch => exact ⟨hframe.2 _ rfl, List.forall_mem_nil _⟩
  | loopOn => exact ⟨hframe, List.forall_mem_singleton.mpr hframe⟩
  | loopAgain => exact ⟨trivial, List.forall_mem_singleton.mpr hframe⟩
  | loopReturn => exact hc.elim
  | returning => exact hframe.elim
  | sequence => exact ⟨hframe, List.forall_mem_nil _⟩
  | sequenceReturn => exact hc.elim
  | binaryLeft | callee | argument | setObject =>
    exact ⟨trivial, List.forall_mem_singleton.mpr trivial⟩
  | _ => exact ⟨trivial, List.forall_mem_nil _⟩

/-- Where everything is free of `return`, a step goes on so or enters a call. -/
theorem move_confined {m m' : Machine} (h : Move m m') (hc : m.control.ReturnFree)
    (hf : Frame.AllReturnFree m.frames) : m'.Confined := by
  cases h with
  | defers h =>
    obtain ⟨hc', hframe⟩ := returnFree_defers h hc
    exact .inl ⟨hc', List.forall_mem_cons.mpr ⟨hframe, hf⟩⟩
  | becomes h => exact .inl ⟨returnFree_becomes h hc, hf⟩
  | passes h =>
    obtain ⟨hframe, hrest⟩ := List.forall_mem_cons.mp hf
    obtain ⟨hc', hmore⟩ := returnFree_passes h hc hframe
    exact .inl ⟨hc', List.forall_mem_append.mpr ⟨hmore, hrest⟩⟩
  | completes => exact .inl ⟨trivial, hf⟩
  | voids => exact .inl ⟨trivial, hf⟩
  | enters => exact .inl ⟨hc, List.forall_mem_cons.mpr ⟨trivial, hf⟩⟩
  | leaves => exact .inl ⟨hc, (List.forall_mem_cons.mp hf).2⟩
  | calls => exact .inr ⟨[], _, _, _, rfl, (List.forall_mem_cons.mp hf).2⟩
  | initializes =>
    refine .inr ⟨[], _, _, _, rfl, ?_⟩
    exact List.forall_mem_cons.mpr ⟨trivial, (List.forall_mem_cons.mp hf).2⟩
  -- A call on top is not free of `return`; its end is `move_confined_of_call`.
  | returns => exact (List.forall_mem_cons.mp hf).1.elim
  | faults | reads | super | declares | function | root => exact .inl ⟨trivial, hf⟩
  | _ => exact .inl ⟨trivial, (List.forall_mem_cons.mp hf).2⟩

/-- A call that comes to its end leaves what is below it. -/
theorem move_confined_of_call {w : World} {c : Control} {caller : Chain} {closure : Closure}
    {below : List Frame} {m' : Machine} (h : Move ⟨w, c, .call caller closure :: below⟩ m')
    (hresult : (⟨w, c, []⟩ : Machine).halted = true) (hbelow : Frame.AllReturnFree below) :
    m'.Confined := by
  cases h with
  | defers h => cases h <;> cases hresult
  | becomes h => cases h <;> cases hresult
  | passes h => cases h
  | completes => exact .inr ⟨[], caller, closure, below, rfl, hbelow⟩
  | voids hframe => cases hframe
  | refuses hframe => exact .inl ⟨trivial, hbelow⟩
  | unwinds => exact .inl ⟨trivial, hbelow⟩
  | returns h => cases h <;> exact .inl ⟨trivial, hbelow⟩
  | clock h | calls h | creates h | initializes h => cases h
  | _ => cases hresult

/-- A step does not let a `return` out of its call. -/
theorem step_confined {m : Machine} (hactive : m.halted = false) (h : m.Confined) :
    m.step.Confined := by
  obtain ⟨w, c, frames⟩ := m
  rcases h with ⟨hc, hf⟩ | ⟨above, caller, closure, below, rfl, hbelow⟩
  · exact move_confined (move_step hactive) hc hf
  · -- As long as something above the call goes on, the step does not see what is below.
    cases hresult : (⟨w, c, above⟩ : Machine).halted with
    | true =>
      cases above with
      | nil => exact move_confined_of_call (move_step hactive) hresult hbelow
      | cons frame above => cases c <;> cases hresult
    | false =>
      rw [← lift_mk, step_lift _ _ hresult]
      exact .inr ⟨_, caller, closure, below, rfl, hbelow⟩

theorem run_confined {m : Machine} (h : m.Confined) (n : Nat) : (m.run n).Confined :=
  run_preserves (fun _ hactive hm => step_confined hactive hm) h n

/-- What is free of `return` outside of calls does not end with one. -/
theorem Confined.normal {m : Machine} (h : m.Confined) {n : Nat} {w : World} {completion : Completion}
    (hend : m.run n = ⟨w, .done completion, []⟩) : completion = .normal := by
  have hconfined := run_confined h n
  rw [hend] at hconfined
  rcases hconfined with ⟨hc, -⟩ | ⟨above, caller, closure, below, hframes, -⟩
  · cases completion with
    | normal => rfl
    | returned v => exact hc.elim
  · exact absurd hframes (by simp)

/-- A program that was surveyed without faults does not end with a `return`. -/
theorem normal_of_done {w w' : World} {program : List Stmt} {entries : List DistanceEntry}
    (h : survey program = .ok entries) {n : Nat} {completion : Completion}
    (hend : (w.program program).run n = ⟨w', .done completion, []⟩) : completion = .normal := by
  have hnone : Frame.AllReturnFree [] := fun _ hmem => absurd hmem List.not_mem_nil
  have hstart : (w.program program).Confined := .inl ⟨returnFree_of_survey h, hnone⟩
  exact hstart.normal hend

end Machine

end LoxLang
