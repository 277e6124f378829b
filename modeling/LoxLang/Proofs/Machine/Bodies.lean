import LoxLang.Proofs.Machine.Frames
import LoxLang.Proofs.Machine.Returns
import LoxLang.Proofs.Machine.Sorts
import LoxLang.Proofs.Machine.Termination

/-!
What a `return` ends. The frames between an executed `return` and the nearest call are those of blocks,
loops and statements one after the other, and each of them hands the returned value on at once
(`run_handsOn`); so the call ends with this value and nothing else is done in it (`Returning.finishes`),
and a body in which no `return` is executed gives nil (`FinishesAt.of_no_return`). Outside of calls there
is no `return`, so the statements of a program are executed one after the other up to the first fault
(`returns_end_calls`).
-/
namespace LoxLang
set_option autoImplicit false

/-! ## Frames that hand a return on -/

/-- Frames that a returned value passes at once. -/
inductive Frame.HandsOn : Frame → Prop
  | sequence (rest : List Stmt) : HandsOn (.sequence rest)
  | loopBody (condition : Expr) (body : Stmt) : HandsOn (.loopBody condition body)
  | block (outer : Chain) : HandsOn (.block outer)

/-- Where a statement is executed, the frames down to the nearest call hand a return on. -/
theorem Frame.handsOn_of_carry {above below : List Frame} {goal : Bool}
    (habove : ∀ frame ∈ above, frame.isCall = false) (h : Frame.Carry true (above ++ below) goal) :
    ∀ frame ∈ above, frame.HandsOn := by
  induction above with
  | nil => exact List.forall_mem_nil _
  | cons frame above ih =>
    obtain ⟨hframe, hrest⟩ := List.forall_mem_cons.mp habove
    obtain ⟨hawaits, hcarry⟩ := h
    refine List.forall_mem_cons.mpr ?_
    cases frame with
    | sequence rest => exact ⟨.sequence rest, ih hrest hcarry⟩
    | loopBody condition body => exact ⟨.loopBody condition body, ih hrest hcarry⟩
    | block outer => exact ⟨.block outer, ih hrest hcarry⟩
    | call caller closure => cases hframe
    | _ => cases hawaits

namespace Machine

/-- A returned value comes down through such frames, and on the way nothing is done but leaving the
blocks. -/
theorem run_handsOn {above : List Frame} (h : ∀ frame ∈ above, frame.HandsOn) (w : World) (v : Value)
    (below : List Frame) : ∃ chain,
      run above.length ⟨w, .done (.returned v), above ++ below⟩ =
        ⟨w.withChain chain, .done (.returned v), below⟩ ∧
      ∀ j ≤ above.length,
        (run j ⟨w, .done (.returned v), above ++ below⟩).control = .done (.returned v) ∧
        below.length ≤ (run j ⟨w, .done (.returned v), above ++ below⟩).frames.length := by
  induction above generalizing w with
  | nil =>
    refine ⟨w.chain, rfl, fun j hj => ?_⟩
    obtain rfl := Nat.le_zero.mp hj
    exact ⟨rfl, Nat.le_refl _⟩
  | cons frame above ih =>
    obtain ⟨hframe, habove⟩ := List.forall_mem_cons.mp h
    have hstep : ∃ chain, (⟨w, .done (.returned v), frame :: above ++ below⟩ : Machine).step =
        ⟨w.withChain chain, .done (.returned v), above ++ below⟩ := by
      cases hframe with
      | sequence rest => exact ⟨w.chain, rfl⟩
      | loopBody condition body => exact ⟨w.chain, rfl⟩
      | block outer => exact ⟨outer, rfl⟩
    obtain ⟨first, hstep⟩ := hstep
    obtain ⟨chain, hrun, hway⟩ := ih habove (w.withChain first)
    refine ⟨chain, ?_, fun j hj => ?_⟩
    · rw [List.length_cons, run_succ, hstep, hrun]
      rfl
    · cases j with
      | zero =>
        refine ⟨rfl, ?_⟩
        simp only [run_zero, List.length_append]
        omega
      | succ j =>
        rw [run_succ, hstep]
        exact hway j (Nat.le_of_succ_le_succ hj)

/-- Without calls on the way a fault leaves everything but the chain as it is. -/
theorem run_fault_down {frames : List Frame} (h : ∀ frame ∈ frames, frame.isCall = false) (w : World)
    (f : RuntimeFault) : ∃ chain,
      run frames.length ⟨w, .fault f, frames⟩ = ⟨w.withChain chain, .fault f, []⟩ := by
  induction frames generalizing w with
  | nil => exact ⟨w.chain, rfl⟩
  | cons frame frames ih =>
    obtain ⟨hframe, hframes⟩ := List.forall_mem_cons.mp h
    have hstep : ∃ chain, (⟨w, .fault f, frame :: frames⟩ : Machine).step =
        ⟨w.withChain chain, .fault f, frames⟩ := by
      cases frame with
      | block outer => exact ⟨outer, rfl⟩
      | call caller closure => cases hframe
      | _ => exact ⟨w.chain, rfl⟩
    obtain ⟨first, hstep⟩ := hstep
    obtain ⟨chain, hrun⟩ := ih hframes (w.withChain first)
    refine ⟨chain, ?_⟩
    rw [List.length_cons, run_succ, hstep, hrun]
    rfl

/-! ## Returns -/

/-- A `return` is executed in the body whose call is on top of some frames: it has no value, or its value
has just been found. There is no other call in between. -/
inductive Returning (frames : List Frame) : Value → Machine → Prop
  | nothing (w : World) (keyword : Token) {above : List Frame} :
    (∀ frame ∈ above, frame.isCall = false) →
    Returning frames .nil ⟨w, .exec (.returnWith keyword none), above ++ frames⟩
  | value (w : World) (v : Value) {above : List Frame} :
    (∀ frame ∈ above, frame.isCall = false) →
    Returning frames v ⟨w, .value v, .returning :: (above ++ frames)⟩

/-- Where a `return` is executed, its value is the next result, and it comes down to the call. -/
theorem Returning.step_eq {base : List Frame} {frame : Frame} {v : Value} {inner : Machine}
    {goal : Bool} (h : (lift base inner).Returning (frame :: base) v) (hsorted : inner.Sorted goal) :
    base.length < (lift base inner).frames.length ∧ ∃ above : List Frame,
      (∀ f ∈ above, f.HandsOn) ∧
      (lift base inner).step = ⟨inner.world, .done (.returned v), above ++ frame :: base⟩ := by
  obtain ⟨w, c, frames⟩ := inner
  obtain ⟨given, hgives, hcarry⟩ := hsorted
  rw [lift_mk] at h ⊢
  generalize hall : frames ++ base = all at h ⊢
  cases h with
  | @nothing _ keyword above habove =>
    obtain rfl : frames = above ++ [frame] := by
      apply List.append_cancel_right
      rw [hall, List.append_assoc, List.singleton_append]
    obtain rfl : given = true := hgives
    refine ⟨?_, above, Frame.handsOn_of_carry habove hcarry, rfl⟩
    simp only [List.length_append, List.length_cons]
    omega
  | @value _ _ above habove =>
    obtain rfl : frames = .returning :: (above ++ [frame]) := by
      apply List.append_cancel_right
      rw [hall, List.cons_append, List.append_assoc, List.singleton_append]
    refine ⟨?_, above, Frame.handsOn_of_carry habove hcarry.2, rfl⟩
    simp only [List.length_append, List.length_cons]
    omega

/-- A call in whose body a `return` is executed ends with the value of it, and nothing else is done on
the way: the world is left as it is, but for the return to the caller. -/
theorem Returning.finishes {base : List Frame} {caller : Chain} {closure : Closure} {v : Value}
    {inner : Machine} {k : Nat} (hinitializer : closure.isInitializer = false)
    (hsorted : inner.Sorted false) (hbusy : (lift base inner).Busy base k)
    (h : (run k (lift base inner)).Returning (.call caller closure :: base) v) :
    ∃ n, k < n ∧ (lift base inner).FinishesAt base n ∧
      (∀ j, k < j → j < n → (run j (lift base inner)).control = .done (.returned v)) ∧
      run n (lift base inner) =
        ⟨(run k (lift base inner)).world.leaveCall caller, .value v, base⟩ := by
  have hk : run k (lift base inner) = lift base (run k inner) := hbusy.run_lift
  rw [hk] at h
  obtain ⟨hlength, above, habove, hstep⟩ := h.step_eq (sorted_run hsorted k)
  rw [← hk] at hlength hstep
  obtain ⟨chain, hdown, hway⟩ := run_handsOn habove (run k inner).world v
    (.call caller closure :: base)
  -- After step `k` the states are those on the way down.
  have hrun : ∀ j, run (k + 1 + j) (lift base inner) = run j ⟨(run k inner).world,
      .done (.returned v), above ++ .call caller closure :: base⟩ := by
    intro j
    rw [run_add, run_succ_last, hstep]
  have hlast : run (k + 1 + above.length + 1) (lift base inner) =
      ⟨(run k (lift base inner)).world.leaveCall caller, .value v, base⟩ := by
    rw [run_succ_last, hrun, hdown, hk]
    simp [step, stepDone, finishCall, hinitializer]
  have hbetween : ∀ j, k < j → j < k + 1 + above.length + 1 →
      (run j (lift base inner)).control = .done (.returned v) ∧
        base.length < (run j (lift base inner)).frames.length := by
    intro j hlow hhigh
    obtain ⟨i, rfl⟩ := Nat.exists_eq_add_of_lt hlow
    obtain ⟨hcontrol, hframes⟩ := hway i (by omega)
    rw [List.length_cons] at hframes
    rw [Nat.add_right_comm, hrun]
    exact ⟨hcontrol, hframes⟩
  refine ⟨k + 1 + above.length + 1, by omega, ⟨?_, fun j hj hyields => ?_⟩,
    fun j hlow hhigh => (hbetween j hlow hhigh).1, hlast⟩
  · rw [hlast]
    exact ⟨rfl, rfl⟩
  · have hequal := congrArg List.length hyields.1
    rcases Nat.lt_trichotomy j k with hless | rfl | hless
    · exact hbusy j hless hyields
    · omega
    · have hmore := (hbetween j hless hj).2
      omega

/-! ## Without a return -/

/-- A returned value is on its way down to some frames. -/
def Returned (frames : List Frame) (v : Value) (m : Machine) : Prop :=
  ∃ w above, m = ⟨w, .done (.returned v), above ++ frames⟩ ∧ ∀ frame ∈ above, frame.isCall = false

/-- A value that is on its way was so before, or its `return` has just been executed. -/
theorem Returned.of_step {frames : List Frame} {v : Value} {m : Machine} (hactive : m.halted = false)
    (h : m.step.Returned frames v) : m.Returned frames v ∨ m.Returning frames v := by
  obtain ⟨w, above, hstep, habove⟩ := h
  have hmove := move_step hactive
  generalize m.step = m' at hstep hmove
  have hcontrol := congrArg Machine.control hstep
  have hframes := congrArg Machine.frames hstep
  dsimp only at hcontrol hframes
  have hpast : ∀ {frame : Frame}, frame.isCall = false →
      ∀ f ∈ frame :: above, f.isCall = false := fun hframe =>
    List.forall_mem_cons.mpr ⟨hframe, habove⟩
  cases hmove with
  | defers h => cases h <;> cases hcontrol
  | becomes h =>
    cases h with
    | returnNothing keyword =>
      cases hcontrol
      cases hframes
      exact .inr (.nothing _ keyword habove)
    | _ => cases hcontrol
  | @passes w₀ _ _ _ _ _ h =>
    cases h with
    | loopReturn condition body =>
      cases hcontrol
      cases hframes
      exact .inl ⟨w₀, .loopBody condition body :: above, rfl, hpast rfl⟩
    | returning =>
      cases hcontrol
      cases hframes
      exact .inr (.value _ v habove)
    | sequenceReturn rest =>
      cases hcontrol
      cases hframes
      exact .inl ⟨w₀, .sequence rest :: above, rfl, hpast rfl⟩
    | _ => cases hcontrol
  | leaves w₀ completion outer =>
    cases hcontrol
    cases hframes
    exact .inl ⟨w₀, .block outer :: above, rfl, hpast rfl⟩
  | returns h => cases h <;> cases hcontrol
  | _ => cases hcontrol

/-- Where no `return` is executed, no value is on its way. -/
theorem not_returned_run {frames : List Frame} {v : Value} {m : Machine} {n : Nat}
    (hm : ¬ m.Returned frames v) (hnone : ∀ k < n, ¬ (run k m).Returning frames v) :
    ¬ (run n m).Returned frames v := by
  induction n with
  | zero => exact hm
  | succ n ih =>
    have hbefore := ih fun k hk => hnone k (Nat.lt_succ_of_lt hk)
    rw [run_succ_last]
    cases hhalted : (run n m).halted with
    | true => rwa [step_of_halted hhalted]
    | false =>
      intro hreturned
      rcases hreturned.of_step hhalted with hearlier | hreturning
      · exact hbefore hearlier
      · exact hnone n (Nat.lt_succ_self n) hreturning

/-- A body in which no `return` is executed fails or gives nil. -/
theorem FinishesAt.of_no_return {w : World} {closure : Closure} {arguments : List Value}
    {base : List Frame} {n : Nat} (hinitializer : closure.isInitializer = false)
    (h : (enterBody w closure arguments base).FinishesAt base n)
    (hnone : ∀ k < n, ∀ v, ¬ (run k (enterBody w closure arguments base)).Returning
      (.call w.chain closure :: base) v) :
    (∃ f, (run n (enterBody w closure arguments base)).control = .fault f) ∨
      (run n (enterBody w closure arguments base)).control = .value .nil := by
  refine h.of_call.imp_right fun ⟨k, hk, w', completion, hrun, hlast⟩ => ?_
  cases completion with
  | normal =>
    rw [hlast]
    simp [finishCall, hinitializer]
  | returned v =>
    have hstart : ¬ (enterBody w closure arguments base).Returned (.call w.chain closure :: base) v := by
      rintro ⟨w₀, above, hmachine, -⟩
      cases congrArg Machine.control hmachine
    have hnever := not_returned_run (n := k) hstart fun j hj => hnone j (by omega) v
    exact absurd ⟨w', [], hrun, List.forall_mem_nil _⟩ hnever

end Machine

/-! ## Programs -/

theorem Stmt.returnFree_of_mem {body : List Stmt} (h : Stmt.AllReturnFree body) {s : Stmt}
    (hs : s ∈ body) : s.ReturnFree := by
  induction body with
  | nil => cases hs
  | cons first rest ih =>
    rcases List.mem_cons.mp hs with rfl | hrest
    · exact h.1
    · exact ih h.2 hrest

namespace World

/-- The statements of a program are executed one after the other, each as it is on its own, up to the
first that fails. -/
inductive InOrder : World → List Stmt → Option RuntimeFault → World → Prop
  | nothing (w : World) : InOrder w [] none w
  | fails {fuel : Nat} {w w' : World} {s : Stmt} {f : RuntimeFault} (rest : List Stmt) :
    w.execute? fuel s = some (.error f, w') → InOrder w (s :: rest) (some f) w'
  | next {fuel : Nat} {w mid w' : World} {s : Stmt} {rest : List Stmt} {fault : Option RuntimeFault} :
    w.execute? fuel s = some (.ok .normal, mid) → InOrder mid rest fault w' →
    InOrder w (s :: rest) fault w'

theorem execute?_done {fuel : Nat} {w w' : World} {s : Stmt} {completion : Completion} :
    w.execute? fuel s = some (.ok completion, w') ↔
      Machine.run fuel ⟨w, .exec s, []⟩ = ⟨w', .done completion, []⟩ := by
  unfold execute?
  generalize Machine.run fuel ⟨w, .exec s, []⟩ = m
  obtain ⟨world, c, frames⟩ := m
  cases c <;> cases frames <;> simp [Machine.outcome?, and_comm]

theorem execute?_fault {fuel : Nat} {w w' : World} {s : Stmt} {f : RuntimeFault} :
    w.execute? fuel s = some (.error f, w') ↔
      Machine.run fuel ⟨w, .exec s, []⟩ = ⟨w', .fault f, []⟩ := by
  unfold execute?
  generalize Machine.run fuel ⟨w, .exec s, []⟩ = m
  obtain ⟨world, c, frames⟩ := m
  cases c <;> cases frames <;> simp [Machine.outcome?, and_comm]

/-- What a program has come to. -/
def Concludes (m : Machine) (fault : Option RuntimeFault) (w : World) : Prop :=
  match fault with
  | none => ∃ completion, m = ⟨w, .done completion, []⟩
  | some f => m = ⟨w, .fault f, []⟩

theorem interpret?_eq_some {fuel : Nat} {w w' : World} {program : List Stmt}
    {fault : Option RuntimeFault} :
    w.interpret? fuel program = some (fault, w') ↔
      Concludes (Machine.run fuel (w.program program)) fault w' := by
  unfold interpret?
  generalize Machine.run fuel (w.program program) = m
  obtain ⟨world, c, frames⟩ := m
  cases fault <;> cases c <;> cases frames <;> simp [Machine.outcome?, Concludes, and_comm]

/-- A statement that is free of `return` completes normally, if it completes. -/
theorem normal_of_execute? {fuel : Nat} {w w' : World} {s : Stmt} {completion : Completion}
    (hs : s.ReturnFree) (h : w.execute? fuel s = some (.ok completion, w')) :
    completion = .normal := by
  have hnone : Frame.AllReturnFree [] := List.forall_mem_nil _
  have hstart : (⟨w, .exec s, []⟩ : Machine).Confined := .inl ⟨hs, hnone⟩
  exact hstart.normal (execute?_done.mp h)

theorem Concludes.halted {m : Machine} {fault : Option RuntimeFault} {w : World}
    (h : Concludes m fault w) : m.halted = true := by
  cases fault with
  | none =>
    obtain ⟨completion, rfl⟩ := h
    rfl
  | some f =>
    obtain rfl := h
    rfl

theorem Concludes.unique {m : Machine} {fault other : Option RuntimeFault} {w w' : World}
    (h : Concludes m fault w) (h' : Concludes m other w') : fault = other ∧ w = w' := by
  cases fault with
  | none =>
    obtain ⟨completion, rfl⟩ := h
    cases other with
    | none =>
      obtain ⟨completion', heq⟩ := h'
      cases heq
      exact ⟨rfl, rfl⟩
    | some f => cases h'
  | some f =>
    obtain rfl := h
    cases other with
    | none =>
      obtain ⟨completion, heq⟩ := h'
      cases heq
    | some f' =>
      cases h'
      exact ⟨rfl, rfl⟩

/-- From the first statement on: it fails, or it completes normally and the others follow. -/
theorem inOrder_of_run {program : List Stmt} (hprogram : Stmt.AllReturnFree program) {fuel : Nat}
    {w w' : World} {fault : Option RuntimeFault}
    (h : Concludes (Machine.run fuel (w.program program)) fault w') : InOrder w program fault w' := by
  induction program generalizing w with
  | nil =>
    have hpassed := Machine.run_of_passed rfl h.halted 1
    change Machine.run fuel ⟨w, .done .normal, []⟩ = _ at hpassed
    rw [Machine.run_of_halted (by rfl)] at hpassed
    have hnothing : Concludes ⟨w, .done .normal, []⟩ none w := ⟨.normal, rfl⟩
    rw [← hpassed] at h
    obtain ⟨rfl, rfl⟩ := h.unique hnothing
    exact .nothing _
  | cons s rest ih =>
    obtain ⟨hs, hrest⟩ := hprogram
    have hpassed := Machine.run_of_passed rfl h.halted 1
    change Machine.run fuel (Machine.lift [.sequence rest] ⟨w, .exec s, []⟩) = _ at hpassed
    obtain ⟨k, hhalted, hactive⟩ := Machine.exists_first_halt (List.cons_ne_nil _ _) hpassed
      ((Machine.halted_iff _).mp h.halted).1
    have hsorted : Machine.Sorted true ⟨w, .exec s, []⟩ := ⟨true, rfl, rfl⟩
    have hlift := Machine.run_lift [.sequence rest] k ⟨w, .exec s, []⟩ hactive
    -- One step after the statement has come to its end the others follow, or it has failed.
    have hlater := Machine.run_of_passed hpassed h.halted (k + 1)
    rw [Machine.run_succ_last, hlift] at hlater
    obtain ⟨mid, ⟨completion, hend⟩ | ⟨f, hend⟩⟩ :=
      Machine.done_of_halted (Machine.sorted_run hsorted k) hhalted
    · have hdone := execute?_done.mpr hend
      obtain rfl := normal_of_execute? hs hdone
      rw [hend] at hlater
      change Machine.run fuel (mid.program rest) = _ at hlater
      rw [← hlater] at h
      exact .next hdone (ih hrest h)
    · have hfault := execute?_fault.mpr hend
      rw [hend] at hlater
      change Machine.run fuel ⟨mid, .fault f, []⟩ = _ at hlater
      rw [Machine.run_of_halted (by rfl)] at hlater
      have hfails : Concludes ⟨mid, .fault f, []⟩ (some f) mid := rfl
      rw [← hlater] at h
      obtain ⟨rfl, rfl⟩ := h.unique hfails
      exact .fails rest hfault

theorem InOrder.run {program : List Stmt} {w w' : World} {fault : Option RuntimeFault}
    (h : InOrder w program fault w') :
    ∃ fuel, Concludes (Machine.run fuel (w.program program)) fault w' := by
  induction h with
  | nothing w => exact ⟨1, .normal, rfl⟩
  | @fails fuel w w' s f rest hs =>
    obtain ⟨k, hk⟩ := Machine.exists_run_lift [.sequence rest] (execute?_fault.mp hs) rfl
    refine ⟨1 + (k + 1), ?_⟩
    rw [Machine.run_add, Machine.run_succ_last]
    change Concludes (Machine.run k (Machine.lift [.sequence rest] ⟨w, .exec s, []⟩)).step _ _
    rw [hk]
    rfl
  | @next fuel w mid w' s rest fault hs _ ih =>
    obtain ⟨more, hmore⟩ := ih
    obtain ⟨k, hk⟩ := Machine.exists_run_lift [.sequence rest] (execute?_done.mp hs) rfl
    refine ⟨1 + (k + 1 + more), ?_⟩
    rw [Machine.run_add, Machine.run_add, Machine.run_succ_last]
    change Concludes (Machine.run more
      (Machine.run k (Machine.lift [.sequence rest] ⟨w, .exec s, []⟩)).step) _ _
    rw [hk]
    exact hmore

/-- A program without a `return` outside of its functions executes its statements in order. -/
theorem interpret?_iff_inOrder {program : List Stmt} (h : Stmt.AllReturnFree program) {w w' : World}
    {fault : Option RuntimeFault} :
    (∃ fuel, w.interpret? fuel program = some (fault, w')) ↔ InOrder w program fault w' :=
  ⟨fun ⟨_, hfuel⟩ => inOrder_of_run h (interpret?_eq_some.mp hfuel),
    fun hin => hin.run.imp fun _ => interpret?_eq_some.mpr⟩

end World

/-! ## Calls -/

namespace Machine

/-- A call of a function comes to a fault at once or enters the body. -/
theorem apply_function (w : World) (id : Nat) (closure : Closure) (paren : Token)
    (arguments : List Value) (base : List Frame) :
    (∃ f, apply w (.callable (.function id closure)) paren arguments base = ⟨w, .fault f, base⟩) ∨
      apply w (.callable (.function id closure)) paren arguments base =
        enterBody w closure arguments base := by
  unfold apply
  dsimp only
  split
  · exact .inl ⟨_, rfl⟩
  · split
    · exact .inl ⟨_, rfl⟩
    · exact .inr rfl

end Machine

/-- A program that is surveyed without faults does not return: no statement of it comes to a `return` in
any world, and it executes its statements in order up to the first that fails. And in any call of a
function that is no initializer, a `return` that is executed in the body, however deep in blocks and
loops, ends this call with its value, and until it has ended nothing else is done; if none is executed,
what the call gives is nil, unless it fails. -/
theorem returns_end_calls :
    (∀ (program : List Stmt) (entries : List DistanceEntry), survey program = .ok entries →
      (∀ s ∈ program, ∀ (w w' : World) (fuel : Nat) (completion : Completion),
        w.execute? fuel s = some (.ok completion, w') → completion = .normal) ∧
      ∀ (w w' : World) (fault : Option RuntimeFault),
        (∃ fuel, w.interpret? fuel program = some (fault, w')) ↔ w.InOrder program fault w') ∧
    ∀ (w : World) (id : Nat) (closure : Closure) (paren : Token) (arguments : List Value)
      (base : List Frame), closure.isInitializer = false →
      let call := Machine.apply w (.callable (.function id closure)) paren arguments base
      (∀ k v, call.Busy base k →
        (call.run k).Returning (.call w.chain closure :: base) v →
        ∃ n, k < n ∧ call.FinishesAt base n ∧
          (∀ j, k < j → j < n → (call.run j).control = .done (.returned v)) ∧
          call.run n = ⟨(call.run k).world.leaveCall w.chain, .value v, base⟩) ∧
      ∀ n, call.FinishesAt base n →
        (∀ k < n, ∀ v, ¬ (call.run k).Returning (.call w.chain closure :: base) v) →
        (∃ f, (call.run n).control = .fault f) ∨ (call.run n).control = .value .nil := by
  refine ⟨fun program entries hsurvey => ?_, fun w id closure paren arguments base hinitializer => ?_⟩
  · have hprogram := returnFree_of_survey hsurvey
    exact ⟨fun s hs w w' fuel completion => World.normal_of_execute? (Stmt.returnFree_of_mem hprogram hs),
      fun w w' fault => World.interpret?_iff_inOrder hprogram⟩
  · intro call
    rcases Machine.apply_function w id closure paren arguments base with ⟨f, hcall⟩ | hcall
    · have hcall : call = ⟨w, .fault f, base⟩ := hcall
      rw [hcall]
      refine ⟨fun k v hbusy hreturning => ?_, fun n _ _ =>
        .inl ⟨f, Machine.control_run_fault w f base n⟩⟩
      cases k with
      | zero => nomatch hreturning
      | succ k => exact absurd ⟨rfl, rfl⟩ (hbusy 0 (Nat.succ_pos k))
    · have hcall : call = Machine.lift base (Machine.enterBody w closure arguments []) := hcall
      have hsorted : (Machine.enterBody w closure arguments []).Sorted false :=
        Machine.sorted_enterBody w closure arguments rfl
      rw [hcall]
      exact ⟨fun k v hbusy hreturning => hreturning.finishes hinitializer hsorted hbusy,
        fun n hfinish hnone => Machine.FinishesAt.of_no_return hinitializer hfinish hnone⟩

/-- A function that returns a text from a block in a loop that would go on for ever. -/
theorem returns_end_calls_from_loops :
    let name : Token := ⟨.identifier, "f", 1⟩
    let body : Stmt := .loop (.literal (.bool true))
      (.block [.returnWith name (some (.literal (.string "x")))])
    let closure : Closure := ⟨⟨name, [], [body]⟩, .globals, false⟩
    let w := World.fresh (.ofRoom none) (.standing 0)
    let call := Machine.apply w (.callable (.function 0 closure)) name [] [.discard]
    survey [.function closure.declaration] = .ok [] ∧
      (∃ w', w.InOrder [.function closure.declaration] none w') ∧
      closure.isInitializer = false ∧ call.Busy [.discard] 8 ∧
      (call.run 8).Returning [.call w.chain closure, .discard] (.string "x") ∧
      ∃ n, 8 < n ∧ call.FinishesAt [.discard] n ∧ (call.run n).control = .value (.string "x") := by
  intro name body closure w call
  have hsurvey : survey [.function closure.declaration] = .ok [] := rfl
  have hinterpret : w.interpret? 4 [.function closure.declaration] =
      some (none, (Machine.run 4 (w.program [.function closure.declaration])).world) := rfl
  have hlength : ∀ k < 8, (call.run k).frames.length ≠ 1 := by decide
  have hbusy : call.Busy [.discard] 8 := .of_lengths fun k hk h => hlength k hk h.1
  have hframes : ∀ frame ∈ ((call.run 8).frames.take 5).tail, frame.isCall = false := by decide
  have hreturning : (call.run 8).Returning [.call w.chain closure, .discard] (.string "x") :=
    .value (call.run 8).world (.string "x") hframes
  obtain ⟨n, hn, hfinish, -, hlast⟩ :=
    (returns_end_calls.2 w 0 closure name [] [.discard] rfl).1 8 _ hbusy hreturning
  have hin := ((returns_end_calls.1 _ [] hsurvey).2 w _ none).mp ⟨4, hinterpret⟩
  exact ⟨hsurvey, ⟨_, hin⟩, rfl, hbusy, hreturning, n, hn, hfinish, congrArg Machine.control hlast⟩

end LoxLang
