import LoxLang.Proofs.Machine.Restoration
import LoxLang.Proofs.Machine.Sequencing

/-!
Results on their way to the frames below. A machine that hands a result to some frames has before
that come to a result above each frame that waited (`FinishesAt.through`), and what it hands on is what
the last of these makes of it: a call of an initializer gives what `this` is around it
(`gives_of_initializer`), and the construction of an object gives the object (`gives_of_construct`).
-/
namespace LoxLang.Machine
set_option autoImplicit false

section Finishing
variable {base : List Frame} {frame : Frame} {k n : Nat} {m inner : Machine}

/-- What is left of the way after some steps. -/
theorem FinishesAt.after (h : m.FinishesAt base n) (hk : k ≤ n) :
    (run k m).FinishesAt base (n - k) := by
  have hshift : ∀ j, run j (run k m) = run (k + j) m := fun j => (run_add k j m).symm
  refine ⟨?_, fun j hj => ?_⟩
  · rw [hshift, Nat.add_sub_cancel' hk]
    exact h.1
  · rw [hshift]
    exact h.2 (k + j) (by omega)

/-- A machine that comes to its end hands its result to the frames below it. -/
theorem finishesAt_of_halted (base : List Frame) (h : (run n m).halted = true) :
    ∃ k, (lift base m).FinishesAt base k ∧ run k (lift base m) = lift base (run n m) := by
  obtain ⟨k, -, hsame, hbefore⟩ := exists_first h
  have hlift : run k (lift base m) = lift base (run n m) := by
    rw [run_lift base k m hbefore, hsame]
  obtain ⟨hframes, hresult⟩ := (halted_iff _).mp h
  refine ⟨k, ⟨?_, Busy.of_active hbefore⟩, hlift⟩
  rw [hlift]
  exact ⟨by rw [lift_frames, hframes, List.nil_append], hresult⟩

/-- The first result is the one with which a machine finishes. -/
theorem FinishesAt.eq_of_yields (h : m.FinishesAt base n) (hk : k ≤ n)
    (hyields : (run k m).YieldsTo base) : k = n := by
  by_contra hne
  exact h.2 k (Nat.lt_of_le_of_ne hk hne) hyields

/-- A machine that does not finish at once goes on with a step. -/
theorem FinishesAt.of_waiting (h : m.FinishesAt base n) (hm : ¬ m.YieldsTo base) :
    ∃ j, n = j + 1 ∧ m.step.FinishesAt base j ∧ run n m = run j m.step := by
  cases n with
  | zero => exact absurd h.1 hm
  | succ j =>
    refine ⟨j, rfl, ?_, run_succ j m⟩
    have hafter := h.after (k := 1) (by omega)
    rwa [run_succ, run_zero, Nat.add_sub_cancel] at hafter

/-- If the next step comes to a result, a machine finishes with that. -/
theorem FinishesAt.of_step (h : m.FinishesAt base n) (hm : ¬ m.YieldsTo base)
    (hstep : m.step.YieldsTo base) : run n m = m.step := by
  obtain ⟨j, -, hfinish, hrun⟩ := h.of_waiting hm
  have hj := hfinish.eq_of_yields (Nat.zero_le j) hstep
  rw [hrun, ← hj, run_zero]

theorem not_yields_of_cons (w : World) (c : Control) (frame : Frame) (base : List Frame) :
    ¬ YieldsTo base ⟨w, c, frame :: base⟩ := fun h =>
  List.cons_ne_self frame base h.1

/-- On its way to some frames a machine comes to a result above the frame that waits on top of them. -/
theorem FinishesAt.through (h : (lift (frame :: base) inner).FinishesAt base n) :
    ∃ k ≤ n, ∃ w c, c.isResult = true ∧
      run k (lift (frame :: base) inner) = ⟨w, c, frame :: base⟩ := by
  rcases run_lift_or (frame :: base) n inner with ⟨-, hrun⟩ | ⟨k, hk, hhalted, hrun⟩
  · have hlength := congrArg List.length h.1.1
    rw [hrun, lift_frames, List.length_append, List.length_cons] at hlength
    omega
  · obtain ⟨hframes, hresult⟩ := (halted_iff _).mp hhalted
    refine ⟨k, Nat.le_of_lt hk, (run k inner).world, (run k inner).control, hresult, ?_⟩
    rw [hrun, lift, hframes]
    rfl

/-- When a machine with one more frame comes to a result for the others, read off their numbers. -/
theorem finishesAt_of_cons {w : World} {c c' : Control} (hresult : c'.isResult = true)
    (hcontrol : (run n ⟨w, c, frame :: base⟩).control = c')
    (hlength : (run n ⟨w, c, frame :: base⟩).frames.length = base.length)
    (hbusy : Busy base n ⟨w, c, frame :: base⟩) : FinishesAt base n ⟨w, c, frame :: base⟩ := by
  refine ⟨⟨?_, hcontrol ▸ hresult⟩, hbusy⟩
  have hrun : run n ⟨w, c, frame :: base⟩ = lift base (run n ⟨w, c, [frame]⟩) :=
    Busy.run_lift (m := ⟨w, c, [frame]⟩) hbusy
  rw [hrun, lift_frames, List.length_append] at hlength
  rw [hrun, lift_frames, List.length_eq_zero_iff.mp (Nat.add_eq_right.mp hlength)]
  rfl

/-! ## Calls and constructions -/

theorem finishCall_yields (w : World) (caller : Chain) (closure : Closure) (completion : Completion)
    (base : List Frame) : (finishCall w caller closure completion base).YieldsTo base := by
  unfold finishCall
  dsimp only
  split
  · split
    · exact ⟨rfl, rfl⟩
    · exact ⟨rfl, rfl⟩
  · split
    · exact ⟨rfl, rfl⟩
    · exact ⟨rfl, rfl⟩

/-- A body that was entered fails, or completes and gives its caller what the completion is worth. -/
theorem FinishesAt.of_call {w : World} {closure : Closure} {arguments : List Value}
    (h : (enterBody w closure arguments base).FinishesAt base n) :
    (∃ f, (run n (enterBody w closure arguments base)).control = .fault f) ∨
      ∃ k ≤ n, ∃ w' completion,
        run k (enterBody w closure arguments base) =
          ⟨w', .done completion, .call w.chain closure :: base⟩ ∧
        run n (enterBody w closure arguments base) =
          finishCall w' w.chain closure completion base := by
  have hlift : enterBody w closure arguments base = lift (.call w.chain closure :: base)
      { enterBody w closure arguments [] with frames := [] } := rfl
  obtain ⟨k, hk, w', c, hresult, hrun⟩ := (hlift ▸ h).through
  have hlast := h.after hk
  change run k (enterBody w closure arguments base) = _ at hrun
  have hsplit : run n (enterBody w closure arguments base) =
      run (n - k) ⟨w', c, .call w.chain closure :: base⟩ := by
    rw [← hrun, ← run_add, Nat.add_sub_cancel' hk]
  have hwaits := not_yields_of_cons w' c (.call w.chain closure) base
  rw [hrun] at hlast
  rw [hsplit]
  cases c with
  | value v =>
    -- A value counts as a completion first.
    obtain ⟨j, hj, hfinish, hnext⟩ := hlast.of_waiting hwaits
    rw [hnext]
    refine .inr ⟨k + 1, by omega, w', .normal, ?_, hfinish.of_step (not_yields_of_cons _ _ _ _)
      (finishCall_yields w' w.chain closure .normal base)⟩
    rw [run_succ_last, hrun]
    rfl
  | done completion =>
    exact .inr ⟨k, hk, w', completion, hrun,
      hlast.of_step hwaits (finishCall_yields w' w.chain closure completion base)⟩
  | fault f =>
    rw [hlast.of_step hwaits ⟨rfl, rfl⟩]
    exact .inl ⟨f, rfl⟩
  | _ => cases hresult

/-- Unless it hands over a fault, what a machine hands to some frames is a value. -/
def Gives (base : List Frame) (v : Value) (m : Machine) : Prop :=
  ∀ n, m.FinishesAt base n → (∃ f, (run n m).control = .fault f) ∨ (run n m).control = .value v

theorem Gives.control_eq {v u : Value} (h : m.Gives base v) (hfinish : m.FinishesAt base n)
    (hvalue : (run n m).control = .value u) : (run n m).control = .value v := by
  rcases h n hfinish with ⟨f, hfault⟩ | heq
  · cases hvalue.symm.trans hfault
  · exact heq

theorem Gives.of_step {v : Value} (h : m.step.Gives base v) (hm : ¬ m.YieldsTo base) :
    m.Gives base v := by
  intro n hfinish
  obtain ⟨j, -, hlater, hrun⟩ := hfinish.of_waiting hm
  rw [hrun]
  exact h j hlater

/-- A fault goes on to all frames. -/
theorem control_run_fault (w : World) (f : RuntimeFault) (frames : List Frame) (n : Nat) :
    (run n ⟨w, .fault f, frames⟩).control = .fault f := by
  induction n generalizing w frames with
  | zero => rfl
  | succ n ih =>
    rw [run_succ]
    cases frames with
    | nil => exact ih w []
    | cons frame frames => exact ih (unwind w frame) frames

theorem gives_of_fault (w : World) (f : RuntimeFault) (frames : List Frame) (v : Value) :
    Gives base v ⟨w, .fault f, frames⟩ :=
  fun n _ => .inl ⟨f, control_run_fault w f frames n⟩

theorem finishCall_initializer {w : World} {caller : Chain} {closure : Closure}
    {completion : Completion} {v : Value} (hinitializer : closure.isInitializer = true)
    (hthis : (finishCall w caller closure completion base).world.store.lookupAt? closure.chain 0
      "this" = some v) : (finishCall w caller closure completion base).control = .value v := by
  unfold finishCall at hthis ⊢
  dsimp only at hthis ⊢
  rw [if_pos hinitializer] at hthis ⊢
  split at hthis
  · rename_i found hfound
    rw [hfound] at hthis
    cases hthis
    rfl
  · rename_i hnone
    rw [hnone] at hthis
    cases hthis

/-- Where the body of an initializer is entered, what comes of it is what `this` is. -/
theorem gives_of_initializer {w : World} {closure : Closure} {arguments : List Value} {v : Value}
    (hinitializer : closure.isInitializer = true)
    (hthis : ∀ n, (run n (enterBody w closure arguments base)).world.store.lookupAt? closure.chain 0
      "this" = some v) : (enterBody w closure arguments base).Gives base v := by
  intro n hfinish
  refine hfinish.of_call.imp_right fun ⟨_, _, w', completion, _, hrun⟩ => ?_
  have hlast := hthis n
  rw [hrun] at hlast ⊢
  exact finishCall_initializer hinitializer hlast

/-- Where an object is constructed, whatever comes of the initializer, the object is the result. -/
theorem gives_of_construct (object : ObjectRef) (base : List Frame) (inner : Machine) :
    (lift (.construct object :: base) inner).Gives base (.object object) := by
  intro n hfinish
  obtain ⟨k, hk, w, c, hresult, hrun⟩ := hfinish.through
  have hlast := hfinish.after hk
  have hsplit : run n (lift (.construct object :: base) inner) =
      run (n - k) ⟨w, c, .construct object :: base⟩ := by
    rw [← hrun, ← run_add, Nat.add_sub_cancel' hk]
  rw [hrun] at hlast
  rw [hsplit]
  have hwaits := not_yields_of_cons w c (.construct object) base
  cases c with
  | value v =>
    rw [hlast.of_step hwaits ⟨rfl, rfl⟩]
    exact .inr rfl
  | done completion =>
    obtain ⟨j, -, hfinish, hnext⟩ := hlast.of_waiting hwaits
    rw [hnext, hfinish.of_step (not_yields_of_cons _ _ _ _) ⟨rfl, rfl⟩]
    exact .inr rfl
  | fault f =>
    rw [hlast.of_step hwaits ⟨rfl, rfl⟩]
    exact .inl ⟨f, rfl⟩
  | _ => cases hresult

end Finishing

end LoxLang.Machine
