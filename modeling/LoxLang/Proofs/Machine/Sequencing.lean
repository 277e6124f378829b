import Mathlib.Data.Nat.Find
import LoxLang.Proofs.Machine.Lifting

/-!
Programs one after the other. A machine that comes to the end of some statements comes to the same
world when more statements follow, and goes on with these (`run_append`).
-/
namespace LoxLang.Machine
set_option autoImplicit false

/-- What a run ends with is what it ends with from any state that it passes. -/
theorem run_of_passed {n : Nat} {m last : Machine} (h : run n m = last) (hlast : last.halted = true)
    (k : Nat) : run n (run k m) = last := by
  rw [← run_add, Nat.add_comm, run_add, h, run_of_halted hlast]

/-- A machine that has not come to its end had not before. -/
theorem active_before {k : Nat} {m : Machine} (h : (run k m).halted = false) :
    ∀ j ≤ k, (run j m).halted = false := by
  intro j hj
  cases hhalted : (run j m).halted with
  | false => rfl
  | true =>
    obtain ⟨i, rfl⟩ := Nat.exists_eq_add_of_le hj
    rw [run_add, run_of_halted hhalted, hhalted] at h
    cases h

/-- What a run ends with it comes to at some first step. -/
theorem exists_first {n : Nat} {m : Machine} (h : (run n m).halted = true) :
    ∃ k ≤ n, run k m = run n m ∧ ∀ j < k, (run j m).halted = false := by
  have hexists : ∃ k, (run k m).halted = true := ⟨n, h⟩
  obtain ⟨i, hi⟩ := Nat.exists_eq_add_of_le (Nat.find_min' hexists h)
  refine ⟨Nat.find hexists, Nat.find_min' hexists h, ?_, fun j hj =>
    Bool.eq_false_iff.mpr (Nat.find_min hexists hj)⟩
  rw [hi, run_add, run_of_halted (Nat.find_spec hexists)]

/-- A machine on its own comes to its end if with more frames below it these come to be left. -/
theorem exists_first_halt {n : Nat} {m last : Machine} {base : List Frame} (hbase : base ≠ [])
    (h : run n (lift base m) = last) (hlast : last.frames = []) :
    ∃ k, (run k m).halted = true ∧ ∀ j < k, (run j m).halted = false := by
  by_cases hexists : ∃ k, (run k m).halted = true
  · obtain ⟨i, hi⟩ := hexists
    obtain ⟨k, -, hk, hbefore⟩ := exists_first hi
    exact ⟨k, hk ▸ hi, hbefore⟩
  · have hactive : ∀ k < n, (run k m).halted = false := fun k _ =>
      Bool.eq_false_iff.mpr fun hk => hexists ⟨k, hk⟩
    rw [run_lift base n m hactive] at h
    rw [← h, lift_frames] at hlast
    exact absurd (List.append_eq_nil_iff.mp hlast).2 hbase

/-- With more frames below it a machine is still at its own steps, or has come to its end earlier and
gone on from there. -/
theorem run_lift_or (base : List Frame) (n : Nat) (m : Machine) :
    ((∀ k < n, (run k m).halted = false) ∧ run n (lift base m) = lift base (run n m)) ∨
      ∃ k < n, (run k m).halted = true ∧ run k (lift base m) = lift base (run k m) := by
  by_cases hends : ∃ k < n, (run k m).halted = true
  · obtain ⟨i, hi, hhalted⟩ := hends
    obtain ⟨k, hk, hsame, hbefore⟩ := exists_first hhalted
    exact .inr ⟨k, Nat.lt_of_le_of_lt hk hi, hsame ▸ hhalted, run_lift base k m hbefore⟩
  · have hactive : ∀ k < n, (run k m).halted = false := fun k hk =>
      Bool.eq_false_iff.mpr fun hhalted => hends ⟨k, hk, hhalted⟩
    exact .inl ⟨hactive, run_lift base n m hactive⟩

/-- A machine that comes to its end on its own comes to the same with more frames below it. -/
theorem exists_run_lift {n : Nat} {m last : Machine} (base : List Frame) (h : run n m = last)
    (hlast : last.halted = true) : ∃ k, run k (lift base m) = lift base last := by
  rcases run_lift_or base (n + 1) m with ⟨hactive, -⟩ | ⟨k, -, hhalted, hlift⟩
  · rw [← h, hactive n (Nat.lt_succ_self n)] at hlast
    cases hlast
  · have hpassed := run_of_passed h hlast k
    rw [run_of_halted hhalted] at hpassed
    exact ⟨k, by rw [hlift, hpassed]⟩

/-- A statement after which the statements that follow are run hands over to them after some steps,
whichever they are. -/
theorem run_statement {n : Nat} {w w' : World} {s : Stmt} {more : List Stmt}
    (h : run n ⟨w, .exec s, [.sequence more]⟩ = ⟨w', .done .normal, []⟩) :
    ∃ k world, ∀ rest, run k ⟨w, .exec s, [.sequence rest]⟩ = ⟨world, .execAll rest, []⟩ := by
  obtain ⟨k, hhalted, hactive⟩ := exists_first_halt (m := ⟨w, .exec s, []⟩)
    (List.cons_ne_nil _ _) h rfl
  have hlifted : ∀ rest, run k ⟨w, .exec s, [.sequence rest]⟩ =
      lift [.sequence rest] (run k ⟨w, .exec s, []⟩) := fun rest =>
    run_lift [.sequence rest] k ⟨w, .exec s, []⟩ hactive
  have hpassed := run_of_passed h rfl k
  rw [hlifted] at hpassed
  generalize run k ⟨w, .exec s, []⟩ = m at hhalted hlifted hpassed
  have hnever : ∀ stuck : Machine, stuck.halted = true →
      run 1 (lift [.sequence more] m) = stuck → stuck = ⟨w', .done .normal, []⟩ := by
    rintro stuck hstuck rfl
    have hend := run_of_passed hpassed rfl 1
    rwa [run_of_halted hstuck] at hend
  obtain ⟨world, c, frames⟩ := m
  cases frames with
  | cons frame frames => cases c <;> cases hhalted
  | nil =>
    cases c with
    | done completion =>
      cases completion with
      | normal =>
        refine ⟨k + 1, world, fun rest => ?_⟩
        rw [run_add, hlifted]
        rfl
      | returned v => cases hnever ⟨world, .done (.returned v), []⟩ rfl rfl
    | value v =>
      refine ⟨k + 2, world, fun rest => ?_⟩
      rw [run_add, hlifted]
      rfl
    | fault f => cases hnever ⟨world, .fault f, []⟩ rfl rfl
    | _ => cases hhalted

/-- Statements that come to their end lead on to the statements that follow, whichever they are. -/
theorem run_append {n : Nat} {w w' : World} {first : List Stmt}
    (h : run n ⟨w, .execAll first, []⟩ = ⟨w', .done .normal, []⟩) :
    ∃ k, ∀ rest, run k ⟨w, .execAll (first ++ rest), []⟩ = ⟨w', .execAll rest, []⟩ := by
  induction first generalizing w with
  | nil =>
    have hend := run_of_passed h rfl 1
    rw [run_of_halted (by rfl)] at hend
    cases hend
    exact ⟨0, fun rest => rfl⟩
  | cons s more ih =>
    obtain ⟨k, world, hhanded⟩ := run_statement (run_of_passed h rfl 1)
    have hmore := run_of_passed h rfl (1 + k)
    rw [run_add] at hmore
    change run n (run k ⟨w, .exec s, [.sequence more]⟩) = _ at hmore
    rw [hhanded] at hmore
    obtain ⟨k', hrest⟩ := ih hmore
    refine ⟨1 + (k + k'), fun rest => ?_⟩
    rw [run_add, run_add]
    change run k' (run k ⟨w, .exec s, [.sequence (more ++ rest)]⟩) = _
    rw [hhanded, hrest]

end LoxLang.Machine
