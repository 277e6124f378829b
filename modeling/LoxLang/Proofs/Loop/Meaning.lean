import LoxLang.Proofs.Grammar.Completeness
import LoxLang.Proofs.Grammar.Soundness
import LoxLang.Proofs.Loop.Simulation

/-!
A `for` statement means what its clauses say. Wherever the tree that the parser builds for one is
executed in a session, it comes to every state of the reference loop, and it is done exactly if the
reference loop is over, with the same result in the same world (`forLoop_meaning`). Worlds are the same up
to scopes that the tree opens for its blocks and the reference loop does not.
-/
namespace LoxLang
set_option autoImplicit false

namespace ForLoop

/-- What a machine comes to that executes the tree, beside the reference loop after some steps. The scopes
that there were before are their own images. -/
inductive Agrees (m : Machine) (steps : Nat) : State → Prop
  | running {part : Part} {r : Machine} {k : Nat} {I : Images} : steps ≤ k →
    m.Busy m.frames (k + 1) → Images.same m.world.store.scopes.size <+: I →
    (m.run k).world.Imaged I r.world → Agrees m steps (.running part r)
  | ended {w : World} {result : Except RuntimeFault Completion} {k : Nat} {I : Images} :
    m.FinishesAt m.frames k → Images.same m.world.store.scopes.size <+: I →
    (m.run k).world.Imaged I w → (m.run k).control.Imaged I (handed result) →
    Agrees m steps (.ended w result)

section Meaning
variable {l : ForLoop} {m : Machine}

theorem Reached.agrees {k steps : Nat} {state : State} (h : l.Reached m.world k state)
    (hexec : m.control = .exec l.tree) (hle : state.isOver = false → steps ≤ k) :
    Agrees m steps state := by
  obtain ⟨w, c, base⟩ := m
  obtain rfl : c = .exec l.tree := hexec
  cases h with
  | running hmeets =>
    obtain ⟨hactive, hrun⟩ := hmeets.run_lift base
    refine .running (hle rfl) ?_ hmeets.same ?_
    · exact .of_active (m := ⟨w, .exec l.tree, []⟩) fun j hj => hactive j (Nat.le_of_lt_succ hj)
    · rw [hrun]
      exact hmeets.imaged.world
  | @ended v w' c result I hrun hw hc hsame =>
    have hhalted : (Machine.run k ⟨w, .exec l.tree, []⟩).halted = true := by
      rw [hrun]
      cases result with
      | ok completion => cases completion <;> cases hc <;> rfl
      | error f =>
        cases hc
        rfl
    obtain ⟨n, hfinish, hlast⟩ := Machine.finishesAt_of_halted base hhalted
    rw [hrun] at hlast
    change Machine.run n ⟨w, .exec l.tree, base⟩ = ⟨v, c, base⟩ at hlast
    refine .ended (k := n) hfinish hsame ?_ ?_
    · rw [hlast]
      exact hw
    · rw [hlast]
      exact hc

/-- The machine and the reference loop come to their ends together. -/
theorem finishes_iff {w : World}
    (h : ∀ n, Agrees m n (l.after w n)) :
    (∃ k, m.FinishesAt m.frames k) ↔ ∃ n, (l.after w n).isOver = true := by
  constructor
  · rintro ⟨k, hfinish⟩
    refine ⟨k, ?_⟩
    have hagrees := h k
    generalize l.after w k = state at hagrees
    cases hagrees with
    | running hle hbusy => exact absurd hfinish.1 (hbusy k (Nat.lt_succ_of_le hle))
    | ended => rfl
  · rintro ⟨n, hover⟩
    have hagrees := h n
    generalize l.after w n = state at hagrees hover
    cases hagrees with
    | running => cases hover
    | ended hfinish => exact ⟨_, hfinish⟩

end Meaning

theorem body_quiet {l : ForLoop} {admits : Token → Prop} (h : l.tree.WellFormed admits)
    (hbody : l.body.isDeclaration = false) : l.body.Quiet := by
  have hwell : l.body.WellFormed admits := by
    obtain ⟨initializer, condition, increment, body⟩ := l
    cases initializer <;> cases increment <;>
      simp_all [tree, Stmt.forLoop, Stmt.WellFormed, Stmt.AllWellFormed]
  exact l.body.quiet_of_wellFormed hwell hbody

/-- The tree declares nothing in the scope in which it stands. -/
theorem tree_quiet {l : ForLoop} (h : l.body.Quiet) : l.tree.Quiet := by
  obtain ⟨initializer, condition, increment, body⟩ := l
  cases initializer with
  | some s => trivial
  | none =>
    cases increment with
    | some e => trivial
    | none => exact h

end ForLoop

/-- A statement that is read without a fault, and that begins with `for`, is the tree of a loop whose
clauses and body stand in the text. -/
theorem forLoop_of_read {fuel : Nat} {c after : Cursor} {s : Stmt}
    (hread : (Reading.statement fuel : Reading Stmt) c = .ok s after) (hnoted : after.noted = c.noted)
    (hword : c.peek.kind = .keyword .forWord) :
    ∃ (dangling : Bool) (w : List Token) (l : ForLoop), c.rest = c.peek :: w ++ after.rest ∧
      l.Text dangling c.nextId w after.nextId ∧ s = l.tree := by
  have htakes := (Reading.statement_takes fuel).1 c.nextId c.rest c rfl rfl
  rw [hread] at htakes
  obtain ⟨w, hrest, dangling, htext, -⟩ := htakes.2 hnoted
  obtain ⟨word, w, rfl, -⟩ := htext.head
  have hpeek : c.peek = word := by
    unfold Cursor.peek
    rw [hrest]
    rfl
  rw [hpeek] at hword ⊢
  obtain ⟨l, hl, hs⟩ := htext.forLoop_of_head hword
  exact ⟨dangling, w, l, hrest, hl, hs⟩

/-- A `for` statement means what its clauses say. What is read where a `for` stands is the tree of a loop
with the clauses and the body that follow; all parts see the variable of the loop, and a round takes place
in the scopes of the condition. Wherever a session comes to execute the tree, it comes to the same as the
reference loop: the worlds agree after every step of that loop, both come to an end or neither, and in the
end the result is the same. And the tree leaves the scopes around it active, with the names that they had
before. -/
theorem forLoop_meaning {fuel : Nat} {c after : Cursor} {s : Stmt}
    (hread : (Reading.statement fuel : Reading Stmt) c = .ok s after) (hnoted : after.noted = c.noted)
    (hword : c.peek.kind = .keyword .forWord) :
    ∃ (dangling : Bool) (w : List Token) (l : ForLoop), c.rest = c.peek :: w ++ after.rest ∧
      l.Text dangling c.nextId w after.nextId ∧ s = l.tree ∧ (∀ Γ, l.Sees Γ) ∧
      (∀ (world : World) (distance : Nat),
        (l.round world).world.chain[distance + l.increment.toList.length]? = world.chain[distance]?) ∧
      ∀ (nextId : Nat) (m : Machine) (h : History), Lived Token.Scanned nextId m h →
        m.control = .exec s →
        (∀ n, ForLoop.Agrees m n (l.after m.world n)) ∧
        ((∃ k, m.FinishesAt m.frames k) ↔ ∃ n, (l.after m.world n).isOver = true) ∧
        ∀ k, m.FinishesAt m.frames k → (m.run k).world.chain = m.world.chain ∧
          m.world.store.SameNames (m.run k).world.store := by
  obtain ⟨dangling, w, l, hrest, htext, rfl⟩ := forLoop_of_read hread hnoted hword
  refine ⟨dangling, w, l, hrest, htext, rfl, l.sees htext.body_isDeclaration, l.chain_round, ?_⟩
  rintro nextId ⟨world, control, base⟩ h hl hexec
  obtain rfl : control = .exec l.tree := hexec
  obtain ⟨Γ, ⟨hwell, -⟩, -⟩ := hl.agrees.sound.placed
  have hquiet := ForLoop.body_quiet hwell htext.body_isDeclaration
  have hagrees : ∀ n, ForLoop.Agrees ⟨world, .exec l.tree, base⟩ n (l.after world n) := by
    intro n
    obtain ⟨k, hreached, hle⟩ := ForLoop.reached_after hl hquiet n
    exact hreached.agrees rfl hle
  refine ⟨hagrees, ForLoop.finishes_iff hagrees, fun k hfinish => ⟨?_, ?_⟩⟩
  · exact congrArg Prod.fst (Machine.FinishesAt.context (m := ⟨world, .exec l.tree, []⟩) hfinish)
  · have hspares : Machine.Spares world.store ⟨world, .exec l.tree, []⟩ :=
      .of_quiet (ForLoop.tree_quiet hquiet)
    exact hspares.sameNames hfinish.2

/-- The text of a program that begins with `for` is read as a statement where that begins. -/
theorem exists_read_of_text {lo hi : Nat} {tokens : List Token} {program : List Stmt}
    (h : ListText DeclarationText lo tokens program hi)
    (hword : tokens.head?.any (·.isKeyword .forWord) = true) :
    ∃ s rest fuel c after, program = s :: rest ∧ (Reading.statement fuel : Reading Stmt) c = .ok s after ∧
      after.noted = c.noted ∧ c.peek.kind = .keyword .forWord := by
  cases h with
  | nil => cases hword
  | @cons _ mid _ u v s rest hdeclaration _ =>
    obtain ⟨word, w, rfl, -⟩ := hdeclaration.head
    have hkind : word.kind = .keyword .forWord := (Token.isKeyword_iff word .forWord).mp hword
    generalize hall : word :: w = all at hdeclaration
    cases hdeclaration with
    | statement hs =>
      subst hall
      have hread := hs.complete _ [] (Nat.le_refl _) (fun _ => nofun) 1 []
      rw [List.append_nil] at hread
      exact ⟨s, rest, (word :: w).length + 1, ⟨word :: w, 1, [], lo⟩, ⟨[], 1, [], mid⟩, rfl, hread, rfl,
        hkind⟩
    | «variable» hother =>
      cases hall
      cases hkind.symm.trans hother
    | function hother =>
      cases hall
      cases hkind.symm.trans hother
    | classDeclaration hother =>
      cases hall
      cases hkind.symm.trans hother

/-- A loop whose body is a block with a function that captures the variable of the loop. -/
theorem forLoop_meaning_of_captured :
    ∃ fuel c after s nextId m h n, (Reading.statement fuel : Reading Stmt) c = .ok s after ∧
      after.noted = c.noted ∧ c.peek.kind = .keyword .forWord ∧
      Lived Token.Scanned nextId m h ∧ m.control = .exec s ∧ m.FinishesAt m.frames n ∧
      (m.run n).world.sink.lines = #["true"] ∧ (m.run n).world.chain = m.world.chain ∧
      ∃ l : ForLoop, s = l.tree ∧ ∃ steps, (l.after m.world steps).isOver = true := by
  let source := "for (var go = true; go; go = false) \x7b fun show() \x7b print go; \x7d show(); \x7d"
  let tokens := (tokenize source.toUTF8.toList).1
  let loaded := (Session.fresh (.ofRoom none) (.standing 0)).loadTokens tokens
  let alone (program : List Stmt) : Machine :=
    { (loaded.1.world.program program).run 1 with frames := [] }
  have hrun : (loaded.2.any fun program => ((alone program).run 48).halted &&
      ((alone program).run 48).world.sink.lines == #["true"]) = true := by decide +kernel
  have hhead : (tokens.takeWhile (!·.isEnd)).head?.any (·.isKeyword .forWord) = true := by
    decide +kernel
  obtain ⟨program, hprogram, hruns⟩ := (Option.any_eq_true _ _).mp hrun
  obtain ⟨hhalted, hprinted⟩ := Bool.and_eq_true_iff.mp hruns
  have hload : loaded = (loaded.1, some program) := by rw [← hprogram]
  have hl : Lived Token.Scanned _ _ _ := Lived.of_load (fun t ht => ⟨_, ht⟩) hload 1
  obtain ⟨s, rest, fuel, c, after, rfl, hread, hnoted, hword⟩ :=
    exists_read_of_text (program_text (Session.loadTokens_some hload).1) hhead
  obtain ⟨n, hfinish, hlast⟩ := Machine.finishesAt_of_halted [.sequence rest] hhalted
  obtain ⟨-, -, l, -, -, hs, -, -, hmeans⟩ := forLoop_meaning hread hnoted hword
  obtain ⟨-, hiff, hkept⟩ := hmeans _ _ _ hl rfl
  refine ⟨fuel, c, after, s, _, _, _, n, hread, hnoted, hword, hl, rfl, hfinish, ?_,
    (hkept n hfinish).1, l, hs, hiff.mp ⟨n, hfinish⟩⟩
  exact (congrArg (·.world.sink.lines) hlast).trans (eq_of_beq hprinted)

end LoxLang
