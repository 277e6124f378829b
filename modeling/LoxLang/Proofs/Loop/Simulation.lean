import LoxLang.Proofs.Loop.Reference
import LoxLang.Proofs.Machine.Bodies
import LoxLang.Proofs.Vacant.Touched

/-!
How the tree of a `for` statement is executed. While a part of the reference loop runs, the machine that
executes the tree runs the same part above the frames of the blocks and of the `while` loop
(`ForLoop.Below`), in a world of which the world of the reference loop is the image; the scopes of the
blocks around the body and the increment are vacant. A step of the one is a step of the other, and when
the part has come to its end a few steps lead to where the next part begins (`Meets.ends`), so the tree
reaches every state of the reference loop (`reached_after`).
-/
namespace LoxLang
set_option autoImplicit false

namespace ForLoop

/-! ## Where the parts stand in the tree -/

/-- Whether a part is a statement; the others are expressions. -/
def Part.isStatement : Part → Bool
  | .initializer => true
  | .body => true
  | _ => false

/-- The body of the `while` loop in the tree. -/
def roundTree (l : ForLoop) : Stmt :=
  match l.increment with
  | some e => .block [l.body, .expression e]
  | none => l.body

/-- The frames below the `while` loop; `outer` is active around the statement. -/
def rest (l : ForLoop) (outer : Chain) : List Frame :=
  match l.initializer with
  | some _ => [.sequence [], .block outer]
  | none => []

/-- The frames below a part of the loop, and the chain in which it runs. -/
inductive Below (l : ForLoop) (outer : Chain) : Part → Chain → List Frame → Prop
  | initializer {s : Stmt} (chain : Chain) : l.initializer = some s →
    Below l outer .initializer chain [.sequence [l.core], .block outer]
  | test (chain : Chain) : Below l outer .test chain (.loopTest l.test l.roundTree :: l.rest outer)
  | body (chain : Chain) : l.increment = none →
    Below l outer .body chain (.loopBody l.test l.roundTree :: l.rest outer)
  | bodyInBlock {e : Expr} (id : ScopeId) (inner : Chain) : l.increment = some e →
    Below l outer .body (id :: inner) (.sequence [.expression e] :: .block inner ::
      .loopBody l.test l.roundTree :: l.rest outer)
  | increment {e : Expr} (id : ScopeId) (inner : Chain) : l.increment = some e →
    Below l outer .increment (id :: inner) (.discard :: .sequence [] :: .block inner ::
      .loopBody l.test l.roundTree :: l.rest outer)

section Below
variable {l : ForLoop} {outer chain : Chain} {part : Part} {below : List Frame}

theorem Below.ne_nil (h : l.Below outer part chain below) : below ≠ [] := by
  cases h <;> exact List.cons_ne_nil _ _

/-- None of the parts is the initializer of a variable. -/
theorem Below.not_awaits (h : l.Below outer part chain below) (base : List Frame) (S : Setting)
    (Γ : Enclosure) (x : String) (stack : Suspended) :
    ¬ S.Awaits (.value Γ (some x)) (below ++ base) stack := by
  intro hwait
  generalize hawaited : Awaited.value Γ (some x) = awaited at hwait
  cases h <;> cases hwait <;> cases hawaited

theorem not_call_of_mem_rest (l : ForLoop) (outer : Chain) :
    ∀ frame ∈ l.rest outer, frame.isCall = false := by
  unfold rest
  split <;> simp [Frame.isCall]

theorem handsOn_of_mem_rest (l : ForLoop) (outer : Chain) :
    ∀ frame ∈ l.rest outer, frame.HandsOn := by
  unfold rest
  split
  · exact List.forall_mem_cons.mpr ⟨.sequence _, List.forall_mem_singleton.mpr (.block _)⟩
  · exact List.forall_mem_nil _

theorem Below.not_call (h : l.Below outer part chain below) :
    ∀ frame ∈ below, frame.isCall = false := by
  have hrest := l.not_call_of_mem_rest outer
  cases h <;> simp_all [Frame.isCall]

theorem Below.handsOn (h : l.Below outer part chain below) (hpart : part.isStatement = true) :
    ∀ frame ∈ below, frame.HandsOn := by
  have hrest := l.handsOn_of_mem_rest outer
  cases h with
  | initializer =>
    exact List.forall_mem_cons.mpr ⟨.sequence _, List.forall_mem_singleton.mpr (.block _)⟩
  | body => exact List.forall_mem_cons.mpr ⟨.loopBody _ _, hrest⟩
  | bodyInBlock =>
    exact List.forall_mem_cons.mpr ⟨.sequence _, List.forall_mem_cons.mpr ⟨.block _,
      List.forall_mem_cons.mpr ⟨.loopBody _ _, hrest⟩⟩⟩
  | test => cases hpart
  | increment => cases hpart

end Below

/-! ## The same part on both sides -/

/-- What the result of the loop is as a control. -/
def handed : Except RuntimeFault Completion → Control
  | .ok completion => .done completion
  | .error f => .fault f

/-- After `k` steps the tree, executed in `w`, has come to where a part of the loop runs. The part runs on
`m` above the frames of the tree, and on `r` in the reference loop. -/
structure Meets (l : ForLoop) (w : World) (k : Nat) (part : Part) (r : Machine) (I : Images)
    (chain : Chain) (below : List Frame) (m : Machine) : Prop where
  run : Machine.run k ⟨w, .exec l.tree, []⟩ = Machine.lift below m
  below : l.Below w.chain part chain below
  imaged : m.Imaged I r
  context : m.unwound.1 = chain
  sorted : m.Sorted part.isStatement
  same : Images.same w.store.scopes.size <+: I
  spares : ∀ id, I.Vacant id → ∃ s : Store, m.Spares s ∧ id < s.scopes.size

/-- The tree has come after `k` steps to a state of the reference loop. -/
inductive Reached (l : ForLoop) (w : World) (k : Nat) : State → Prop
  | running {part : Part} {r m : Machine} {I : Images} {chain : Chain} {below : List Frame} :
    l.Meets w k part r I chain below m → Reached l w k (.running part r)
  | ended {v w' : World} {c : Control} {result : Except RuntimeFault Completion} {I : Images} :
    Machine.run k ⟨w, .exec l.tree, []⟩ = ⟨v, c, []⟩ → v.Imaged I w' → c.Imaged I (handed result) →
    Images.same w.store.scopes.size <+: I → Reached l w k (.ended w' result)

section Parts
variable {l : ForLoop} {w v w' : World} {k : Nat} {part : Part} {r m : Machine} {I : Images}
  {chain : Chain} {below : List Frame}

/-- A step of a part. -/
theorem Meets.step (h : l.Meets w k part r I chain below m) (hactive : r.halted = false)
    (hkept : m.KeepsTo I) : ∃ I', l.Meets w (k + 1) part r.step I' chain below m.step := by
  have hactive : m.halted = false := h.imaged.halted.symm.trans hactive
  have hmove := Machine.move_step hactive
  obtain ⟨I', hle, himaged⟩ := Machine.step_imaged h.imaged hkept
  refine ⟨I', ?_, h.below, himaged, ?_, Machine.move_sorted hmove h.sorted, h.same.trans hle.le,
    fun id hvacant => ?_⟩
  · rw [Machine.run_succ_last, h.run, Machine.step_lift below m hactive]
  · rw [Machine.unwound_step, h.context]
  · obtain ⟨s, hs, hlt⟩ := h.spares id (hle.vacant hvacant)
    exact ⟨s, Machine.move_spares hmove hs, hlt⟩

/-- A part begins; unless nothing is vacant yet, it declares nothing in its own scope. -/
theorem Meets.of_run {c : Control}
    (hrun : Machine.run k ⟨w, .exec l.tree, []⟩ = ⟨v, c, below⟩)
    (hbelow : l.Below w.chain part v.chain below) (hw : v.Imaged I w') (hc : c.Imaged I c)
    (hgives : c.Gives part.isStatement) (hquiet : ∀ id, I.Vacant id → c.Quiet)
    (hsame : Images.same w.store.scopes.size <+: I) :
    l.Meets w k part ⟨w', c, []⟩ I v.chain below ⟨v, c, []⟩ := by
  refine ⟨hrun, hbelow, ⟨hw, hc, .nil⟩, rfl, ⟨_, hgives, rfl⟩, hsame, fun id hvacant => ?_⟩
  refine ⟨v.store, .of_quiet (hquiet id hvacant), ?_⟩
  rw [hw.store.size]
  exact Layout.lt_of_getElem? hvacant

/-- The condition comes next. -/
theorem reached_testing
    (hrun : Machine.run k ⟨w, .exec l.tree, []⟩ =
      ⟨v, .eval l.test, .loopTest l.test l.roundTree :: l.rest w.chain⟩)
    (hw : v.Imaged I w') (hsame : Images.same w.store.scopes.size <+: I) :
    l.Reached w k (l.testing w') :=
  .running (.of_run hrun (.test v.chain) hw (.eval _) rfl (fun _ _ => trivial) hsame)

/-- A round comes next. With an increment a vacant scope is opened for it. -/
theorem reached_round (hquiet : l.body.Quiet) (hchain : v.chain ≠ [])
    (hrun : Machine.run k ⟨w, .exec l.tree, []⟩ =
      ⟨v, .exec l.roundTree, .loopBody l.test l.roundTree :: l.rest w.chain⟩)
    (hw : v.Imaged I w') (hsame : Images.same w.store.scopes.size <+: I) :
    ∃ j, l.Reached w (k + j) (l.round w') := by
  unfold round
  cases hincrement : l.increment with
  | none =>
    have htree : l.roundTree = l.body := by rw [roundTree, hincrement]
    refine ⟨0, .running (.of_run (hrun.trans ?_) (.body v.chain hincrement) hw (.exec _) rfl
      (fun _ _ => hquiet) hsame)⟩
    rw [htree]
  | some e =>
    have htree : l.roundTree = .block [l.body, .expression e] := by rw [roundTree, hincrement]
    have hinside : (v.enterScope v.chain .empty).Imaged (I ++ [none])
        (w'.withChain (deeper w'.chain)) := by
      refine ⟨hw.store.newVacant, ?_, hw.depth, hw.distances, hw.sink, hw.clock⟩
      have hvacant : (I ++ [none]).Vacant v.store.scopes.size := hw.store.size ▸ I.vacant_concat
      have hlinks := hw.chain.mono (List.prefix_append I [none])
      revert hlinks hchain
      simp only [World.enterScope_eq, World.withChain_eq]
      generalize v.chain = chain
      generalize w'.chain = chain'
      intro hchain hlinks
      cases hlinks with
      | nil => exact absurd rfl hchain
      | cons hfirst hrest => exact List.Forall₂.cons (.inr hvacant) (.cons hfirst hrest)
    refine ⟨2, .running (.of_run (v := v.enterScope v.chain .empty) ?_
      (.bodyInBlock v.store.scopes.size v.chain hincrement) hinside (.exec _) rfl
      (fun _ _ => hquiet) (hsame.trans (List.prefix_append I [none])))⟩
    rw [Machine.run_add, hrun, htree]
    rfl

/-- When the tree has been executed, the chain is what it was. -/
theorem reached_over (hself : w.Imaged (.same w.store.scopes.size) w) {c : Control}
    {result : Except RuntimeFault Completion} {chain : Chain}
    (hrun : Machine.run k ⟨w, .exec l.tree, []⟩ = ⟨v.withChain chain, c, []⟩) (hw : v.Imaged I w')
    (hc : c.Imaged I (handed result)) (hsame : Images.same w.store.scopes.size <+: I) :
    l.Reached w k (.ended (w'.withChain w.chain) result) := by
  have hframes : (Machine.run k ⟨w, .exec l.tree, []⟩).frames = [] := congrArg Machine.frames hrun
  have hcontext := congrArg Prod.fst (Machine.context_run hframes)
  rw [hrun] at hcontext
  obtain rfl : chain = w.chain := hcontext
  exact .ended hrun (hw.withChain (hself.chain.mono hsame)) hc hsame

/-- After a test that fails the loop is over. -/
theorem reached_end (hself : w.Imaged (.same w.store.scopes.size) w)
    (hrun : Machine.run k ⟨w, .exec l.tree, []⟩ = ⟨v, .done .normal, l.rest w.chain⟩)
    (hw : v.Imaged I w') (hsame : Images.same w.store.scopes.size <+: I) :
    ∃ j, l.Reached w (k + j) (.ended (w'.withChain w.chain) (.ok .normal)) := by
  cases hinitializer : l.initializer with
  | none =>
    have hlast : Machine.run k ⟨w, .exec l.tree, []⟩ =
        ⟨v.withChain v.chain, .done .normal, []⟩ := by
      rw [hrun, rest, hinitializer]
      rfl
    exact ⟨0, reached_over hself hlast hw .normal hsame⟩
  | some s =>
    have hlast : Machine.run (k + 3) ⟨w, .exec l.tree, []⟩ =
        ⟨v.withChain w.chain, .done .normal, []⟩ := by
      rw [Machine.run_add, hrun, rest, hinitializer]
      rfl
    exact ⟨3, reached_over hself hlast hw .normal hsame⟩

end Parts

/-! ## From part to part -/

/-- What a part comes to if the loop goes on. -/
def Part.result (v : Value) : Part → Control
  | .initializer => .done .normal
  | .test => .value v
  | .body => .done .normal
  | .increment => .value v

theorem core_eq (l : ForLoop) : l.core = .loop l.test l.roundTree := by
  unfold core roundTree Stmt.forLoop test
  cases l.increment <;> rfl

section Passages
variable {l : ForLoop} {w : World} {k : Nat} {part : Part} {r m : Machine} {I : Images}
  {chain : Chain} {below : List Frame}

/-- A part that has come to a value, or to its normal completion, leads to the next part. -/
theorem proceeds (hself : w.Imaged (.same w.store.scopes.size) w) (hquiet : l.body.Quiet)
    {v w' : World} (hchain : v.chain ≠ []) (hbelow : l.Below w.chain part v.chain below)
    (hw : v.Imaged I w') {u u' : Value} (hu : u.Imaged I u')
    (hsame : Images.same w.store.scopes.size <+: I)
    (hrun : Machine.run k ⟨w, .exec l.tree, []⟩ = ⟨v, part.result u, below⟩) :
    ∃ j, 0 < j ∧ l.Reached w (k + j) (l.proceed w.chain w' u' part) := by
  obtain ⟨store, chain, depth, distances, sink, clock⟩ := v
  cases hbelow with
  | initializer chain hinitializer =>
    have hrest : l.rest w.chain = [.sequence [], .block w.chain] := by rw [rest, hinitializer]
    refine ⟨3, by omega, reached_testing ?_ hw hsame⟩
    rw [Machine.run_add, hrun, hrest, core_eq]
    rfl
  | test chain =>
    unfold proceed
    rw [hu.isTruthy]
    cases htrue : u.isTruthy with
    | true =>
      have hround : Machine.run (k + 1) ⟨w, .exec l.tree, []⟩ =
          ⟨⟨store, chain, depth, distances, sink, clock⟩, .exec l.roundTree,
            .loopBody l.test l.roundTree :: l.rest w.chain⟩ := by
        rw [Machine.run_succ_last, hrun]
        simp [Part.result, Machine.step, Machine.stepValue, htrue]
      obtain ⟨j, hj⟩ := reached_round hquiet hchain hround hw hsame
      exact ⟨1 + j, by omega, Nat.add_assoc k 1 j ▸ hj⟩
    | false =>
      have hend : Machine.run (k + 1) ⟨w, .exec l.tree, []⟩ =
          ⟨⟨store, chain, depth, distances, sink, clock⟩, .done .normal, l.rest w.chain⟩ := by
        rw [Machine.run_succ_last, hrun]
        simp [Part.result, Machine.step, Machine.stepValue, Machine.complete, htrue]
      obtain ⟨j, hj⟩ := reached_end hself hend hw hsame
      exact ⟨1 + j, by omega, Nat.add_assoc k 1 j ▸ hj⟩
  | body chain hincrement =>
    unfold proceed
    rw [hincrement]
    refine ⟨1, by omega, reached_testing ?_ hw hsame⟩
    rw [Machine.run_add, hrun]
    rfl
  | @bodyInBlock e id inner hincrement =>
    unfold proceed
    rw [hincrement]
    refine ⟨3, by omega, .running (.of_run ?_ (.increment id inner hincrement) hw (.eval e) rfl
      (fun _ _ => trivial) hsame)⟩
    rw [Machine.run_add, hrun]
    rfl
  | increment id inner hincrement =>
    have hinner : inner.Imaged I w'.chain.tail := by
      have hchain := hw.chain
      generalize w'.chain = chain' at hchain
      cases hchain with
      | cons _ hinner => exact hinner
    refine ⟨5, by omega, reached_testing ?_ (hw.withChain hinner) hsame⟩
    rw [Machine.run_add, hrun]
    rfl

/-- Where a part has come to its end, the loop goes on as the reference loop does. -/
theorem Meets.ends (h : l.Meets w k part r I chain below m)
    (hself : w.Imaged (.same w.store.scopes.size) w) (hquiet : l.body.Quiet)
    (hchain : m.world.chain ≠ []) {outcome : Outcome} (houtcome : r.outcome? = some outcome) :
    ∃ j, 0 < j ∧ l.Reached w (k + j) (l.next w.chain part r.world outcome) := by
  obtain ⟨hrun, hbelow, ⟨hw, hc, hf⟩, hcontext, ⟨given, hgives, hcarry⟩, hsame, -⟩ := h
  obtain ⟨v, c, frames⟩ := m
  obtain ⟨w', c', frames'⟩ := r
  have hlength : 0 < below.length := List.length_pos_of_ne_nil hbelow.ne_nil
  cases hf with
  | cons => cases c' <;> cases houtcome
  | nil =>
    obtain rfl : v.chain = chain := hcontext
    obtain rfl : given = part.isStatement := hcarry
    cases hc with
    | @value u u' hu =>
      cases houtcome
      refine proceeds hself hquiet hchain hbelow hw hu hsame (hrun.trans ?_)
      cases part <;> first | rfl | cases hgives
    | normal =>
      cases houtcome
      refine proceeds hself hquiet hchain hbelow hw (u := .nil) (.plain trivial) hsame
        (hrun.trans ?_)
      cases part <;> first | rfl | cases hgives
    | @returned u u' hu =>
      cases houtcome
      obtain ⟨last, hdown, -⟩ := Machine.run_handsOn (hbelow.handsOn hgives) v u []
      rw [List.append_nil] at hdown
      have hlast : Machine.run (k + below.length) ⟨w, .exec l.tree, []⟩ =
          ⟨v.withChain last, .done (.returned u), []⟩ := by
        rw [Machine.run_add, hrun]
        exact hdown
      exact ⟨below.length, hlength, reached_over hself hlast hw (.returned hu) hsame⟩
    | fault f =>
      cases houtcome
      obtain ⟨last, hdown⟩ := Machine.run_fault_down hbelow.not_call v f
      have hlast : Machine.run (k + below.length) ⟨w, .exec l.tree, []⟩ =
          ⟨v.withChain last, .fault f, []⟩ := by
        rw [Machine.run_add, hrun]
        exact hdown
      exact ⟨below.length, hlength, reached_over hself hlast hw (.fault f) hsame⟩
    | _ => cases houtcome

end Passages

/-! ## The whole loop -/

section Loops
variable {l : ForLoop} {nextId : Nat} {w : World} {base : List Frame} {h : History}

/-- The parts touch no vacant scope. -/
theorem Meets.keepsTo {k : Nat} {part : Part} {r m : Machine} {I : Images} {chain : Chain}
    {below : List Frame} (hmeets : l.Meets w k part r I chain below m)
    (hl : Lived Token.Scanned nextId (Machine.lift (below ++ base) m) h) : m.KeepsTo I :=
  hl.keepsTo hmeets.imaged (fun S Γ x stack => hmeets.below.not_awaits base S Γ x stack)
    hmeets.spares

/-- While a part runs, the tree with more frames below it comes to the same. -/
theorem Meets.run_lift {k : Nat} {part : Part} {r m : Machine} {I : Images} {chain : Chain}
    {below : List Frame} (hmeets : l.Meets w k part r I chain below m) (base : List Frame) :
    (∀ j ≤ k, (Machine.run j ⟨w, .exec l.tree, []⟩).halted = false) ∧
      Machine.run k ⟨w, .exec l.tree, base⟩ = Machine.lift (below ++ base) m := by
  have hactive : (Machine.run k ⟨w, .exec l.tree, []⟩).halted = false := by
    rw [hmeets.run, ← Bool.not_eq_true, Machine.halted_iff]
    intro hyields
    exact hmeets.below.ne_nil (List.append_eq_nil_iff.mp hyields.1).2
  have hbefore := Machine.active_before hactive
  refine ⟨hbefore, ?_⟩
  have hrun := Machine.run_lift base k ⟨w, .exec l.tree, []⟩ fun j hj => hbefore j (Nat.le_of_lt hj)
  rw [hmeets.run, Machine.lift_lift] at hrun
  exact hrun

theorem reached_start (hself : w.Imaged (.same w.store.scopes.size) w) :
    ∃ k, l.Reached w k (l.start w) := by
  unfold start
  cases hinitializer : l.initializer with
  | none =>
    have htree : l.tree = .loop l.test l.roundTree := by
      rw [tree, hinitializer]
      exact l.core_eq
    have hrest : l.rest w.chain = [] := by rw [rest, hinitializer]
    refine ⟨1, reached_testing ?_ hself List.prefix_rfl⟩
    rw [htree, hrest]
    rfl
  | some s =>
    have htree : l.tree = .block [s, l.core] := by
      rw [tree, hinitializer]
      rfl
    have hinside := hself.enterScope hself.chain Table.Agree.empty
    have hextends := Images.extends_concat (.same w.store.scopes.size) w.store.scopes.size
    refine ⟨2, .running (.of_run (v := w.enterScope w.chain .empty) ?_ (.initializer _ hinitializer)
      hinside (.exec s) rfl (fun id hvacant => ?_) hextends.le)⟩
    · rw [htree]
      rfl
    · exact absurd (hextends.vacant hvacant) (Images.not_vacant_same _ id)

/-- The tree comes to every state of the reference loop, and takes no fewer steps. -/
theorem reached_after (hl : Lived Token.Scanned nextId ⟨w, .exec l.tree, base⟩ h)
    (hquiet : l.body.Quiet) (n : Nat) :
    ∃ k, l.Reached w k (l.after w n) ∧ ((l.after w n).isOver = false → n ≤ k) := by
  have hself := hl.imaged_self
  induction n with
  | zero =>
    obtain ⟨k, hk⟩ := reached_start (l := l) hself
    exact ⟨k, hk, fun _ => Nat.zero_le k⟩
  | succ n ih =>
    obtain ⟨k, hk, hle⟩ := ih
    unfold after
    generalize l.after w n = state at hk hle
    cases hk with
    | ended hrun hw hc hsame => exact ⟨k, .ended hrun hw hc hsame, nofun⟩
    | @running part r m I chain below hmeets =>
      have hle := hle rfl
      have hlived := hl.run k
      rw [(hmeets.run_lift base).2] at hlived
      dsimp only [advance]
      cases houtcome : r.outcome? with
      | none =>
        obtain ⟨I', hnext⟩ := hmeets.step (Machine.outcome?_eq_none.mp houtcome)
          (hmeets.keepsTo hlived)
        exact ⟨k + 1, .running hnext, fun _ => by omega⟩
      | some outcome =>
        obtain ⟨j, hpos, hj⟩ := hmeets.ends hself hquiet hlived.chain_ne_nil houtcome
        exact ⟨k + j, hj, fun _ => by omega⟩

end Loops

end ForLoop

end LoxLang
