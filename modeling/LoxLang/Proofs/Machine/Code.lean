import Mathlib
import LoxLang.Proofs.Grammar.Text
import LoxLang.Proofs.Machine.Graph
import LoxLang.Proofs.Syntax.Arity
import LoxLang.Proofs.Token.Spelling

/-!
The code that a machine holds. What is done next and what waits on the stack has been cut from the trees
that were read, so it is well formed like them (`Machine.Proper`); a step keeps that, since closures
hold statements of those trees too. So the operators that wait for operands are those of the grammar,
and where an operation tells them apart by naming all but one, the last is the one that is left
(`yielded_trees_suit`).
-/
namespace LoxLang
set_option autoImplicit false

/-! ## Code of controls and frames -/

/-- The expression to be evaluated is well formed. -/
def Control.Proper (admits : Token → Prop) : Control → Prop
  | .eval e => e.WellFormed admits
  | .exec _ | .execAll _ | .value _ | .done _ | .fault _ => True

/-- The operator or name that a frame is for and the expressions it still has to evaluate are as in a
well-formed tree. -/
def Frame.Proper (admits : Token → Prop) : Frame → Prop
  | .unary operator => operator.isSymbol .bang = true ∨ operator.isSymbol .minus = true
  | .binaryLeft operator right =>
    (∃ s ∈ Symbol.binary, operator.isSymbol s = true) ∧ right.WellFormed admits
  | .binaryRight operator _ => ∃ s ∈ Symbol.binary, operator.isSymbol s = true
  | .logical operator right =>
    (operator.isKeyword .orWord = true ∨ operator.isKeyword .andWord = true) ∧
      right.WellFormed admits
  | .assign target => target.name.IsName admits
  | .callee _ arguments => Expr.AllWellFormed admits arguments
  | .argument _ _ _ rest => Expr.AllWellFormed admits rest
  | .get name => name.IsName admits
  | .setObject name value => name.IsName admits ∧ value.WellFormed admits
  | .setValue _ name => name.IsName admits
  | .define name => name.IsName admits
  | .superclass name parent _ => name.IsName admits ∧ parent.IsName admits
  | _ => True

/-- All code that a machine holds is well formed: its statements, those of the functions among its
values, and the expressions and operators on the stack. -/
structure Machine.Proper (admits : Token → Prop) (m : Machine) : Prop where
  fits : ∃ L, m.Fits L (·.WellFormed admits)
  control : m.control.Proper admits
  frames : ∀ frame ∈ m.frames, frame.Proper admits

section Steps
variable {admits : Token → Prop}

/-! ## Steps -/

theorem Control.Defers.proper {L : Layout} {c c' : Control} {frame : Frame} (h : c.Defers c' frame)
    (hc : c.Proper admits) (hcode : L.HasControl (·.WellFormed admits) c) :
    c'.Proper admits ∧ frame.Proper admits := by
  -- A statement that is executed is well formed as a part of itself.
  have hself : ∀ s, c = .exec s → s.WellFormed admits := by
    rintro s rfl
    exact hcode s s.mem_parts_self
  cases h with
  | unary operator operand => exact ⟨hc.2, hc.1⟩
  | binary left operator right => exact ⟨hc.2.1, hc.1, hc.2.2⟩
  | logical left operator right => exact ⟨hc.2.1, hc.1, hc.2.2⟩
  | assign target value => exact ⟨hc.2, hc.1⟩
  | call callee paren arguments => exact hc
  | get object name => exact hc
  | set object name value => exact ⟨hc.1, hc.2⟩
  | expression value => exact ⟨hself _ rfl, trivial⟩
  | print keyword value => exact ⟨hself _ rfl, trivial⟩
  | «variable» name initializer =>
    have hvariable := hself _ rfl
    exact ⟨hvariable.2, hvariable.1⟩
  | conditional condition thenBranch elseBranch =>
    cases elseBranch with
    | none => exact ⟨(hself _ rfl).1, trivial⟩
    | some elseBranch => exact ⟨(hself _ rfl).1, trivial⟩
  | loop condition body => exact ⟨(hself _ rfl).1, trivial⟩
  | returnWith keyword value => exact ⟨hself _ rfl, trivial⟩
  | classDeclaration name parent methods =>
    obtain ⟨hname, hparent, -⟩ := hself _ rfl
    obtain ⟨target, rfl, htarget⟩ := hparent parent rfl
    exact ⟨htarget, hname, htarget⟩
  | sequence s rest => exact ⟨trivial, trivial⟩

theorem Control.Becomes.proper {c c' : Control} (h : c.Becomes c') (hc : c.Proper admits) :
    c'.Proper admits := by
  cases h with
  | grouping inner => exact hc
  | _ => trivial

theorem Frame.Passes.proper {L : Layout} {frame : Frame} {c c' : Control} {more : List Frame}
    (h : frame.Passes c c' more) (hframe : frame.Proper admits)
    (hcode : L.HasFrame (·.WellFormed admits) frame) :
    c'.Proper admits ∧ ∀ f ∈ more, f.Proper admits := by
  have hnone : ∀ f ∈ ([] : List Frame), f.Proper admits := List.forall_mem_nil _
  cases h with
  | binaryLeft operator right v => exact ⟨hframe.2, List.forall_mem_singleton.mpr hframe.1⟩
  | undecided => exact ⟨hframe.2, hnone⟩
  | callee paren e rest v => exact ⟨hframe.1, List.forall_mem_singleton.mpr hframe.2⟩
  | argument callee paren before e rest v =>
    exact ⟨hframe.1, List.forall_mem_singleton.mpr hframe.2⟩
  | setObject name value object => exact ⟨hframe.2, List.forall_mem_singleton.mpr hframe.1⟩
  | loopOn => exact ⟨trivial, List.forall_mem_singleton.mpr trivial⟩
  | loopAgain condition body =>
    have hloop := hcode _ (Stmt.mem_parts_self _)
    exact ⟨hloop.1, List.forall_mem_singleton.mpr trivial⟩
  | _ => exact ⟨trivial, hnone⟩

namespace Machine
variable {m m' : Machine}

theorem Move.proper (h : Move m m') (hm : m.Proper admits) :
    m'.control.Proper admits ∧ ∀ frame ∈ m'.frames, frame.Proper admits := by
  obtain ⟨⟨L, hfits⟩, hcontrol, hframes⟩ := hm
  cases h with
  | defers h =>
    obtain ⟨hnext, hframe⟩ := h.proper hcontrol hfits.control
    exact ⟨hnext, List.forall_mem_cons.mpr ⟨hframe, hframes⟩⟩
  | becomes h => exact ⟨h.proper hcontrol, hframes⟩
  | passes h =>
    obtain ⟨hframe, hrest⟩ := List.forall_mem_cons.mp hframes
    obtain ⟨hnext, hmore⟩ := h.proper hframe (hfits.frames _ List.mem_cons_self)
    exact ⟨hnext, List.forall_mem_append.mpr ⟨hmore, hrest⟩⟩
  | enters w body frames => exact ⟨trivial, List.forall_mem_cons.mpr ⟨trivial, hframes⟩⟩
  | calls h =>
    exact ⟨trivial, List.forall_mem_cons.mpr ⟨trivial, (List.forall_mem_cons.mp hframes).2⟩⟩
  | initializes h =>
    exact ⟨trivial, List.forall_mem_cons.mpr ⟨trivial, List.forall_mem_cons.mpr
      ⟨trivial, (List.forall_mem_cons.mp hframes).2⟩⟩⟩
  | returns h =>
    refine ⟨?_, (List.forall_mem_cons.mp hframes).2⟩
    cases h <;> trivial
  | _ => first
    | exact ⟨trivial, hframes⟩
    | exact ⟨trivial, (List.forall_mem_cons.mp hframes).2⟩

theorem Proper.step (hm : m.Proper admits) : m.step.Proper admits := by
  cases hhalted : m.halted with
  | true =>
    rw [step_of_halted hhalted]
    exact hm
  | false =>
    have hmove := move_step hhalted
    obtain ⟨L, hfits⟩ := hm.fits
    obtain ⟨L', -, hfits', -⟩ := move_fits hmove rfl hfits
    obtain ⟨hcontrol, hframes⟩ := hmove.proper hm
    exact ⟨⟨L', hfits'⟩, hcontrol, hframes⟩

theorem Proper.run (hm : m.Proper admits) (n : Nat) : (m.run n).Proper admits :=
  run_preserves (fun _ _ h => h.step) hm n

/-- In the world of a proper machine a parsed program is begun. -/
theorem Proper.begin (hm : m.Proper admits) {w : World} {c : Control}
    (hstore : w.store = m.world.store) (hchain : w.chain = m.world.chain)
    (hcode : ∀ L : Layout, L.HasControl (·.WellFormed admits) c) (hc : c.Proper admits) :
    Machine.Proper admits ⟨w, c, []⟩ := by
  obtain ⟨L, hfits⟩ := hm.fits
  refine ⟨⟨L, ?_, ?_, hcode L, List.forall_mem_nil _⟩, hc, List.forall_mem_nil _⟩
  · rw [hstore]
    exact hfits.holds
  · rw [hchain]
    exact hfits.chain

end Machine

end Steps

/-! ## What an interpreter can come to -/

namespace Machine

/-- An interpreter can come to a machine: from a fresh one it runs statements and evaluates expressions
that a parser yielded, next to faults or not, with any distances. -/
inductive Fed : Machine → Prop
  | fresh (sink : Sink) (clock : Clock) : Fed ⟨.fresh sink clock, .done .normal, []⟩
  | step {m : Machine} : Fed m → Fed m.step
  | program {m : Machine} (distances : Distances) {program : List Stmt} : Fed m →
    m.halted = true → (∀ s ∈ program, s.Parsed) →
    Fed ({ m.world with distances }.program program)
  | expression {m : Machine} (distances : Distances) {tokens : List Token} {nextId : Nat}
    {e : Expr} : Fed m → m.halted = true → (expressionOfTokens tokens nextId).1 = .ok e →
    Fed ⟨{ m.world with distances }, .eval e, []⟩

theorem Fed.run {m : Machine} (h : m.Fed) (n : Nat) : (m.run n).Fed :=
  run_preserves (fun _ _ h => h.step) h n

theorem Fed.proper {m : Machine} (h : m.Fed) : m.Proper fun _ => True := by
  induction h with
  | fresh sink clock => exact ⟨⟨_, fits_fresh _ sink clock⟩, trivial, List.forall_mem_nil _⟩
  | step h ih => exact ih.step
  | program distances h hhalted hparsed ih =>
    refine ih.begin rfl rfl (fun _ => Stmt.wellFormed_of_mem_partsAll _ ?_) trivial
    exact Stmt.allWellFormed_of_forall fun s hs => (hparsed s hs).wellFormed
  | expression distances h hhalted he ih =>
    exact ih.begin rfl rfl (fun _ => trivial) (expressionOfTokens_wellFormed (fun _ _ => trivial) he)

/-! ## The last of the operators -/

theorem length_le_of_passes {frame : Frame} {c c' : Control} {more : List Frame}
    (h : frame.Passes c c' more) : more.length ≤ 1 := by
  cases h <;> simp only [List.length_nil, List.length_singleton, Nat.zero_le, Nat.le_refl]

/-- Where a case is not named, it is the one that is left: negation of a truth value among the unary
operators, "at most" among the binary ones, `and` among the logical ones; and what has come to a
superclass was a variable. -/
structure Exhaustive (m : Machine) : Prop where
  unary : ∀ operator, .unary operator ∈ m.frames → operator.kind ≠ .symbol .minus →
    operator.kind = .symbol .bang
  binary : ∀ operator left, .binaryRight operator left ∈ m.frames →
    (∀ s ∈ [Symbol.equalEqual, .bangEqual, .plus, .minus, .star, .slash, .greater, .greaterEqual,
      .less], operator.kind ≠ .symbol s) → operator.kind = .symbol .lessEqual
  logical : ∀ operator right, .logical operator right ∈ m.frames →
    operator.kind ≠ .keyword .orWord → operator.kind = .keyword .andWord
  superclass : ∀ name parent methods, m.step.frames = .superclass name parent methods :: m.frames →
    ∃ target, m.step.control = .eval (.variable target) ∧ target.name = parent ∧
      parent.kind = .identifier

/-- Only a class declaration comes to a superclass. -/
theorem Move.superclass {m m' : Machine} (h : Move m m') {name parent : Token}
    {methods : List FunctionDeclaration}
    (hframes : m'.frames = .superclass name parent methods :: m.frames) :
    ∃ e, m.control = .exec (.classDeclaration name (some e) methods) ∧ m'.control = .eval e ∧
      parent = e.nameOr name := by
  -- Every other step puts another frame on the stack, or none.
  have hlength := congrArg List.length hframes
  cases h with
  | defers h =>
    obtain ⟨rfl, -⟩ := List.cons.inj hframes
    cases h
    exact ⟨_, rfl, rfl, rfl⟩
  | passes h =>
    have hmore := length_le_of_passes h
    simp only [List.length_append, List.length_cons] at hlength
    omega
  | enters w body frames => cases (List.cons.inj hframes).1
  | calls h => cases (List.cons.inj hframes).1
  | initializes h => cases (List.cons.inj hframes).1
  | function w declaration frames => exact absurd hframes List.ne_cons_self
  | root w name methods frames => exact absurd hframes List.ne_cons_self
  | inherits w name parent methods superclass frames =>
    change frames.length = frames.length + 1 + 1 at hlength
    omega
  | _ =>
    simp only [List.length_cons] at hlength
    omega

theorem Proper.exhaustive {admits : Token → Prop} {m : Machine} (hm : m.Proper admits) :
    m.Exhaustive := by
  refine ⟨fun operator hmem hnot => ?_, fun operator left hmem hnot => ?_,
    fun operator right hmem hnot => ?_, fun name parent methods hframes => ?_⟩
  · rcases hm.frames _ hmem with hbang | hminus
    · exact (Token.isSymbol_iff _ _).mp hbang
    · exact absurd ((Token.isSymbol_iff _ _).mp hminus) hnot
  · obtain ⟨s, hs, hkind⟩ := hm.frames _ hmem
    have hkind := (Token.isSymbol_iff _ _).mp hkind
    have hlast : ∀ s ∈ Symbol.binary, s ∉ [Symbol.equalEqual, .bangEqual, .plus, .minus, .star,
        .slash, .greater, .greaterEqual, .less] → s = .lessEqual := by decide
    rw [hkind, hlast s hs fun hnamed => hnot s hnamed hkind]
  · rcases (hm.frames _ hmem).1 with hor | hand
    · exact absurd ((Token.isKeyword_iff _ _).mp hor) hnot
    · exact (Token.isKeyword_iff _ _).mp hand
  · cases hhalted : m.halted with
    | true =>
      rw [step_of_halted hhalted] at hframes
      exact absurd hframes (List.ne_cons_self)
    | false =>
      obtain ⟨e, hclass, hcontrol, rfl⟩ := (move_step hhalted).superclass hframes
      obtain ⟨L, hfits⟩ := hm.fits
      have hcode := hfits.control
      rw [hclass] at hcode
      obtain ⟨target, rfl, htarget⟩ := (hcode _ (Stmt.mem_parts_self _)).2.1 e rfl
      exact ⟨target, hcontrol, rfl, TokenKind.same_identifier htarget.2⟩

end Machine

/-- Whatever is read of some tokens, next to faults or not, has the operators, names and branches that
the later passes take for granted, its names are among the tokens, and without faults no list in it is
too long. So whatever an interpreter is handed of it, in no state does a case that is not named stand for
more than the one that is left. -/
theorem yielded_trees_suit :
    (∀ (tokens : List Token) (nextId : Nat) (s : Stmt), .ok s ∈ (programItems tokens nextId).1 →
      s.WellFormed (· ∈ tokens) ∧
        (itemFaults (programItems tokens nextId).1 = [] → s.InArity)) ∧
      (∀ (tokens : List Token) (nextId : Nat) (e : Expr),
        (expressionOfTokens tokens nextId).1 = .ok e → e.WellFormed (· ∈ tokens)) ∧
      ∀ m : Machine, m.Fed → m.Exhaustive := by
  refine ⟨fun tokens nextId s hs => ⟨?_, fun hnone => inArity_of_faultless hnone hs⟩,
    fun tokens nextId e he => ?_, fun m hm => hm.proper.exhaustive⟩
  · exact programItems_wellFormed (fun _ ht => ht) hs
  · exact expressionOfTokens_wellFormed (fun _ ht => ht) he

/-- `!(nil <= nil) and nil;` before the comparison is made, and `class A < B {}` before the superclass is
looked up. -/
theorem yielded_trees_suit_of_comparison :
    let mark (symbol : Symbol) : Token := ⟨.symbol symbol, "", 1⟩
    let word (keyword : Keyword) : Token := ⟨.keyword keyword, keyword.spelling, 1⟩
    let name (text : String) : Token := ⟨.identifier, text, 1⟩
    let tokens := [mark .bang, mark .leftParen, word .nilWord, mark .lessEqual, word .nilWord,
      mark .rightParen, word .andWord, word .nilWord, mark .semicolon, word .classWord, name "A",
      mark .less, name "B", mark .leftBrace, mark .rightBrace]
    let comparison : Stmt := .expression (.logical (.unary (mark .bang) (.grouping (.binary
      (.literal .nil) (mark .lessEqual) (.literal .nil)))) (word .andWord) (.literal .nil))
    let heir : Stmt := .classDeclaration (name "A") (some (.variable ⟨0, name "B"⟩)) []
    let w := World.fresh (.ofRoom none) (.standing 0)
    let compared := (w.program [comparison]).run 8
    let declared := (w.program [heir]).run 1
    (programItems tokens 0).1 = [.ok comparison, .ok heir] ∧
      (comparison.WellFormed (· ∈ tokens) ∧ comparison.InArity) ∧
      compared.frames = [.binaryRight (mark .lessEqual) .nil, .unary (mark .bang),
        .logical (word .andWord) (.literal .nil), .discard, .sequence []] ∧
      compared.Exhaustive ∧
      declared.step.frames = .superclass (name "A") (name "B") [] :: declared.frames ∧
      declared.Exhaustive := by
  intro mark word name tokens comparison heir w compared declared
  have hitems : (programItems tokens 0).1 = [.ok comparison, .ok heir] := by cbv
  have hparsed : ∀ s, .ok s ∈ (programItems tokens 0).1 → ∀ t ∈ [s], t.Parsed :=
    fun s hs => List.forall_mem_singleton.mpr ⟨tokens, 0, s, hs, s.mem_parts_self⟩
  have hcomparison : .ok comparison ∈ (programItems tokens 0).1 := by
    rw [hitems]
    exact List.mem_cons_self
  have hheir : .ok heir ∈ (programItems tokens 0).1 := by
    rw [hitems]
    exact List.mem_cons_of_mem _ List.mem_cons_self
  have hfresh : Machine.Fed ⟨w, .done .normal, []⟩ := .fresh _ _
  have hcompared := (Machine.Fed.program .empty hfresh rfl (hparsed _ hcomparison)).run 8
  have hdeclared := (Machine.Fed.program .empty hfresh rfl (hparsed _ hheir)).run 1
  obtain ⟨hread, -, hexhaustive⟩ := yielded_trees_suit
  obtain ⟨hwell, harity⟩ := hread tokens 0 comparison hcomparison
  refine ⟨hitems, ⟨hwell, harity ?_⟩, rfl, hexhaustive _ hcompared, rfl, hexhaustive _ hdeclared⟩
  rw [hitems]
  rfl

end LoxLang
