import Mathlib.Algebra.GroupWithZero.Nat
import LoxLang.Proofs.Syntax.Order

/-!
Lists that are too long. Every argument and every parameter after the 255th of its list is a fault of
its own, which is noted and stops nothing: `Tallies cause start total r` says of a reading `r` that the
faults of some cause that are noted in it raise a count from `start` to the `total` of the result, as
long as nothing else is noted, and that no such fault stops it. What a tree has too many is counted by
`Stmt.excess`. Where nothing else is wrong with a program, all of it is read, and the faults are as many
as the entries too many (`excess_noted`).
-/
namespace LoxLang
set_option autoImplicit false

/-! ## Entries too many -/

/-- The causes of faults that blame the length of a list. -/
def SyntaxCause.Excess (cause : SyntaxCause) : Prop :=
  cause = .tooManyArguments ∨ cause = .tooManyParameters

/-- The entries of a list after the 255th, if the cause is the one that they have. -/
def entriesBeyond (cause excess : SyntaxCause) (length : Nat) : Nat :=
  if cause = excess then length - maxArity else 0

section Trees
variable (cause : SyntaxCause)

mutual

/-- The entries too many in the lists of an expression. -/
def Expr.excess : Expr → Nat
  | .literal _ => 0
  | .unary _ operand => operand.excess
  | .binary left _ right => left.excess + right.excess
  | .logical left _ right => left.excess + right.excess
  | .grouping inner => inner.excess
  | .variable _ => 0
  | .assign _ value => value.excess
  | .call callee _ arguments =>
    callee.excess + (Expr.excessAll arguments +
      entriesBeyond cause .tooManyArguments arguments.length)
  | .get object _ => object.excess
  | .set object _ value => object.excess + value.excess
  | .thisObject _ => 0
  | .superMethod _ _ => 0

def Expr.excessAll : List Expr → Nat
  | [] => 0
  | e :: rest => e.excess + Expr.excessAll rest

end

def Expr.excessOption (e : Option Expr) : Nat :=
  e.elim 0 (Expr.excess cause)

mutual

/-- The entries too many in the lists of a statement. -/
def Stmt.excess : Stmt → Nat
  | .expression value => value.excess cause
  | .print _ value => value.excess cause
  | .variable _ initializer => Expr.excessOption cause initializer
  | .block body => Stmt.excessAll body
  | .conditional condition thenBranch none => condition.excess cause + thenBranch.excess
  | .conditional condition thenBranch (some elseBranch) =>
    condition.excess cause + (thenBranch.excess + elseBranch.excess)
  | .loop condition body => condition.excess cause + body.excess
  | .function declaration => declaration.excess
  | .returnWith _ value => Expr.excessOption cause value
  | .classDeclaration _ superclass methods =>
    Expr.excessOption cause superclass + FunctionDeclaration.excessAll methods

def Stmt.excessAll : List Stmt → Nat
  | [] => 0
  | s :: rest => s.excess + Stmt.excessAll rest

def FunctionDeclaration.excess : FunctionDeclaration → Nat
  | ⟨_, params, body⟩ => entriesBeyond cause .tooManyParameters params.length + Stmt.excessAll body

def FunctionDeclaration.excessAll : List FunctionDeclaration → Nat
  | [] => 0
  | d :: rest => d.excess + FunctionDeclaration.excessAll rest

end

def Stmt.excessOption (s : Option Stmt) : Nat :=
  s.elim 0 (Stmt.excess cause)

variable {cause}

theorem OperatorLevel.excess_node {level : OperatorLevel} (h : level ∈ OperatorLevel.all)
    (left : Expr) (operator : Token) (right : Expr) :
    (level.node left operator right).excess cause = left.excess cause + right.excess cause := by
  simp only [OperatorLevel.all, List.mem_cons, List.not_mem_nil, or_false] at h
  rcases h with rfl | rfl | rfl | rfl | rfl | rfl <;> rfl

theorem Expr.excessAll_eq_sum (es : List Expr) :
    Expr.excessAll cause es = (es.map (Expr.excess cause)).sum := by
  induction es with
  | nil => rfl
  | cons e rest ih => rw [Expr.excessAll, ih, List.map_cons, List.sum_cons]

/-- The parts of a `for` statement stand in the tree in another order than in the text. -/
theorem Stmt.excess_forLoop (initializer : Option Stmt) (condition increment : Option Expr)
    (body : Stmt) : (Stmt.forLoop initializer condition increment body).excess cause =
      Stmt.excessOption cause initializer + (Expr.excessOption cause condition +
        (Expr.excessOption cause increment + body.excess cause)) := by
  cases initializer <;> cases condition <;> cases increment <;>
    simp only [Stmt.forLoop, Stmt.excess, Stmt.excessAll, Stmt.excessOption, Expr.excessOption,
      Expr.excess, Option.elim, Option.getD] <;> omega

end Trees

namespace Reading

/-- While nothing but lists that are too long is noted, the faults of a cause raise a count to the
total of the result; such a fault does not stop the reading. -/
def Tallies {α : Type} (cause : SyntaxCause) (start : Nat) (total : α → Nat) (r : Reading α) :
    Prop :=
  ∀ c, match r c with
  | .ok a after => ∃ faults, after.noted = c.noted ++ faults ∧ ((∀ f ∈ faults, f.cause.Excess) →
      start + (faults.map SyntaxFault.cause).count cause = total a)
  | .error stop after => (∃ faults, after.noted = c.noted ++ faults) ∧
      ∀ f, stop = .fault f → ¬ f.cause.Excess

section Rules
variable {α β : Type} {cause : SyntaxCause} {start : Nat} {total size : α → Nat} {sum : β → Nat}
  {r : Reading α} {f : α → Reading β}

theorem Tallies.pure {a : α} (h : start = total a) : Tallies cause start total (Pure.pure a) :=
  fun _ => ⟨[], (List.append_nil _).symm, fun _ => h⟩

theorem Tallies.bind (h : Tallies cause start total r)
    (hf : ∀ a, Tallies cause (total a) sum (f a)) : Tallies cause start sum (r >>= f) := by
  intro c
  have hr := h c
  cases hread : r c with
  | error stop after =>
    rw [hread] at hr
    rw [bind_of_error hread]
    exact hr
  | ok a mid =>
    rw [hread] at hr
    obtain ⟨first, hfirst, htotal⟩ := hr
    have hmid := hf a mid
    rw [bind_of_ok hread]
    cases hnext : f a mid with
    | error stop after =>
      rw [hnext] at hmid
      obtain ⟨⟨second, hsecond⟩, hstop⟩ := hmid
      exact ⟨⟨first ++ second, by rw [hsecond, hfirst, List.append_assoc]⟩, hstop⟩
    | ok b after =>
      rw [hnext] at hmid
      obtain ⟨second, hsecond, hsum⟩ := hmid
      refine ⟨first ++ second, by rw [hsecond, hfirst, List.append_assoc], fun hexcess => ?_⟩
      obtain ⟨hexcess, hexcess'⟩ := List.forall_mem_append.mp hexcess
      rw [List.map_append, List.count_append, ← Nat.add_assoc, htotal hexcess]
      exact hsum hexcess'

/-- A reading counts on from wherever the count is. -/
theorem Tallies.onward (h : Tallies cause 0 size r) (start : Nat) :
    Tallies cause start (fun a => start + size a) r := by
  intro c
  have hr := h c
  split at hr
  · obtain ⟨faults, hnoted, htotal⟩ := hr
    refine ⟨faults, hnoted, fun hexcess => ?_⟩
    dsimp only
    rw [← htotal hexcess, Nat.zero_add]
  · exact hr

theorem Tallies.andThen (h : Tallies cause 0 size r)
    (hf : ∀ a, Tallies cause (start + size a) sum (f a)) : Tallies cause start sum (r >>= f) :=
  (h.onward start).bind hf

theorem Tallies.map (g : α → β) (h : Tallies cause 0 size r)
    (hsum : ∀ a, start + size a = sum (g a)) : Tallies cause start sum (g <$> r) :=
  h.andThen fun a => Tallies.pure (hsum a)

theorem Tallies.ite {r' : Reading α} {b : Prop} [Decidable b] (h : Tallies cause start total r)
    (h' : Tallies cause start total r') : Tallies cause start total (if b then r else r') := by
  split
  · exact h
  · exact h'

end Rules

/-! ## The steps of reading -/

section Steps
variable {α β : Type} {cause : SyntaxCause} {start : Nat} {total : α → Nat}

theorem tallies_tooDeep : Tallies cause start total tooDeep :=
  fun _ => ⟨⟨[], (List.append_nil _).symm⟩, nofun⟩

theorem tallies_failHere (what : String) :
    Tallies cause start total (failHere (.expected what)) := by
  refine fun c => ⟨⟨[], (List.append_nil _).symm⟩, ?_⟩
  rintro f ⟨⟩ (h | h) <;> cases h

theorem Looks.tallies {r : Reading α} (h : Looks r) : Tallies cause start (fun _ => start) r := by
  intro c
  obtain ⟨a, after, hr, -, -, hnoted⟩ := h.yields c
  rw [hr]
  exact ⟨[], hnoted.trans (List.append_nil _).symm, fun _ => rfl⟩

theorem tallies_reference (name : Token) :
    Tallies cause start (fun _ => start) (reference name) :=
  fun _ => ⟨[], (List.append_nil _).symm, fun _ => rfl⟩

/-- Whether a token is taken or not, nothing is counted for it. -/
theorem tallies_takeIf {test : Token → Bool} {f : Option Token → Reading α}
    (hsome : ∀ t, Tallies cause start total (f (some t)))
    (hnone : Tallies cause start total (f none)) :
    Tallies cause start total (takeIf test >>= f) := by
  refine (Looks.takeIf test).tallies.bind fun found => ?_
  cases found with
  | none => exact hnone
  | some t => exact hsome t

theorem tallies_accept (test : Token → Bool) :
    Tallies cause start (fun _ => start) (accept test) :=
  tallies_takeIf (fun _ => Tallies.pure rfl) (Tallies.pure rfl)

theorem tallies_expect (test : Token → Bool) (what : String) :
    Tallies cause start (fun _ => start) (expect test what) :=
  tallies_takeIf (fun _ => Tallies.pure rfl) (tallies_failHere _)

theorem tallies_symbol (s : Symbol) (what : String) :
    Tallies cause start (fun _ => start) (discard (expectSymbol s what)) :=
  (tallies_expect (·.isSymbol s) what).bind fun _ => Tallies.pure rfl

/-- The symbol at the end of a rule. -/
theorem tallies_closing (s : Symbol) (what : String) {a : α} (h : start = total a) :
    Tallies cause start total (do
      discard (expectSymbol s what)
      return a) :=
  (tallies_symbol s what).bind fun _ => Tallies.pure h

/-- One fault more is noted. -/
theorem tallies_note (excess : SyntaxCause) (token : Token) :
    Tallies cause start (fun _ => start + if cause = excess then 1 else 0) (note excess token) := by
  refine fun c => ⟨[⟨excess, token⟩], rfl, fun _ => ?_⟩
  rw [List.map_singleton, List.count_singleton]
  simp only [beq_iff_eq, @eq_comm _ cause]

/-- A fault of another kind leaves nothing to be said. -/
theorem tallies_blame (token : Token) (total : Unit → Nat) :
    Tallies cause start total (note .invalidAssignmentTarget token) := by
  refine fun c => ⟨[⟨.invalidAssignmentTarget, token⟩], rfl, fun hexcess => ?_⟩
  rcases List.forall_mem_singleton.mp hexcess with h | h <;> cases h

end Steps

/-! ## Lists between parentheses -/

section Items
variable {α : Type} {cause : SyntaxCause} {item : Reading α} {size : α → Nat}

theorem entriesBeyond_succ (cause excess : SyntaxCause) {length : Nat} (h : maxArity ≤ length) :
    entriesBeyond cause excess (length + 1) =
      entriesBeyond cause excess length + if cause = excess then 1 else 0 := by
  unfold entriesBeyond
  split <;> omega

theorem entriesBeyond_of_le (cause excess : SyntaxCause) {length : Nat} (h : length ≤ maxArity) :
    entriesBeyond cause excess length = 0 := by
  rw [entriesBeyond, Nat.sub_eq_zero_of_le h, ite_self]

/-- Where the faults of `count` earlier entries have been counted, those of the others are added. -/
theorem commaList_tallies (excess : SyntaxCause) (hitem : Tallies cause 0 size item)
    (fuel start count : Nat) :
    Tallies cause (start + entriesBeyond cause excess count)
      (fun as => start + ((as.map size).sum + entriesBeyond cause excess (count + as.length)))
      (commaList excess item fuel count) := by
  induction fuel generalizing start count with
  | zero => exact tallies_tooDeep
  | succ fuel ih =>
    have hitems : Tallies cause (start + entriesBeyond cause excess (count + 1))
        (fun as => start + ((as.map size).sum + entriesBeyond cause excess (count + as.length))) (do
        let first ← item
        if ← accept (·.isSymbol .comma) then
          return first :: (← commaList excess item fuel (count + 1))
        else
          return [first]) := by
      refine hitem.andThen fun first => (tallies_accept _).bind fun more => Tallies.ite ?_ ?_
      · have hrest := ih (start + size first) (count + 1)
        rw [Nat.add_right_comm] at hrest
        refine hrest.bind fun rest => Tallies.pure ?_
        have hcount : count + 1 + rest.length = count + (rest.length + 1) := by omega
        rw [List.map_cons, List.sum_cons, List.length_cons, hcount]
        omega
      · refine Tallies.pure ?_
        rw [List.map_singleton, List.sum_singleton, List.length_singleton]
        omega
    rw [commaList]
    split
    · rename_i hlong
      rw [entriesBeyond_succ cause excess hlong, ← Nat.add_assoc] at hitems
      exact Looks.peek.tallies.bind fun t => (tallies_note excess t).bind fun _ => hitems
    · rename_i hshort
      rw [entriesBeyond_of_le cause excess (by omega)] at hitems ⊢
      exact hitems

theorem parenthesized_tallies (excess : SyntaxCause) (hitem : Tallies cause 0 size item)
    (fuel start : Nat) (what : String) : Tallies cause start (fun read => start + ((read.1.map size).sum +
      entriesBeyond cause excess read.1.length)) (parenthesized excess item fuel what) := by
  have hclose : ∀ items : List α, Tallies cause
      (start + ((items.map size).sum + entriesBeyond cause excess items.length))
      (fun read => start + ((read.1.map size).sum + entriesBeyond cause excess read.1.length))
      (do return (items, ← expectSymbol .rightParen what)) := fun items =>
    (tallies_expect _ what).bind fun _ => Tallies.pure rfl
  have hnone : entriesBeyond cause excess 0 = 0 := entriesBeyond_of_le cause excess (Nat.zero_le _)
  refine (Looks.nextIs _).tallies.bind fun empty => Tallies.ite ?_ ?_
  · refine Tallies.bind (Tallies.pure ?_) hclose
    rw [List.length_nil, hnone]
    rfl
  · have hitems := commaList_tallies excess hitem fuel start 0
    rw [hnone] at hitems
    refine hitems.bind fun items => ?_
    rw [Nat.zero_add]
    exact hclose items

end Items

/-! ## Expressions -/

section Expressions
variable {cause : SyntaxCause} {r operand : Reading Expr}

theorem primary_tallies (hr : Tallies cause 0 (Expr.excess cause) r) :
    Tallies cause 0 (Expr.excess cause) (primary r) := by
  have hskip : ∀ {f : Unit → Reading Expr}, Tallies cause 0 (Expr.excess cause) (f ()) →
      Tallies cause 0 (Expr.excess cause) (skip >>= f) := fun hf =>
    Looks.skip.tallies.bind fun _ => hf
  refine Looks.peek.tallies.bind fun t => ?_
  split
  · exact hskip ((tallies_reference t).bind fun _ => Tallies.pure rfl)
  · exact hskip ((tallies_reference t).bind fun _ => Tallies.pure rfl)
  · refine hskip ((tallies_symbol _ _).bind fun _ => (tallies_expect _ _).bind fun method => ?_)
    exact (tallies_reference t).bind fun _ => Tallies.pure rfl
  · exact hskip (hr.bind fun inner => tallies_closing _ _ rfl)
  · split
    · exact hskip (Tallies.pure rfl)
    · exact tallies_failHere _

/-- The callee that has been read comes with its own count. -/
theorem callsFrom_tallies (hr : Tallies cause 0 (Expr.excess cause) r) (fuel : Nat)
    (callee : Expr) :
    Tallies cause (callee.excess cause) (Expr.excess cause) (callsFrom r fuel callee) := by
  induction fuel generalizing callee with
  | zero => exact tallies_tooDeep
  | succ fuel ih =>
    rw [callsFrom]
    refine (tallies_accept _).bind fun called => Tallies.ite ?_ ?_
    · refine (parenthesized_tallies _ hr fuel _ _).bind fun read => ?_
      rw [← Expr.excessAll_eq_sum]
      exact ih (.call callee read.2 read.1)
    · refine (tallies_accept _).bind fun dotted => Tallies.ite ?_ (Tallies.pure rfl)
      exact (tallies_expect _ _).bind fun name => ih (.get callee name)

theorem call_tallies (hr : Tallies cause 0 (Expr.excess cause) r) (fuel : Nat) :
    Tallies cause 0 (Expr.excess cause) (call r fuel) :=
  (primary_tallies hr).bind fun callee => callsFrom_tallies hr fuel callee

theorem unary_tallies (h : Tallies cause 0 (Expr.excess cause) operand) (fuel : Nat) :
    Tallies cause 0 (Expr.excess cause) (unary operand fuel) := by
  induction fuel with
  | zero => exact tallies_tooDeep
  | succ fuel ih =>
    rw [unary]
    exact tallies_takeIf (fun operator => Tallies.map _ ih fun e => Nat.zero_add _) h

theorem operatorsFrom_tallies {level : OperatorLevel} (hlevel : level ∈ OperatorLevel.all)
    (h : Tallies cause 0 (Expr.excess cause) operand) (fuel : Nat) (left : Expr) :
    Tallies cause (left.excess cause) (Expr.excess cause)
      (operatorsFrom level operand fuel left) := by
  induction fuel generalizing left with
  | zero => exact tallies_tooDeep
  | succ fuel ih =>
    rw [operatorsFrom]
    refine tallies_takeIf (fun operator => h.andThen fun right => ?_) (Tallies.pure rfl)
    rw [← OperatorLevel.excess_node hlevel left operator right]
    exact ih _

theorem joined_tallies (h : Tallies cause 0 (Expr.excess cause) operand) (fuel : Nat)
    {levels : List OperatorLevel} (hlevels : ∀ level ∈ levels, level ∈ OperatorLevel.all) :
    Tallies cause 0 (Expr.excess cause) (joined operand fuel levels) := by
  induction levels with
  | nil => exact h
  | cons level tighter ih =>
    obtain ⟨hlevel, htighter⟩ := List.forall_mem_cons.mp hlevels
    exact (ih htighter).bind fun left => operatorsFrom_tallies hlevel (ih htighter) fuel left

theorem assignment_tallies (hr : Tallies cause 0 (Expr.excess cause) r) (fuel : Nat) :
    Tallies cause 0 (Expr.excess cause) (assignment r fuel) := by
  have htarget : Tallies cause 0 (Expr.excess cause)
      (joined (unary (call r fuel) fuel) fuel OperatorLevel.all) :=
    joined_tallies (unary_tallies (call_tallies hr fuel) fuel) fuel fun _ h => h
  refine htarget.bind fun target => ?_
  have hblamed : ∀ equals, Tallies cause (target.excess cause) (Expr.excess cause) (do
      let _ ← r
      note .invalidAssignmentTarget equals
      return target) := fun equals =>
    hr.andThen fun _ => (tallies_blame equals fun _ => target.excess cause).bind fun _ =>
      Tallies.pure rfl
  cases target with
  | «variable» target =>
    refine tallies_takeIf (fun equals => hr.andThen fun value => ?_) (Tallies.pure rfl)
    exact (tallies_reference _).bind fun _ => Tallies.pure (Nat.zero_add _)
  | get object name =>
    exact tallies_takeIf (fun equals => hr.andThen fun value => Tallies.pure rfl) (Tallies.pure rfl)
  | _ => exact tallies_takeIf hblamed (Tallies.pure rfl)

theorem expression_tallies (fuel : Nat) :
    Tallies cause 0 (Expr.excess cause) (expression fuel) := by
  induction fuel with
  | zero => exact tallies_tooDeep
  | succ fuel ih => exact assignment_tallies ih fuel

end Expressions

/-! ## Statements -/

section Statements
variable {cause : SyntaxCause} {fuel : Nat} {declaration statement : Reading Stmt}

theorem optionalExpression_tallies (closing : Symbol) :
    Tallies cause 0 (Expr.excessOption cause) (optionalExpression fuel closing) :=
  (Looks.nextIs _).tallies.bind fun _ => Tallies.ite (Tallies.pure rfl)
    (Tallies.map some (expression_tallies fuel) fun _ => Nat.zero_add _)

theorem condition_tallies (before after : String) :
    Tallies cause 0 (Expr.excess cause) (condition fuel before after) :=
  (tallies_symbol _ _).bind fun _ => (expression_tallies fuel).bind fun _ => tallies_closing _ _ rfl

theorem expressionStatement_tallies :
    Tallies cause 0 (Stmt.excess cause) (expressionStatement fuel) :=
  (expression_tallies fuel).bind fun _ => tallies_closing _ _ rfl

theorem variableFrom_tallies : Tallies cause 0 (Stmt.excess cause) (variableFrom fuel) := by
  have hclose : ∀ (name : Token) (initializer : Option Expr), Tallies cause
      (Expr.excessOption cause initializer) (Stmt.excess cause) (do
        discard (expectSymbol .semicolon "';' after variable declaration")
        return .variable name initializer) := fun name initializer => tallies_closing _ _ rfl
  refine (tallies_expect _ _).bind fun name => (tallies_accept _).bind fun assigned =>
    Tallies.ite ?_ ?_
  · exact (Tallies.map some (expression_tallies fuel) fun _ => Nat.zero_add _).bind (hclose name)
  · exact Tallies.bind (Tallies.pure rfl) (hclose name)

/-- A fault that stops a declaration in a block is noted, and blames no length. -/
theorem attempt_tallies (h : Tallies cause 0 (Stmt.excess cause) declaration) :
    Tallies cause 0 (Stmt.excessOption cause) (attempt declaration) := by
  intro c
  have hr := h c
  unfold attempt
  cases hread : declaration c with
  | ok s after =>
    rw [hread] at hr
    exact hr
  | error stop after =>
    rw [hread] at hr
    obtain ⟨⟨faults, hnoted⟩, hstop⟩ := hr
    cases stop with
    | tooDeep => exact ⟨⟨faults, hnoted⟩, nofun⟩
    | fault f =>
      refine ⟨faults ++ [f], ?_, fun hexcess => ?_⟩
      · exact (congrArg (· ++ [f]) hnoted).trans (List.append_assoc _ _ _)
      · exact absurd (hexcess f (List.mem_append_right _ List.mem_cons_self)) (hstop f rfl)

theorem declarationsFrom_tallies (h : Tallies cause 0 (Stmt.excess cause) declaration)
    (fuel : Nat) : Tallies cause 0 (Stmt.excessAll cause) (declarationsFrom declaration fuel) := by
  induction fuel with
  | zero => exact tallies_tooDeep
  | succ fuel ih =>
    rw [declarationsFrom]
    refine Looks.atEnd.tallies.bind fun atEnd => (Looks.nextIs _).tallies.bind fun closes => ?_
    refine Tallies.ite (Tallies.pure rfl) ((attempt_tallies h).bind fun first => ?_)
    refine Tallies.map _ ih fun rest => ?_
    cases first with
    | none => exact Nat.zero_add _
    | some s => rfl

theorem block_tallies (h : Tallies cause 0 (Stmt.excess cause) declaration) (fuel : Nat) :
    Tallies cause 0 (Stmt.excessAll cause) (block declaration fuel) :=
  (declarationsFrom_tallies h fuel).bind fun _ => tallies_closing _ _ rfl

theorem function_tallies (h : Tallies cause 0 (Stmt.excess cause) declaration) (fuel : Nat)
    (kind : String) :
    Tallies cause 0 (FunctionDeclaration.excess cause) (function declaration fuel kind) := by
  have hname : Tallies cause 0 (fun _ : Token => 0) (expectName "parameter name") :=
    tallies_expect _ _
  refine (tallies_expect _ _).bind fun name => (tallies_symbol _ _).bind fun _ => ?_
  refine (parenthesized_tallies _ hname fuel 0 _).bind fun read => ?_
  refine (tallies_symbol _ _).bind fun _ => Tallies.map _ (block_tallies h fuel) fun body => ?_
  have hnames : (read.1.map fun _ => 0).sum = 0 := by
    rw [List.map_const', List.sum_replicate_nat, Nat.mul_zero]
  rw [hnames, Nat.zero_add, Nat.zero_add]
  rfl

theorem methodsFrom_tallies (h : Tallies cause 0 (Stmt.excess cause) declaration) (fuel : Nat) :
    Tallies cause 0 (FunctionDeclaration.excessAll cause) (methodsFrom declaration fuel) := by
  induction fuel with
  | zero => exact tallies_tooDeep
  | succ fuel ih =>
    rw [methodsFrom]
    refine Looks.atEnd.tallies.bind fun atEnd => (Looks.nextIs _).tallies.bind fun closes => ?_
    refine Tallies.ite (Tallies.pure rfl) ((function_tallies h fuel _).bind fun first => ?_)
    exact Tallies.map _ ih fun rest => rfl

theorem classFrom_tallies (h : Tallies cause 0 (Stmt.excess cause) declaration) (fuel : Nat) :
    Tallies cause 0 (Stmt.excess cause) (classFrom declaration fuel) := by
  have hbody : ∀ (name : Token) (superclass : Option Expr),
      Tallies cause (Expr.excessOption cause superclass) (Stmt.excess cause) (do
        discard (expectSymbol .leftBrace "'\x7b' before class body")
        let methods ← methodsFrom declaration fuel
        discard (expectSymbol .rightBrace "'\x7d' after class body")
        return Stmt.classDeclaration name superclass methods) := fun name superclass =>
    (tallies_symbol _ _).bind fun _ => (methodsFrom_tallies h fuel).andThen fun methods =>
      tallies_closing _ _ rfl
  refine (tallies_expect _ _).bind fun name => (tallies_accept _).bind fun inherits =>
    Tallies.ite ?_ (Tallies.bind (Tallies.pure rfl) (hbody name))
  refine (tallies_expect _ _).bind fun parent => ?_
  exact Tallies.bind ((tallies_reference parent).bind fun _ => Tallies.pure rfl) (hbody name)

theorem forInitializer_tallies :
    Tallies cause 0 (Stmt.excessOption cause) (forInitializer fuel) := by
  refine (tallies_accept _).bind fun empty => Tallies.ite (Tallies.pure rfl) ?_
  refine (tallies_accept _).bind fun declares => Tallies.ite ?_ ?_
  · exact Tallies.map some variableFrom_tallies fun _ => Nat.zero_add _
  · exact Tallies.map some expressionStatement_tallies fun _ => Nat.zero_add _

theorem forFrom_tallies (h : Tallies cause 0 (Stmt.excess cause) statement) :
    Tallies cause 0 (Stmt.excess cause) (forFrom statement fuel) := by
  refine (tallies_symbol _ _).bind fun _ => forInitializer_tallies.bind fun initializer => ?_
  refine (optionalExpression_tallies _).andThen fun test => (tallies_symbol _ _).bind fun _ => ?_
  refine (optionalExpression_tallies _).andThen fun increment => (tallies_symbol _ _).bind fun _ => ?_
  refine Tallies.map _ h fun body => ?_
  rw [Stmt.excess_forLoop]
  omega

theorem ifFrom_tallies (h : Tallies cause 0 (Stmt.excess cause) statement) :
    Tallies cause 0 (Stmt.excess cause) (ifFrom statement fuel) := by
  refine (condition_tallies _ _).bind fun test => h.andThen fun thenBranch => ?_
  have hclose : ∀ elseBranch, Tallies cause
      ((Stmt.conditional test thenBranch elseBranch).excess cause) (Stmt.excess cause)
      (Pure.pure (.conditional test thenBranch elseBranch)) := fun _ => Tallies.pure rfl
  refine (tallies_accept _).bind fun other => Tallies.ite ?_ ?_
  · exact (Tallies.map some h fun s => Nat.add_assoc _ _ _).bind hclose
  · exact Tallies.bind (Tallies.pure rfl) hclose

theorem whileFrom_tallies (h : Tallies cause 0 (Stmt.excess cause) statement) :
    Tallies cause 0 (Stmt.excess cause) (whileFrom statement fuel) :=
  (condition_tallies _ _).bind fun _ => Tallies.map _ h fun _ => rfl

theorem printFrom_tallies (keyword : Token) :
    Tallies cause 0 (Stmt.excess cause) (printFrom keyword fuel) :=
  (expression_tallies fuel).bind fun _ => tallies_closing _ _ rfl

theorem returnFrom_tallies (keyword : Token) :
    Tallies cause 0 (Stmt.excess cause) (returnFrom keyword fuel) :=
  (optionalExpression_tallies _).bind fun _ => tallies_closing _ _ rfl

theorem statementForm_tallies (hd : Tallies cause 0 (Stmt.excess cause) declaration)
    (hs : Tallies cause 0 (Stmt.excess cause) statement) (fuel : Nat) :
    Tallies cause 0 (Stmt.excess cause) (statementForm declaration statement fuel) := by
  refine (tallies_accept _).bind fun _ => Tallies.ite (forFrom_tallies hs) ?_
  refine (tallies_accept _).bind fun _ => Tallies.ite (ifFrom_tallies hs) ?_
  refine (tallies_accept _).bind fun _ => Tallies.ite (whileFrom_tallies hs) ?_
  refine tallies_takeIf returnFrom_tallies ?_
  refine (tallies_accept _).bind fun _ => Tallies.ite ?_ ?_
  · exact Tallies.map _ (block_tallies hd fuel) fun _ => Nat.zero_add _
  · exact tallies_takeIf printFrom_tallies expressionStatement_tallies

theorem declarationForm_tallies (hd : Tallies cause 0 (Stmt.excess cause) declaration)
    (hs : Tallies cause 0 (Stmt.excess cause) statement) (fuel : Nat) :
    Tallies cause 0 (Stmt.excess cause) (declarationForm declaration statement fuel) := by
  refine (tallies_accept _).bind fun _ => Tallies.ite (classFrom_tallies hd fuel) ?_
  refine (tallies_accept _).bind fun _ => Tallies.ite ?_ ?_
  · exact Tallies.map _ (function_tallies hd fuel _) fun _ => Nat.zero_add _
  · exact (tallies_accept _).bind fun _ => Tallies.ite variableFrom_tallies
      (statementForm_tallies hd hs fuel)

theorem recovering_tallies (h : Tallies cause 0 (Stmt.excess cause) declaration) :
    Tallies cause 0 (Stmt.excess cause) (recovering declaration) := by
  intro c
  have hr := h c
  unfold recovering
  cases hread : declaration c with
  | ok s after =>
    rw [hread] at hr
    exact hr
  | error stop after =>
    rw [hread] at hr
    cases stop <;> exact hr

end Statements

theorem statement_tallies (cause : SyntaxCause) (fuel : Nat) :
    Tallies cause 0 (Stmt.excess cause) (statement fuel) ∧
      Tallies cause 0 (Stmt.excess cause) (declaration fuel) := by
  induction fuel with
  | zero => exact ⟨tallies_tooDeep, tallies_tooDeep⟩
  | succ fuel ih =>
    exact ⟨statementForm_tallies ih.2 ih.1 fuel,
      recovering_tallies (declarationForm_tallies ih.2 ih.1 fuel)⟩

end Reading

/-! ## Programs -/

theorem Stop.not_excess (stop : Stop) (h : ∀ f, stop = .fault f → ¬ f.cause.Excess)
    (place : Cursor) : ¬ (stop.report place).cause.Excess := by
  cases stop with
  | fault f => exact h f rfl
  | tooDeep => rintro (h | h) <;> cases h

/-- If only lists that are too long are noted and reported where a declaration is read, there is a
declaration, and what is noted are as many faults as it has entries too many. -/
theorem readItem_tallies {c : Cursor} {depth : Nat} (hnoted : c.noted = [])
    (h : ∀ f ∈ (readItem depth c).2.noted ++ (readItem depth c).1.fault?.toList, f.cause.Excess) :
    ∃ s, (readItem depth c).1 = .ok s ∧ ∀ cause,
      ((readItem depth c).2.noted.map SyntaxFault.cause).count cause = s.excess cause := by
  have hr := fun cause => (Reading.statement_tallies cause depth).2 c
  unfold readItem at h ⊢
  cases hread : (Reading.declaration depth : Reading Stmt) c with
  | ok s after =>
    simp only [hread] at hr h
    refine ⟨s, rfl, fun cause => ?_⟩
    obtain ⟨faults, hfound, htotal⟩ := hr cause
    rw [hnoted, List.nil_append] at hfound
    subst hfound
    rw [← htotal fun f hf => h f (List.mem_append_left _ hf), Nat.zero_add]
  | error stop after =>
    simp only [hread] at hr h
    exact absurd (h _ (List.mem_append_right _ List.mem_cons_self))
      (stop.not_excess (hr .tooManyArguments).2 after)

/-- Declarations, each after the faults that were noted while it was read. -/
def itemsOf (readings : List (List SyntaxFault × Stmt)) : List ProgramItem :=
  readings.flatMap fun reading => reading.1.map Except.error ++ [.ok reading.2]

theorem programItemsFrom_tallies {depth fuel : Nat} {c : Cursor} (hnoted : c.noted = [])
    (h : ∀ f ∈ itemFaults (programItemsFrom depth fuel c).1, f.cause.Excess) :
    ∃ readings, (programItemsFrom depth fuel c).1 = itemsOf readings ∧
      ∀ reading ∈ readings, ∀ cause,
        (reading.1.map SyntaxFault.cause).count cause = reading.2.excess cause := by
  induction fuel generalizing c with
  | zero =>
    have hnone : ∀ f, Stop.tooDeep = .fault f → ¬ f.cause.Excess := by
      intro f hf
      cases hf
    exact absurd (h _ List.mem_cons_self) (Stop.not_excess .tooDeep hnone c)
  | succ fuel ih =>
    rw [programItemsFrom] at h ⊢
    split at h
    · rename_i hempty
      rw [if_pos hempty]
      exact ⟨[], rfl, List.forall_mem_nil _⟩
    · rename_i hmore
      rw [if_neg hmore]
      dsimp only at h ⊢
      rw [itemFaults_noted] at h
      obtain ⟨hfirst, hrest⟩ := List.forall_mem_append.mp h
      obtain ⟨s, hs, hcount⟩ := readItem_tallies hnoted hfirst
      obtain ⟨readings, hitems, hcounts⟩ := ih rfl hrest
      refine ⟨((readItem depth c).2.noted, s) :: readings, ?_, List.forall_mem_cons.mpr
        ⟨hcount, hcounts⟩⟩
      rw [hitems, hs]
      exact List.append_cons _ _ _

/-- If nothing is wrong with a program but the lengths of its lists, all that is read is declarations,
each after as many faults of a cause as it has entries too many. -/
theorem excess_noted (tokens : List Token) (nextId : Nat)
    (h : ∀ f ∈ itemFaults (programItems tokens nextId).1, f.cause.Excess) :
    ∃ readings, (programItems tokens nextId).1 = itemsOf readings ∧
      ∀ reading ∈ readings, ∀ cause,
        (reading.1.map SyntaxFault.cause).count cause = reading.2.excess cause :=
  programItemsFrom_tallies rfl h

/-- A call with 257 arguments. -/
theorem excess_noted_of_long_call :
    let name : Token := ⟨.identifier, "x", 1⟩
    let mark (symbol : Symbol) : Token := ⟨.symbol symbol, "", 1⟩
    let more := List.flatten (List.replicate 256 [mark .comma, name])
    let tokens := name :: mark .leftParen :: name :: (more ++ [mark .rightParen, mark .semicolon])
    let items := (programItems tokens 0).1
    (∀ f ∈ itemFaults items, f.cause.Excess) ∧ (itemFaults items).length = 2 ∧
      ∃ readings, items = itemsOf readings ∧ ∀ reading ∈ readings, ∀ cause,
        (reading.1.map SyntaxFault.cause).count cause = reading.2.excess cause := by
  intro name mark more tokens items
  have hcauses : (itemFaults items).map SyntaxFault.cause = List.replicate 2 .tooManyArguments := by
    decide +kernel
  have hexcess : ∀ f ∈ itemFaults items, f.cause.Excess := fun f hf =>
    Or.inl (List.eq_of_mem_replicate (hcauses ▸ List.mem_map_of_mem hf))
  refine ⟨hexcess, ?_, excess_noted tokens 0 hexcess⟩
  have hlength := congrArg List.length hcauses
  rwa [List.length_map, List.length_replicate] at hlength

end LoxLang
