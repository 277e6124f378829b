import LoxLang.Proofs.Alike.Trees
import LoxLang.Syntax.Statement

/-!
Tokens that are taken for each other are read as trees that are taken for each other. `Alike L p r r'`
says of two readings that from like places they come to like places, with results that `p` relates or
with the same fault at related tokens; it holds of every rule of the grammar, so that faults do not
depend on lines or identities either (`programItems_alike`).
-/
namespace LoxLang
set_option autoImplicit false

/-- The same fault at related tokens. -/
structure SyntaxFault.Alike (L : Likeness) (f f' : SyntaxFault) : Prop where
  cause : f'.cause = f.cause
  token : L.token f.token f'.token

inductive Stop.Alike (L : Likeness) : Stop → Stop → Prop
  | fault {f f' : SyntaxFault} : f.Alike L f' → Alike L (.fault f) (.fault f')
  | tooDeep : Alike L .tooDeep .tooDeep

/-- Places at which related tokens are left, and from which all identities to come are paired in the
order in which they come. -/
structure Cursor.Alike (L : Likeness) (c c' : Cursor) : Prop where
  rest : List.Forall₂ L.token c.rest c'.rest
  stop : L.token (.endOn c.endLine) (.endOn c'.endLine)
  noted : List.Forall₂ (SyntaxFault.Alike L) c.noted c'.noted
  number : ∀ n, L.number (c.nextId + n) (c'.nextId + n)

namespace Likeness
variable {L : Likeness} {t u : Token}

theorem isSymbol (h : L.token t u) (s : Symbol) : u.isSymbol s = t.isSymbol s := by
  rw [Token.isSymbol, L.kind h, Token.isSymbol]

theorem isKeyword (h : L.token t u) (k : Keyword) : u.isKeyword k = t.isKeyword k := by
  rw [Token.isKeyword, L.kind h, Token.isKeyword]

theorem isEnd (h : L.token t u) : u.isEnd = t.isEnd := by
  rw [Token.isEnd, L.kind h, Token.isEnd]

theorem startsStatement (h : L.token t u) : u.startsStatement = t.startsStatement := by
  simp only [Token.startsStatement, List.any_cons, List.any_nil, L.isKeyword h]

end Likeness

theorem Cursor.Alike.peek {L : Likeness} {c c' : Cursor} (h : c.Alike L c') :
    L.token c.peek c'.peek := by
  unfold Cursor.peek
  have hrest := h.rest
  revert hrest
  generalize c.rest = rest
  generalize c'.rest = rest'
  intro hrest
  cases hrest with
  | nil => exact h.stop
  | cons ht _ => exact ht

namespace Reading

/-- Results that `p` relates, or like reasons to stop, at like places. -/
inductive ResultsAlike {α : Type} (L : Likeness) (p : α → α → Prop) :
    EStateM.Result Stop Cursor α → EStateM.Result Stop Cursor α → Prop
  | ok {a a' : α} {c c' : Cursor} : p a a' → c.Alike L c' → ResultsAlike L p (.ok a c) (.ok a' c')
  | error {stop stop' : Stop} {c c' : Cursor} : stop.Alike L stop' → c.Alike L c' →
    ResultsAlike L p (.error stop c) (.error stop' c')

def Alike {α : Type} (L : Likeness) (p : α → α → Prop) (r r' : Reading α) : Prop :=
  ∀ c c' : Cursor, c.Alike L c' → ResultsAlike L p (r c) (r' c')

section Rules
variable {α β : Type} {L : Likeness} {p : α → α → Prop} {q : β → β → Prop}

theorem Alike.pure {a a' : α} (h : p a a') : Alike L p (Pure.pure a) (Pure.pure a') :=
  fun _ _ hc => .ok h hc

theorem Alike.bind {r r' : Reading α} {f f' : α → Reading β} (h : Alike L p r r')
    (hf : ∀ a a', p a a' → Alike L q (f a) (f' a')) : Alike L q (r >>= f) (r' >>= f') := by
  intro c c' hc
  have hr := h c c' hc
  change ResultsAlike L q (EStateM.bind r f c) (EStateM.bind r' f' c')
  unfold EStateM.bind
  revert hr
  generalize r c = first
  generalize r' c' = first'
  intro hr
  cases hr with
  | ok ha hmid => exact hf _ _ ha _ _ hmid
  | error hstop hmid => exact .error hstop hmid

theorem Alike.map {r r' : Reading α} {f f' : α → β} (h : Alike L p r r')
    (hf : ∀ a a', p a a' → q (f a) (f' a')) : Alike L q (f <$> r) (f' <$> r') :=
  Alike.bind h fun a a' ha => Alike.pure (hf a a' ha)

theorem Alike.after {r r' : Reading α} {f f' : α → Reading β} (h : Alike L Eq r r')
    (hf : ∀ a, Alike L q (f a) (f' a)) : Alike L q (r >>= f) (r' >>= f') :=
  Alike.bind h fun a _ ha => ha ▸ hf a

theorem Alike.ite {r r' s s' : Reading α} {b : Prop} [Decidable b] (h : Alike L p r r')
    (h' : Alike L p s s') : Alike L p (if b then r else s) (if b then r' else s') := by
  split
  · exact h
  · exact h'

theorem Alike.some {r r' : Reading α} (h : Alike L p r r') :
    Alike L (Option.Rel p) (some <$> r) (some <$> r') :=
  Alike.map h fun _ _ => .some

end Rules

section Steps
variable {α : Type} {L : Likeness} {t u : Token}

theorem tooDeep_alike (p : α → α → Prop) : Alike L p tooDeep tooDeep :=
  fun _ _ hc => .error .tooDeep hc

theorem failHere_alike (p : α → α → Prop) (cause : SyntaxCause) :
    Alike L p (failHere cause) (failHere cause) :=
  fun _ _ hc => .error (.fault ⟨rfl, hc.peek⟩) hc

theorem peek_alike : Alike L L.token peek peek :=
  fun _ _ hc => .ok hc.peek hc

theorem atEnd_alike : Alike L Eq atEnd atEnd := by
  intro c c' hc
  refine .ok ?_ hc
  have hrest := hc.rest
  revert hrest
  generalize c.rest = rest
  generalize c'.rest = rest'
  intro hrest
  cases hrest <;> rfl

theorem note_alike (cause : SyntaxCause) (h : L.token t u) :
    Alike L Eq (note cause t) (note cause u) :=
  fun _ _ hc => .ok rfl
    ⟨hc.rest, hc.stop, List.rel_append hc.noted (.cons ⟨rfl, h⟩ .nil), hc.number⟩

theorem takeIf_alike {test : Token → Bool} (h : ∀ {t u}, L.token t u → test u = test t) :
    Alike L (Option.Rel L.token) (takeIf test) (takeIf test) := by
  intro c c' hc
  obtain ⟨hrest, hstop, hnoted, hnumber⟩ := hc
  obtain ⟨rest, endLine, noted, nextId⟩ := c
  obtain ⟨rest', endLine', noted', nextId'⟩ := c'
  unfold takeIf
  cases hrest with
  | nil => exact .ok .none ⟨.nil, hstop, hnoted, hnumber⟩
  | cons ht hrest =>
    dsimp only
    rw [h ht]
    split
    · exact .ok (.some ht) ⟨hrest, hstop, hnoted, hnumber⟩
    · exact .ok .none ⟨.cons ht hrest, hstop, hnoted, hnumber⟩

theorem nextIs_alike {test : Token → Bool} (h : ∀ {t u}, L.token t u → test u = test t) :
    Alike L Eq (nextIs test) (nextIs test) := by
  intro c c' hc
  refine .ok ?_ hc
  have hrest := hc.rest
  revert hrest
  generalize c.rest = rest
  generalize c'.rest = rest'
  intro hrest
  cases hrest with
  | nil => rfl
  | cons ht _ => exact (h ht).symm

theorem skip_alike : Alike L Eq skip skip := by
  intro c c' hc
  refine .ok rfl ⟨?_, hc.stop, hc.noted, hc.number⟩
  have hrest := hc.rest
  revert hrest
  generalize c.rest = rest
  generalize c'.rest = rest'
  intro hrest
  cases hrest with
  | nil => exact .nil
  | cons _ hrest => exact hrest

theorem accept_alike {test : Token → Bool} (h : ∀ {t u}, L.token t u → test u = test t) :
    Alike L Eq (accept test) (accept test) := by
  refine Alike.bind (takeIf_alike h) fun found found' hfound => Alike.pure ?_
  cases hfound <;> rfl

theorem expect_alike {test : Token → Bool} (h : ∀ {t u}, L.token t u → test u = test t)
    (what : String) : Alike L L.token (expect test what) (expect test what) := by
  refine Alike.bind (takeIf_alike h) fun found found' hfound => ?_
  cases hfound with
  | none => exact failHere_alike _ _
  | some ht => exact Alike.pure ht

theorem takeWord_alike (k : Keyword) :
    Alike L (Option.Rel L.token) (takeIf (·.isKeyword k)) (takeIf (·.isKeyword k)) :=
  takeIf_alike fun h => L.isKeyword h k

theorem acceptWord_alike (k : Keyword) :
    Alike L Eq (accept (·.isKeyword k)) (accept (·.isKeyword k)) :=
  accept_alike fun h => L.isKeyword h k

theorem acceptSymbol_alike (s : Symbol) :
    Alike L Eq (accept (·.isSymbol s)) (accept (·.isSymbol s)) :=
  accept_alike fun h => L.isSymbol h s

theorem nextIsSymbol_alike (s : Symbol) :
    Alike L Eq (nextIs (·.isSymbol s)) (nextIs (·.isSymbol s)) :=
  nextIs_alike fun h => L.isSymbol h s

theorem symbol_alike (s : Symbol) (what : String) :
    Alike L L.token (expectSymbol s what) (expectSymbol s what) :=
  expect_alike (fun h => L.isSymbol h s) what

theorem discard_symbol_alike (s : Symbol) (what : String) :
    Alike L Eq (discard (expectSymbol s what)) (discard (expectSymbol s what)) :=
  Alike.map (symbol_alike s what) fun _ _ _ => rfl

theorem name_alike (what : String) : Alike L L.token (expectName what) (expectName what) :=
  expect_alike (fun h => by rw [L.kind h]) what

theorem reference_alike (h : L.token t u) :
    Alike L (Reference.Alike L) (reference t) (reference u) := by
  intro c c' hc
  refine .ok ⟨hc.number 0, h⟩ ⟨hc.rest, hc.stop, hc.noted, fun n => ?_⟩
  have hnext := hc.number (n + 1)
  rwa [Nat.add_comm n 1, ← Nat.add_assoc, ← Nat.add_assoc] at hnext

end Steps

/-! ## Expressions -/

section Expressions
variable {L : Likeness} {r r' : Reading Expr}

theorem commaList_alike {α : Type} {p : α → α → Prop} (excess : SyntaxCause)
    {item item' : Reading α} (h : Alike L p item item') (fuel count : Nat) :
    Alike L (List.Forall₂ p) (commaList excess item fuel count)
      (commaList excess item' fuel count) := by
  induction fuel generalizing count with
  | zero => exact tooDeep_alike _
  | succ fuel ih =>
    have hitems : Alike L (List.Forall₂ p)
        (do
          let first ← item
          if ← accept (·.isSymbol .comma) then
            return first :: (← commaList excess item fuel (count + 1))
          else
            return [first])
        (do
          let first ← item'
          if ← accept (·.isSymbol .comma) then
            return first :: (← commaList excess item' fuel (count + 1))
          else
            return [first]) := by
      refine Alike.bind h fun first first' hfirst => ?_
      refine Alike.after (acceptSymbol_alike _) fun more => Alike.ite ?_ ?_
      · exact Alike.map (ih (count + 1)) fun _ _ hrest => .cons hfirst hrest
      · exact Alike.pure (.cons hfirst .nil)
    rw [commaList, commaList]
    refine Alike.ite ?_ hitems
    refine Alike.bind peek_alike fun t u ht => ?_
    exact Alike.after (note_alike excess ht) fun _ => hitems

theorem parenthesized_alike {α : Type} {p : α → α → Prop} (excess : SyntaxCause)
    {item item' : Reading α} (h : Alike L p item item') (fuel : Nat) (what : String) :
    Alike L (fun items items' => List.Forall₂ p items.1 items'.1 ∧ L.token items.2 items'.2)
      (parenthesized excess item fuel what) (parenthesized excess item' fuel what) := by
  have hclose : ∀ items items' : List α, List.Forall₂ p items items' →
      Alike L (fun items items' => List.Forall₂ p items.1 items'.1 ∧ L.token items.2 items'.2)
        (do return (items, ← expectSymbol .rightParen what))
        (do return (items', ← expectSymbol .rightParen what)) := fun _ _ hitems =>
    Alike.map (symbol_alike _ what) fun _ _ hparen => ⟨hitems, hparen⟩
  unfold parenthesized
  refine Alike.after (nextIsSymbol_alike _) fun empty => Alike.ite ?_ ?_
  · exact Alike.bind (p := List.Forall₂ p) (Alike.pure .nil) hclose
  · exact Alike.bind (commaList_alike excess h fuel 0) hclose

theorem primary_alike (h : Alike L (Expr.Alike L) r r') :
    Alike L (Expr.Alike L) (primary r) (primary r') := by
  unfold primary
  refine Alike.bind peek_alike fun t u ht => ?_
  rw [L.kind ht]
  split
  · refine Alike.after skip_alike fun _ => ?_
    exact Alike.map (reference_alike ht) fun _ _ => .variable
  · refine Alike.after skip_alike fun _ => ?_
    exact Alike.map (reference_alike ht) fun _ _ => .thisObject
  · refine Alike.after skip_alike fun _ => ?_
    refine Alike.after (discard_symbol_alike _ _) fun _ => ?_
    refine Alike.bind (name_alike _) fun method method' hmethod => ?_
    refine Alike.bind (reference_alike ht) fun keyword keyword' hkeyword => ?_
    exact Alike.pure (.superMethod hkeyword hmethod)
  · refine Alike.after skip_alike fun _ => ?_
    refine Alike.bind h fun inner inner' hinner => ?_
    exact Alike.after (discard_symbol_alike _ _) fun _ => Alike.pure (.grouping hinner)
  · split
    · exact Alike.after skip_alike fun _ => Alike.pure (.literal _)
    · exact failHere_alike _ _

theorem callsFrom_alike (h : Alike L (Expr.Alike L) r r') (fuel : Nat) {callee callee' : Expr}
    (hcallee : callee.Alike L callee') :
    Alike L (Expr.Alike L) (callsFrom r fuel callee) (callsFrom r' fuel callee') := by
  induction fuel generalizing callee callee' with
  | zero => exact tooDeep_alike _
  | succ fuel ih =>
    rw [callsFrom, callsFrom]
    refine Alike.after (acceptSymbol_alike _) fun opens => Alike.ite ?_ ?_
    · refine Alike.bind (parenthesized_alike .tooManyArguments h fuel _) ?_
      rintro ⟨arguments, paren⟩ ⟨arguments', paren'⟩ ⟨harguments, hparen⟩
      exact ih (.call hcallee hparen harguments)
    · refine Alike.after (acceptSymbol_alike _) fun dot => Alike.ite ?_ (Alike.pure hcallee)
      exact Alike.bind (name_alike _) fun name name' hname => ih (.get hcallee hname)

theorem call_alike (h : Alike L (Expr.Alike L) r r') (fuel : Nat) :
    Alike L (Expr.Alike L) (call r fuel) (call r' fuel) :=
  Alike.bind (primary_alike h) fun _ _ => callsFrom_alike h fuel

theorem unary_alike (h : Alike L (Expr.Alike L) r r') (fuel : Nat) :
    Alike L (Expr.Alike L) (unary r fuel) (unary r' fuel) := by
  induction fuel with
  | zero => exact tooDeep_alike _
  | succ fuel ih =>
    rw [unary, unary]
    refine Alike.bind (takeIf_alike fun ht => by rw [L.isSymbol ht, L.isSymbol ht]) ?_
    intro found found' hfound
    cases hfound with
    | none => exact h
    | some hoperator => exact Alike.map ih fun _ _ => .unary hoperator

/-- A level of operators joins like sides to like trees. -/
def JoinsAlike (L : Likeness) (level : OperatorLevel) : Prop :=
  ∀ {left left' right right' : Expr} {operator operator' : Token}, left.Alike L left' →
    L.token operator operator' → right.Alike L right' →
    (level.node left operator right).Alike L (level.node left' operator' right')

theorem joinsAlike_of_mem_all {level : OperatorLevel} (h : level ∈ OperatorLevel.all) :
    JoinsAlike L level := by
  simp only [OperatorLevel.all, List.mem_cons, List.not_mem_nil, or_false] at h
  rcases h with rfl | rfl | rfl | rfl | rfl | rfl
  · exact .logical
  · exact .logical
  all_goals exact .binary

theorem operatorsFrom_alike {level : OperatorLevel} (hlevel : JoinsAlike L level)
    (h : Alike L (Expr.Alike L) r r') (fuel : Nat) {left left' : Expr}
    (hleft : left.Alike L left') :
    Alike L (Expr.Alike L) (operatorsFrom level r fuel left) (operatorsFrom level r' fuel left') := by
  induction fuel generalizing left left' with
  | zero => exact tooDeep_alike _
  | succ fuel ih =>
    rw [operatorsFrom, operatorsFrom]
    refine Alike.bind (takeIf_alike fun ht => ?_) fun found found' hfound => ?_
    · rw [OperatorLevel.admits, L.kind ht, OperatorLevel.admits]
    cases hfound with
    | none => exact Alike.pure hleft
    | some hoperator =>
      exact Alike.bind h fun right right' hright => ih (hlevel hleft hoperator hright)

theorem joined_alike (h : Alike L (Expr.Alike L) r r') (fuel : Nat) (levels : List OperatorLevel)
    (hlevels : ∀ level ∈ levels, JoinsAlike L level) :
    Alike L (Expr.Alike L) (joined r fuel levels) (joined r' fuel levels) := by
  induction levels with
  | nil => exact h
  | cons level tighter ih =>
    obtain ⟨hlevel, htighter⟩ := List.forall_mem_cons.mp hlevels
    have hnext := ih htighter
    exact Alike.bind hnext fun left left' hleft => operatorsFrom_alike hlevel hnext fuel hleft

theorem assignment_alike (h : Alike L (Expr.Alike L) r r') (fuel : Nat) :
    Alike L (Expr.Alike L) (assignment r fuel) (assignment r' fuel) := by
  have htarget := joined_alike (unary_alike (call_alike h fuel) fuel) fuel OperatorLevel.all
    fun level => joinsAlike_of_mem_all
  unfold assignment
  refine Alike.bind htarget fun target target' htarget => ?_
  refine Alike.bind (takeIf_alike fun ht => L.isSymbol ht _) fun found found' hfound => ?_
  cases hfound with
  | none => exact Alike.pure htarget
  | @some equals equals' hequals =>
    refine Alike.bind h fun value value' hvalue => ?_
    have hother : Alike L (Expr.Alike L) (do note .invalidAssignmentTarget equals; return target)
        (do note .invalidAssignmentTarget equals'; return target') :=
      Alike.after (note_alike _ hequals) fun _ => Alike.pure htarget
    cases htarget with
    | «variable» htarget =>
      refine Alike.bind (reference_alike htarget.name) fun target target' htarget => ?_
      exact Alike.pure (.assign htarget hvalue)
    | get hobject hname => exact Alike.pure (.set hobject hname hvalue)
    | _ => exact hother

theorem expression_alike (fuel : Nat) :
    Alike L (Expr.Alike L) (expression fuel) (expression fuel) := by
  induction fuel with
  | zero => exact tooDeep_alike _
  | succ fuel ih => exact assignment_alike ih fuel

theorem wholeExpression_alike (fuel : Nat) :
    Alike L (Expr.Alike L) (wholeExpression fuel) (wholeExpression fuel) := by
  refine Alike.bind (expression_alike fuel) fun e e' he c c' hc => ?_
  have hfail := failHere_alike (L := L) (Expr.Alike L) (.expected "end of expression") c c' hc
  obtain ⟨rest, endLine, noted, nextId⟩ := c
  obtain ⟨rest', endLine', noted', nextId'⟩ := c'
  cases hc.noted with
  | cons hf _ => exact .error (.fault hf) hc
  | nil =>
    cases hc.rest with
    | nil => exact .ok he hc
    | cons _ _ => exact hfail

end Expressions

/-! ## Statements and declarations -/

section Statements
variable {L : Likeness} {declaration declaration' statement statement' : Reading Stmt}

/-- A fault inside a block is noted on both sides. -/
theorem attempt_alike (h : Alike L (Stmt.Alike L) declaration declaration') :
    Alike L (Option.Rel (Stmt.Alike L))
      (attempt declaration) (attempt declaration') := by
  intro c c' hc
  have hr := h c c' hc
  unfold attempt
  revert hr
  generalize declaration c = first
  generalize declaration' c' = first'
  intro hr
  cases hr with
  | ok hs hafter => exact .ok (.some hs) hafter
  | error hstop hafter =>
    cases hstop with
    | fault hf =>
      exact .ok .none ⟨hafter.rest, hafter.stop, List.rel_append hafter.noted (.cons hf .nil),
        hafter.number⟩
    | tooDeep => exact .error .tooDeep hafter

theorem declarationsFrom_alike (h : Alike L (Stmt.Alike L) declaration declaration') (fuel : Nat) :
    Alike L (List.Forall₂ (Stmt.Alike L)) (declarationsFrom declaration fuel)
      (declarationsFrom declaration' fuel) := by
  induction fuel with
  | zero => exact tooDeep_alike _
  | succ fuel ih =>
    rw [declarationsFrom, declarationsFrom]
    refine Alike.after atEnd_alike fun atEnd => ?_
    refine Alike.after (nextIsSymbol_alike _) fun closes => Alike.ite (Alike.pure .nil) ?_
    refine Alike.bind (attempt_alike h) fun first first' hfirst => ?_
    refine Alike.map ih fun rest rest' hrest => List.rel_append ?_ hrest
    cases hfirst with
    | none => exact .nil
    | some hs => exact .cons hs .nil

theorem block_alike (h : Alike L (Stmt.Alike L) declaration declaration') (fuel : Nat) :
    Alike L (List.Forall₂ (Stmt.Alike L)) (block declaration fuel) (block declaration' fuel) := by
  refine Alike.bind (declarationsFrom_alike h fuel) fun body body' hbody => ?_
  exact Alike.after (discard_symbol_alike _ _) fun _ => Alike.pure hbody

theorem function_alike (h : Alike L (Stmt.Alike L) declaration declaration') (fuel : Nat)
    (kind : String) :
    Alike L (FunctionDeclaration.Alike L) (function declaration fuel kind)
      (function declaration' fuel kind) := by
  unfold function
  refine Alike.bind (name_alike _) fun name name' hname => ?_
  refine Alike.after (discard_symbol_alike _ _) fun _ => ?_
  refine Alike.bind (parenthesized_alike .tooManyParameters (name_alike _) fuel _) ?_
  rintro ⟨params, paren⟩ ⟨params', paren'⟩ ⟨hparams, -⟩
  refine Alike.after (discard_symbol_alike _ _) fun _ => ?_
  refine Alike.bind (block_alike h fuel) fun body body' hbody => ?_
  exact Alike.pure (.intro hname hparams hbody)

theorem methodsFrom_alike (h : Alike L (Stmt.Alike L) declaration declaration') (fuel : Nat) :
    Alike L (List.Forall₂ (FunctionDeclaration.Alike L)) (methodsFrom declaration fuel)
      (methodsFrom declaration' fuel) := by
  induction fuel with
  | zero => exact tooDeep_alike _
  | succ fuel ih =>
    rw [methodsFrom, methodsFrom]
    refine Alike.after atEnd_alike fun atEnd => ?_
    refine Alike.after (nextIsSymbol_alike _) fun closes => Alike.ite (Alike.pure .nil) ?_
    refine Alike.bind (function_alike h fuel _) fun first first' hfirst => ?_
    exact Alike.bind ih fun rest rest' hrest => Alike.pure (.cons hfirst hrest)

theorem classFrom_alike (h : Alike L (Stmt.Alike L) declaration declaration') (fuel : Nat) :
    Alike L (Stmt.Alike L) (classFrom declaration fuel) (classFrom declaration' fuel) := by
  have hbody : ∀ {name name' : Token} {superclass superclass' : Option Expr},
      L.token name name' → Option.Rel (Expr.Alike L) superclass superclass' →
      Alike L (Stmt.Alike L)
        (do
          discard (expectSymbol .leftBrace "'\x7b' before class body")
          let methods ← methodsFrom declaration fuel
          discard (expectSymbol .rightBrace "'\x7d' after class body")
          return .classDeclaration name superclass methods)
        (do
          discard (expectSymbol .leftBrace "'\x7b' before class body")
          let methods ← methodsFrom declaration' fuel
          discard (expectSymbol .rightBrace "'\x7d' after class body")
          return .classDeclaration name' superclass' methods) := by
    intro name name' superclass superclass' hname hsuperclass
    refine Alike.after (discard_symbol_alike _ _) fun _ => ?_
    refine Alike.bind (methodsFrom_alike h fuel) fun methods methods' hmethods => ?_
    refine Alike.after (discard_symbol_alike _ _) fun _ => ?_
    exact Alike.pure (.classDeclaration hname hsuperclass hmethods)
  unfold classFrom
  refine Alike.bind (name_alike _) fun name name' hname => ?_
  refine Alike.after (acceptSymbol_alike _) fun derives => Alike.ite ?_ ?_
  · refine Alike.bind (name_alike _) fun parent parent' hparent => ?_
    exact Alike.bind (Alike.map (reference_alike hparent) fun _ _ htarget =>
      Option.Rel.some (.variable htarget)) fun _ _ => hbody hname
  · exact Alike.bind (Alike.pure .none) fun _ _ => hbody hname

theorem variableFrom_alike (fuel : Nat) :
    Alike L (Stmt.Alike L) (variableFrom fuel) (variableFrom fuel) := by
  have hend : ∀ {name name' : Token} {initializer initializer' : Option Expr},
      L.token name name' → Option.Rel (Expr.Alike L) initializer initializer' →
      Alike L (Stmt.Alike L)
        (do
          discard (expectSymbol .semicolon "';' after variable declaration")
          return .variable name initializer)
        (do
          discard (expectSymbol .semicolon "';' after variable declaration")
          return .variable name' initializer') := fun hname hinitializer =>
    Alike.after (discard_symbol_alike _ _) fun _ => Alike.pure (.variable hname hinitializer)
  unfold variableFrom
  refine Alike.bind (name_alike _) fun name name' hname => ?_
  refine Alike.after (acceptSymbol_alike _) fun initialized => Alike.ite ?_ ?_
  · exact Alike.bind (expression_alike fuel).some fun _ _ => hend hname
  · exact Alike.bind (Alike.pure .none) fun _ _ => hend hname

theorem expressionStatement_alike (fuel : Nat) :
    Alike L (Stmt.Alike L) (expressionStatement fuel) (expressionStatement fuel) := by
  refine Alike.bind (expression_alike fuel) fun value value' hvalue => ?_
  exact Alike.after (discard_symbol_alike _ _) fun _ => Alike.pure (.expression hvalue)

theorem optionalExpression_alike (fuel : Nat) (closing : Symbol) :
    Alike L (Option.Rel (Expr.Alike L)) (optionalExpression fuel closing)
      (optionalExpression fuel closing) :=
  Alike.after (nextIsSymbol_alike _) fun _ =>
    Alike.ite (Alike.pure .none) (expression_alike fuel).some

theorem condition_alike (fuel : Nat) (before after : String) :
    Alike L (Expr.Alike L) (condition fuel before after) (condition fuel before after) := by
  refine Alike.after (discard_symbol_alike _ _) fun _ => ?_
  refine Alike.bind (expression_alike fuel) fun e e' he => ?_
  exact Alike.after (discard_symbol_alike _ _) fun _ => Alike.pure he

theorem forInitializer_alike (fuel : Nat) :
    Alike L (Option.Rel (Stmt.Alike L)) (forInitializer fuel) (forInitializer fuel) := by
  refine Alike.after (acceptSymbol_alike _) fun absent => Alike.ite (Alike.pure .none) ?_
  refine Alike.after (acceptWord_alike _) fun declared => Alike.ite ?_ ?_
  · exact (variableFrom_alike fuel).some
  · exact (expressionStatement_alike fuel).some

theorem forLoop_alike {initializer initializer' : Option Stmt}
    {condition condition' increment increment' : Option Expr} {body body' : Stmt}
    (hinitializer : Option.Rel (Stmt.Alike L) initializer initializer')
    (hcondition : Option.Rel (Expr.Alike L) condition condition')
    (hincrement : Option.Rel (Expr.Alike L) increment increment') (hbody : body.Alike L body') :
    (Stmt.forLoop initializer condition increment body).Alike L
      (Stmt.forLoop initializer' condition' increment' body') := by
  have htest : (condition.getD (.literal (.bool true))).Alike L
      (condition'.getD (.literal (.bool true))) := by
    cases hcondition with
    | none => exact .literal _
    | some h => exact h
  cases hinitializer with
  | none =>
    cases hincrement with
    | none => exact .loop htest hbody
    | some hstep => exact .loop htest (.block (.cons hbody (.cons (.expression hstep) .nil)))
  | some hstart =>
    cases hincrement with
    | none => exact .block (.cons hstart (.cons (.loop htest hbody) .nil))
    | some hstep =>
      exact .block (.cons hstart (.cons (.loop htest
        (.block (.cons hbody (.cons (.expression hstep) .nil)))) .nil))

theorem forFrom_alike (h : Alike L (Stmt.Alike L) statement statement') (fuel : Nat) :
    Alike L (Stmt.Alike L) (forFrom statement fuel) (forFrom statement' fuel) := by
  refine Alike.after (discard_symbol_alike _ _) fun _ => ?_
  refine Alike.bind (forInitializer_alike fuel) fun _ _ hinitializer => ?_
  refine Alike.bind (optionalExpression_alike fuel _) fun _ _ hcondition => ?_
  refine Alike.after (discard_symbol_alike _ _) fun _ => ?_
  refine Alike.bind (optionalExpression_alike fuel _) fun _ _ hincrement => ?_
  refine Alike.after (discard_symbol_alike _ _) fun _ => ?_
  exact Alike.bind h fun _ _ hbody => Alike.pure (forLoop_alike hinitializer hcondition hincrement hbody)

theorem ifFrom_alike (h : Alike L (Stmt.Alike L) statement statement') (fuel : Nat) :
    Alike L (Stmt.Alike L) (ifFrom statement fuel) (ifFrom statement' fuel) := by
  refine Alike.bind (condition_alike fuel _ _) fun test test' htest => ?_
  refine Alike.bind h fun thenBranch thenBranch' hthen => ?_
  refine Alike.after (acceptWord_alike _) fun alternative => Alike.ite ?_ ?_
  · exact Alike.bind h.some fun _ _ helse => Alike.pure (.conditional htest hthen helse)
  · exact Alike.bind (Alike.pure .none) fun _ _ helse => Alike.pure (.conditional htest hthen helse)

theorem whileFrom_alike (h : Alike L (Stmt.Alike L) statement statement') (fuel : Nat) :
    Alike L (Stmt.Alike L) (whileFrom statement fuel) (whileFrom statement' fuel) := by
  refine Alike.bind (condition_alike fuel _ _) fun test test' htest => ?_
  exact Alike.bind h fun body body' hbody => Alike.pure (.loop htest hbody)

theorem printFrom_alike {keyword keyword' : Token} (h : L.token keyword keyword') (fuel : Nat) :
    Alike L (Stmt.Alike L) (printFrom keyword fuel) (printFrom keyword' fuel) := by
  refine Alike.bind (expression_alike fuel) fun value value' hvalue => ?_
  exact Alike.after (discard_symbol_alike _ _) fun _ => Alike.pure (.print h hvalue)

theorem returnFrom_alike {keyword keyword' : Token} (h : L.token keyword keyword') (fuel : Nat) :
    Alike L (Stmt.Alike L) (returnFrom keyword fuel) (returnFrom keyword' fuel) := by
  refine Alike.bind (optionalExpression_alike fuel _) fun value value' hvalue => ?_
  exact Alike.after (discard_symbol_alike _ _) fun _ => Alike.pure (.returnWith h hvalue)

theorem statementForm_alike (hd : Alike L (Stmt.Alike L) declaration declaration')
    (hs : Alike L (Stmt.Alike L) statement statement') (fuel : Nat) :
    Alike L (Stmt.Alike L) (statementForm declaration statement fuel)
      (statementForm declaration' statement' fuel) := by
  unfold statementForm
  refine Alike.after (acceptWord_alike _) fun isFor => Alike.ite (forFrom_alike hs fuel) ?_
  refine Alike.after (acceptWord_alike _) fun isIf => Alike.ite (ifFrom_alike hs fuel) ?_
  refine Alike.after (acceptWord_alike _) fun isWhile => Alike.ite (whileFrom_alike hs fuel) ?_
  refine Alike.bind (takeWord_alike _) fun isReturn isReturn' hreturn => ?_
  cases hreturn with
  | some hkeyword => exact returnFrom_alike hkeyword fuel
  | none =>
    refine Alike.after (acceptSymbol_alike _) fun isBlock => Alike.ite ?_ ?_
    · exact Alike.bind (block_alike hd fuel) fun _ _ hbody => Alike.pure (.block hbody)
    · refine Alike.bind (takeWord_alike _) fun isPrint isPrint' hprint => ?_
      cases hprint with
      | some hkeyword => exact printFrom_alike hkeyword fuel
      | none => exact expressionStatement_alike fuel

theorem declarationForm_alike (hd : Alike L (Stmt.Alike L) declaration declaration')
    (hs : Alike L (Stmt.Alike L) statement statement') (fuel : Nat) :
    Alike L (Stmt.Alike L) (declarationForm declaration statement fuel)
      (declarationForm declaration' statement' fuel) := by
  unfold declarationForm
  refine Alike.after (acceptWord_alike _) fun isClass => Alike.ite (classFrom_alike hd fuel) ?_
  refine Alike.after (acceptWord_alike _) fun isFunction => Alike.ite ?_ ?_
  · exact Alike.bind (function_alike hd fuel _) fun _ _ h => Alike.pure (.function h)
  · refine Alike.after (acceptWord_alike _) fun isVariable => Alike.ite (variableFrom_alike fuel) ?_
    exact statementForm_alike hd hs fuel

end Statements

/-! ## After a fault -/

section Recovery
variable {L : Likeness}

theorem resumeAfter_alike {previous previous' : Token} {tokens tokens' : List Token}
    (hprevious : L.token previous previous') (h : List.Forall₂ L.token tokens tokens') :
    List.Forall₂ L.token (resumeAfter previous tokens) (resumeAfter previous' tokens') := by
  induction h generalizing previous previous' with
  | nil => exact .nil
  | cons ht hrest ih =>
    rw [resumeAfter, resumeAfter, L.isSymbol hprevious, L.startsStatement ht]
    split
    · exact .cons ht hrest
    · exact ih ht

theorem resume_alike {tokens tokens' : List Token} (h : List.Forall₂ L.token tokens tokens') :
    List.Forall₂ L.token (resume tokens) (resume tokens') := by
  cases h with
  | nil => exact .nil
  | cons ht hrest => exact resumeAfter_alike ht hrest

theorem Alike.recovering {α : Type} {p : α → α → Prop} {r r' : Reading α} (h : Alike L p r r') :
    Alike L p (recovering r) (recovering r') := by
  intro c c' hc
  have hr := h c c' hc
  unfold Reading.recovering
  revert hr
  generalize r c = first
  generalize r' c' = first'
  intro hr
  cases hr with
  | ok ha hafter => exact .ok ha hafter
  | error hstop hafter =>
    cases hstop with
    | fault hf =>
      exact .error (.fault hf) ⟨resume_alike hafter.rest, hafter.stop, hafter.noted, hafter.number⟩
    | tooDeep => exact .error .tooDeep hafter

/-- Statements and declarations are read alike at every depth of reading. -/
theorem statement_alike (fuel : Nat) :
    Alike L (Stmt.Alike L) (statement fuel) (statement fuel) ∧
      Alike L (Stmt.Alike L) (declaration fuel) (declaration fuel) := by
  induction fuel with
  | zero => exact ⟨tooDeep_alike _, tooDeep_alike _⟩
  | succ fuel ih =>
    exact ⟨statementForm_alike ih.2 ih.1 fuel, (declarationForm_alike ih.2 ih.1 fuel).recovering⟩

end Recovery
end Reading

/-! ## Programs -/

/-- Like declarations, or like faults. -/
inductive ProgramItem.Alike (L : Likeness) : ProgramItem → ProgramItem → Prop
  | ok {s s' : Stmt} : s.Alike L s' → ProgramItem.Alike L (.ok s) (.ok s')
  | error {f f' : SyntaxFault} : f.Alike L f' → ProgramItem.Alike L (.error f) (.error f')

section Programs
variable {L : Likeness}

theorem Stop.Alike.report {stop stop' : Stop} {c c' : Cursor} (h : stop.Alike L stop')
    (hc : c.Alike L c') : (stop.report c).Alike L (stop'.report c') := by
  cases h with
  | fault hf => exact hf
  | tooDeep => exact ⟨rfl, hc.peek⟩

theorem readItem_alike (depth : Nat) {c c' : Cursor} (hc : c.Alike L c') :
    ProgramItem.Alike L (readItem depth c).1 (readItem depth c').1 ∧
      (readItem depth c).2.Alike L (readItem depth c').2 := by
  have hr := (Reading.statement_alike depth).2 c c' hc
  unfold readItem
  revert hr
  generalize (Reading.declaration depth : Reading Stmt) c = read
  generalize (Reading.declaration depth : Reading Stmt) c' = read'
  intro hr
  cases hr with
  | ok hs hafter => exact ⟨.ok hs, hafter⟩
  | error hstop hafter => exact ⟨.error (hstop.report hafter), hafter⟩

theorem programItemsFrom_alike (depth fuel : Nat) {c c' : Cursor} (hc : c.Alike L c') :
    List.Forall₂ (ProgramItem.Alike L) (programItemsFrom depth fuel c).1
        (programItemsFrom depth fuel c').1 ∧
      ∀ n, L.number ((programItemsFrom depth fuel c).2 + n)
        ((programItemsFrom depth fuel c').2 + n) := by
  induction fuel generalizing c c' with
  | zero => exact ⟨.cons (.error ⟨rfl, hc.peek⟩) .nil, hc.number⟩
  | succ fuel ih =>
    have hempty : c'.rest.isEmpty = c.rest.isEmpty := by
      have hlength := hc.rest.length_eq
      rw [Bool.eq_iff_iff, List.isEmpty_iff_length_eq_zero, List.isEmpty_iff_length_eq_zero, hlength]
    obtain ⟨hitem, hafter⟩ := readItem_alike depth hc
    have hclear : Cursor.Alike L { (readItem depth c).2 with noted := [] }
        { (readItem depth c').2 with noted := [] } :=
      ⟨hafter.rest, hafter.stop, .nil, hafter.number⟩
    obtain ⟨hrest, hnext⟩ := ih hclear
    rw [programItemsFrom, programItemsFrom, hempty]
    split
    · exact ⟨.nil, hc.number⟩
    · refine ⟨List.rel_append ?_ (.cons hitem hrest), hnext⟩
      rw [List.forall₂_map_left_iff, List.forall₂_map_right_iff]
      exact hafter.noted.imp fun _ _ => .error

/-- Tokens with which a place starts alike. -/
theorem Cursor.start_alike {tokens tokens' : List Token} {nextId nextId' : Nat}
    (h : List.Forall₂ L.token tokens tokens')
    (hstop : L.token (.endOn (Cursor.start tokens nextId).endLine)
      (.endOn (Cursor.start tokens' nextId').endLine))
    (hnumber : ∀ n, L.number (nextId + n) (nextId' + n)) :
    (Cursor.start tokens nextId).Alike L (.start tokens' nextId') := by
  refine ⟨?_, hstop, .nil, hnumber⟩
  change List.Forall₂ L.token (tokens.takeWhile (!·.isEnd)) (tokens'.takeWhile (!·.isEnd))
  clear hstop
  induction h with
  | nil => exact .nil
  | cons ht hrest ih =>
    rw [List.takeWhile_cons, List.takeWhile_cons, L.isEnd ht]
    split
    · exact .cons ht ih
    · exact .nil

/-- Related tokens hold like declarations and like faults, in the same order, and as many identities
are given. -/
theorem programItems_alike {tokens tokens' : List Token} {nextId nextId' : Nat}
    (h : List.Forall₂ L.token tokens tokens')
    (hstop : L.token (.endOn (Cursor.start tokens nextId).endLine)
      (.endOn (Cursor.start tokens' nextId').endLine))
    (hnumber : ∀ n, L.number (nextId + n) (nextId' + n)) :
    List.Forall₂ (ProgramItem.Alike L) (programItems tokens nextId).1
        (programItems tokens' nextId').1 ∧
      ∀ n, L.number ((programItems tokens nextId).2 + n)
        ((programItems tokens' nextId').2 + n) := by
  have hstart := Cursor.start_alike h hstop hnumber
  have hitems := programItemsFrom_alike (depthBound tokens)
    ((Cursor.start tokens nextId).rest.length + 1) hstart
  have hdepth : depthBound tokens' = depthBound tokens := by rw [depthBound, ← h.length_eq, depthBound]
  dsimp only [programItems]
  rw [hdepth, ← hstart.rest.length_eq]
  exact hitems

/-- A program on both sides, or like faults on both sides. -/
inductive ProgramAlike (L : Likeness) :
    Except (List SyntaxFault) (List Stmt) → Except (List SyntaxFault) (List Stmt) → Prop
  | ok {program program' : List Stmt} : List.Forall₂ (Stmt.Alike L) program program' →
    ProgramAlike L (.ok program) (.ok program')
  | error {faults faults' : List SyntaxFault} : List.Forall₂ (SyntaxFault.Alike L) faults faults' →
    ProgramAlike L (.error faults) (.error faults')

theorem ProgramAlike.of_ok {program : List Stmt} {read : Except (List SyntaxFault) (List Stmt)}
    (h : ProgramAlike L (.ok program) read) :
    ∃ program', read = .ok program' ∧ List.Forall₂ (Stmt.Alike L) program program' := by
  cases h with
  | ok hprogram => exact ⟨_, rfl, hprogram⟩

theorem programOfItems_alike {items items' : List ProgramItem}
    (h : List.Forall₂ (ProgramItem.Alike L) items items') :
    ProgramAlike L (programOfItems items) (programOfItems items') := by
  have hparts : List.Forall₂ (SyntaxFault.Alike L) (items.filterMap ProgramItem.fault?)
        (items'.filterMap ProgramItem.fault?) ∧
      List.Forall₂ (Stmt.Alike L) (items.filterMap ProgramItem.declaration?)
        (items'.filterMap ProgramItem.declaration?) := by
    induction h with
    | nil => exact ⟨.nil, .nil⟩
    | cons hitem _ ih =>
      cases hitem with
      | ok hs => exact ⟨ih.1, .cons hs ih.2⟩
      | error hf => exact ⟨.cons hf ih.1, ih.2⟩
  obtain ⟨hfaults, hprogram⟩ := hparts
  unfold programOfItems
  revert hfaults
  generalize items.filterMap ProgramItem.fault? = faults
  generalize items'.filterMap ProgramItem.fault? = faults'
  intro hfaults
  cases hfaults with
  | nil => exact .ok hprogram
  | cons hf hrest => exact .error (.cons hf hrest)

end Programs

end LoxLang
