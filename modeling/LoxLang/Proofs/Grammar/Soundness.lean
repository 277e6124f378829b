import LoxLang.Proofs.Grammar.Words

/-!
What is read without a fault has been read from its text: the tokens taken are related to the tree by
`ExprText`, `StmtText` or `DeclarationText`. There is one lemma for each rule of the grammar. The rule
for assignments reads its target as an operand first, so that the text of a variable or property has
to be found again in the text of a joined expression; the rule for conditionals takes an `else` where
one comes next, so that a statement that could take one more `else` is followed by none.
-/
namespace LoxLang
set_option autoImplicit false

/-! ## What can be assigned to -/

/-- Whether an expression can be assigned to. -/
def Expr.isTarget : Expr → Bool
  | .variable _ => true
  | .get _ _ => true
  | _ => false

theorem OperatorLevel.node_isTarget {level : OperatorLevel} (h : level ∈ OperatorLevel.all)
    (left : Expr) (operator : Token) (right : Expr) :
    (level.node left operator right).isTarget = false := by
  simp only [OperatorLevel.all, List.mem_cons, List.not_mem_nil, or_false] at h
  rcases h with rfl | rfl | rfl | rfl | rfl | rfl <;> rfl

/-- The text of a target among joined operands has no operator in it. -/
theorem ExprText.call_of_isTarget {levels : List OperatorLevel} {lo hi : Nat} {w : List Token}
    {e : Expr} (h : ExprText (.joined levels) lo w e hi) (hlevels : levels <:+ OperatorLevel.all)
    (he : e.isTarget = true) : ExprText .call lo w e hi := by
  induction levels with
  | nil =>
    cases h with
    | tightest hunary =>
      cases hunary with
      | unoperated hcall => exact hcall
      | unary _ _ => cases he
  | cons level tighter ih =>
    cases h with
    | tighter htighter => exact ih htighter ((List.suffix_cons level tighter).trans hlevels)
    | operator _ _ _ _ =>
      rw [OperatorLevel.node_isTarget (hlevels.subset List.mem_cons_self)] at he
      cases he

theorem ExprText.name {lo hi : Nat} {w : List Token} {r : Reference}
    (h : ExprText .call lo w (.variable r) hi) :
    ∃ name : Token, w = [name] ∧ name.kind = .identifier ∧ r = ⟨lo, name⟩ ∧ hi = lo + 1 := by
  cases h with
  | operand hprimary =>
    cases hprimary with
    | «variable» hname => exact ⟨_, rfl, hname, rfl, rfl⟩

theorem ExprText.property {lo hi : Nat} {w : List Token} {object : Expr} {name : Token}
    (h : ExprText .call lo w (.get object name) hi) :
    ∃ u dot, w = u ++ [dot, name] ∧ ExprText .call lo u object hi ∧ dot.kind = .symbol .dot ∧
      name.kind = .identifier := by
  cases h with
  | operand hprimary => cases hprimary
  | get hobject hdot hname => exact ⟨_, _, rfl, hobject, hdot, hname⟩

namespace Reading

/-! ## Lists between parentheses -/

section Items
variable {α : Type} {item : Nat → List Token → α → Nat → Prop}

/-- Without a fault there are at most 255 items, those read before included. -/
theorem commaList_takes (excess : SyntaxCause) {r : Reading α}
    (hr : ∀ lo rest, Takes lo rest (fun w a hi _ => item lo w a hi) r) (fuel count lo : Nat)
    (rest : List Token) :
    Takes lo rest (fun w as hi _ => CommaText item lo w as hi ∧ count + as.length ≤ maxArity)
      (commaList excess r fuel count) := by
  induction fuel generalizing count lo rest with
  | zero => exact takes_tooDeep lo rest _
  | succ fuel ih =>
    have hitems : ∀ lo rest, Takes lo rest
        (fun w as hi _ => count < maxArity → CommaText item lo w as hi ∧ count + as.length ≤ maxArity)
        (do
          let first ← r
          if ← accept (·.isSymbol .comma) then
            return first :: (← commaList excess r fuel (count + 1))
          else
            return [first]) := by
      intro lo rest
      refine Takes.bind (hr lo rest) fun first u mid left => ?_
      refine Takes.bind (takes_accept mid left _) fun more v mid' left' => ?_
      refine Takes.ite (fun hmore => ?_) fun hlast => Takes.pure ?_
      · refine Takes.map (ih (count + 1) mid' left') ?_
        rintro w as hi _ ⟨hrest, hlength⟩ ⟨rfl, haccepted, -⟩ hfirst _
        obtain ⟨comma, hcomma, rfl, -⟩ := haccepted hmore
        refine ⟨.more hfirst ((Token.isSymbol_iff comma .comma).mp hcomma) hrest, ?_⟩
        rw [List.length_cons]
        omega
      · rintro ⟨rfl, -, hnone⟩ hfirst hcount
        obtain ⟨rfl, -⟩ := hnone (Bool.eq_false_iff.mpr hlast)
        rw [List.append_nil, List.append_nil]
        exact ⟨.last hfirst, hcount⟩
    rw [commaList]
    refine Takes.ite (fun _ => ?_) fun hcount => (hitems lo rest).weaken fun _ _ _ _ _ h =>
      h (Nat.lt_of_not_le hcount)
    refine Takes.bind (takes_peek lo rest) fun t u mid left => ?_
    refine Takes.bind (takes_note mid left excess t) fun _ v mid' left' => ?_
    exact (hitems mid' left').weaken fun _ _ _ _ _ _ hnoted => hnoted.elim

theorem parenthesized_takes (excess : SyntaxCause) {r : Reading α}
    (hr : ∀ lo rest, Takes lo rest (fun w a hi _ => item lo w a hi) r) (fuel : Nat) (what : String)
    (lo : Nat) (rest : List Token) :
    Takes lo rest (fun w read hi _ => ∃ u, w = u ++ [read.2] ∧ ItemsText item lo u read.1 hi ∧
      read.2.kind = .symbol .rightParen) (parenthesized excess r fuel what) := by
  unfold parenthesized
  refine Takes.bind (takes_nextIs lo rest _) fun empty u mid left => ?_
  have hclose : ∀ (items : List α) (mid' : Nat) (left' : List Token) (v : List Token),
      Takes mid' left' (fun w read hi _ => ItemsText item mid v items mid' →
        u = [] ∧ mid = lo ∧ left = rest ∧ empty = rest.head?.any (·.isSymbol .rightParen) →
        ∃ u', u ++ (v ++ w) = u' ++ [read.2] ∧ ItemsText item lo u' read.1 hi ∧
          read.2.kind = .symbol .rightParen)
        (do return (items, ← expectSymbol .rightParen what)) := by
    intro items mid' left' v
    refine Takes.map (takes_symbol mid' left' .rightParen what) ?_
    rintro w paren hi _ ⟨rfl, hparen, rfl⟩ hitems ⟨rfl, rfl, -, -⟩
    exact ⟨v, rfl, hitems, hparen⟩
  dsimp only
  refine Takes.ite (fun _ => ?_) fun _ => ?_
  · refine Takes.bind (p := fun v items hi _ => ItemsText item mid v items hi)
      (Takes.pure (Or.inl ⟨rfl, rfl, rfl⟩)) fun items v mid' left' => hclose items mid' left' v
  · refine Takes.bind ((commaList_takes excess hr fuel 0 mid left).weaken ?_)
      fun items v mid' left' => hclose items mid' left' v
    intro v items hi _ _ ⟨hitems, hlength⟩
    exact Or.inr ⟨hitems, by omega⟩

end Items

/-! ## Operands -/

/-- A reading of expressions that takes their texts. -/
def TakesExpr (place : Place) (r : Reading Expr) : Prop :=
  ∀ lo rest, Takes lo rest (fun w e hi _ => ExprText place lo w e hi) r

theorem primary_takes {r : Reading Expr} (hr : TakesExpr .expression r) :
    TakesExpr .primary (primary r) := by
  intro lo rest
  unfold primary
  refine Takes.bind (takes_peek lo rest) fun t u mid left => ?_
  have hskip : ∀ {f : Unit → Reading Expr}, (t.isEnd = false) →
      (∀ mid left, Takes mid left
        (fun w e hi _ => ExprText .primary mid (t :: w) e hi) (f ())) →
      Takes mid left (fun w e hi _ =>
        (u = [] ∧ mid = lo ∧ left = rest ∧ (t.isEnd = false → ∃ more, rest = t :: more)) →
        ExprText .primary lo (u ++ w) e hi) (skip >>= f) := by
    intro f hend hf
    refine Takes.bind (takes_skip mid left) fun _ v mid' left' => (hf mid' left').weaken ?_
    rintro w e hi _ _ hw ⟨rfl, rfl⟩ ⟨rfl, rfl, rfl, hmore⟩
    obtain ⟨more, rfl⟩ := hmore hend
    exact hw
  split
  · rename_i hk
    refine hskip (by simp [Token.isEnd, hk, TokenKind.same]) fun mid left => ?_
    refine Takes.map (takes_reference mid left t) ?_
    rintro w target hi _ ⟨rfl, rfl, rfl⟩
    exact .variable hk
  · rename_i hk
    refine hskip (by simp [Token.isEnd, hk, TokenKind.same]) fun mid left => ?_
    refine Takes.map (takes_reference mid left t) ?_
    rintro w target hi _ ⟨rfl, rfl, rfl⟩
    exact .thisObject hk
  · rename_i hk
    refine hskip (by simp [Token.isEnd, hk, TokenKind.same]) fun mid left => ?_
    refine Takes.bind (takes_discard_symbol mid left _ _) fun _ v mid' left' => ?_
    refine Takes.bind (takes_name mid' left' _) fun method v' mid'' left'' => ?_
    refine Takes.bind (takes_reference mid'' left'' t) fun keyword w hi _ => Takes.pure ?_
    rintro ⟨rfl, rfl, rfl⟩ ⟨rfl, hmethod, rfl⟩ ⟨dot, rfl, hdot, rfl⟩
    exact .superMethod hk hdot hmethod
  · rename_i hk
    refine hskip (by simp [Token.isEnd, hk, TokenKind.same]) fun mid left => ?_
    refine Takes.bind (hr mid left) fun inner v mid' left' => ?_
    refine Takes.map (takes_discard_symbol mid' left' _ _) ?_
    rintro w _ hi _ ⟨right, rfl, hright, rfl⟩ hinner
    exact .grouping hk hinner hright
  · split
    · rename_i value hvalue
      have hend : t.isEnd = false := by
        cases hk : t.kind <;> simp [hk, Literal.ofKind?] at hvalue <;>
          simp [Token.isEnd, hk, TokenKind.same]
      exact hskip hend fun mid left => Takes.pure (.literal hvalue)
    · exact takes_failHere mid left _ _

theorem callsFrom_takes {r : Reading Expr} (hr : TakesExpr .expression r) (fuel mid : Nat)
    (rest : List Token) (callee : Expr) :
    Takes mid rest (fun w e hi _ => ∀ lo u, ExprText .call lo u callee mid →
      ExprText .call lo (u ++ w) e hi) (callsFrom r fuel callee) := by
  induction fuel generalizing mid rest callee with
  | zero => exact takes_tooDeep mid rest _
  | succ fuel ih =>
    rw [callsFrom]
    refine Takes.bind (takes_accept mid rest _) fun opens v mid' left => ?_
    refine Takes.ite (fun hopens => ?_) fun hopens => ?_
    · refine Takes.bind (parenthesized_takes .tooManyArguments hr fuel _ mid' left) ?_
      rintro ⟨arguments, paren⟩ v' mid'' left'
      refine (ih mid'' left' (.call callee paren arguments)).weaken ?_
      rintro w e hi _ _ hrest ⟨u', rfl, harguments, hparen⟩ ⟨rfl, haccepted, -⟩ lo u hcallee
      obtain ⟨left, hleft, rfl, -⟩ := haccepted hopens
      have hleft := (Token.isSymbol_iff left .leftParen).mp hleft
      have hcall : ExprText .call lo (u ++ left :: (u' ++ [paren])) (.call callee paren arguments)
          mid'' := by
        obtain ⟨rfl, rfl, rfl⟩ | ⟨harguments, hlength⟩ := harguments
        · exact .callWithout hcallee hleft hparen
        · exact .call hcallee hleft harguments hlength hparen
      have hw := hrest lo _ hcall
      simpa only [List.append_assoc, List.cons_append, List.nil_append] using hw
    · refine Takes.bind (takes_accept mid' left _) fun dot v' mid'' left' => ?_
      refine Takes.ite (fun hdot => ?_) fun hdot => Takes.pure ?_
      · refine Takes.bind (takes_name mid'' left' _) fun name v'' hi' left'' => ?_
        refine (ih hi' left'' (.get callee name)).weaken ?_
        rintro w e hi _ _ hrest ⟨rfl, hname, rfl⟩ ⟨rfl, hdotted, -⟩ ⟨rfl, -, hnone⟩ lo u hcallee
        obtain ⟨rfl, -⟩ := hnone (Bool.eq_false_iff.mpr hopens)
        obtain ⟨dot, hdot, rfl, -⟩ := hdotted hdot
        have hw := hrest lo _ (.get hcallee ((Token.isSymbol_iff dot .dot).mp hdot) hname)
        simpa only [List.append_assoc, List.cons_append, List.nil_append] using hw
      · rintro ⟨rfl, -, hnone'⟩ ⟨rfl, -, hnone⟩ lo u hcallee
        obtain ⟨rfl, -⟩ := hnone (Bool.eq_false_iff.mpr hopens)
        obtain ⟨rfl, -⟩ := hnone' (Bool.eq_false_iff.mpr hdot)
        rw [List.append_nil, List.append_nil, List.append_nil]
        exact hcallee

theorem call_takes {r : Reading Expr} (hr : TakesExpr .expression r) (fuel : Nat) :
    TakesExpr .call (call r fuel) := by
  intro lo rest
  refine Takes.bind (primary_takes hr lo rest) fun callee u mid left => ?_
  exact (callsFrom_takes hr fuel mid left callee).weaken fun w e hi _ _ h hcallee =>
    h lo u (.operand hcallee)

/-! ## Operators -/

theorem unary_takes {operand : Reading Expr} (h : TakesExpr .call operand) (fuel : Nat) :
    TakesExpr .unary (unary operand fuel) := by
  induction fuel with
  | zero => exact fun lo rest => takes_tooDeep lo rest _
  | succ fuel ih =>
    intro lo rest
    rw [unary]
    refine Takes.bind (takes_takeIf lo rest _) fun found u mid left => ?_
    cases found with
    | some operator =>
      refine Takes.map (ih mid left) ?_
      rintro w e hi _ he ⟨rfl, rfl, hsome, -⟩
      have hoperator := (hsome operator rfl).1
      rw [Bool.or_eq_true, Token.isSymbol_iff, Token.isSymbol_iff] at hoperator
      exact .unary hoperator he
    | none =>
      refine (h mid left).weaken ?_
      rintro w e hi _ _ he ⟨rfl, rfl, -, -⟩
      exact .unoperated he

theorem operatorsFrom_takes {level : OperatorLevel} {levels : List OperatorLevel}
    {operand : Reading Expr} (hlevels : level :: levels <:+ OperatorLevel.all)
    (h : TakesExpr (.joined levels) operand) (fuel mid : Nat) (rest : List Token) (left : Expr) :
    Takes mid rest (fun w e hi _ => ∀ lo u, ExprText (.joined (level :: levels)) lo u left mid →
      ExprText (.joined (level :: levels)) lo (u ++ w) e hi)
      (operatorsFrom level operand fuel left) := by
  induction fuel generalizing mid rest left with
  | zero => exact takes_tooDeep mid rest _
  | succ fuel ih =>
    rw [operatorsFrom]
    refine Takes.bind (takes_takeIf mid rest _) fun found v mid' more => ?_
    cases found with
    | some operator =>
      refine Takes.bind (h mid' more) fun right v' mid'' more' => ?_
      refine (ih mid'' more' (level.node left operator right)).weaken ?_
      rintro w e hi _ _ hrest hright ⟨rfl, rfl, hsome, -⟩ lo u hleft
      have hw := hrest lo _ (.operator hlevels hleft (hsome operator rfl).1 hright)
      simpa only [Option.toList_some, List.append_assoc, List.cons_append, List.nil_append] using hw
    | none =>
      refine Takes.pure ?_
      rintro ⟨rfl, rfl, -, -⟩ lo u hleft
      simpa only [Option.toList_none, List.append_nil] using hleft

theorem joined_takes {operand : Reading Expr} (h : TakesExpr .unary operand) (fuel : Nat)
    (levels : List OperatorLevel) (hlevels : levels <:+ OperatorLevel.all) :
    TakesExpr (.joined levels) (joined operand fuel levels) := by
  induction levels with
  | nil =>
    intro lo rest
    exact (h lo rest).weaken fun _ _ _ _ _ he => .tightest he
  | cons level tighter ih =>
    intro lo rest
    have htighter := ih ((List.suffix_cons level tighter).trans hlevels)
    rw [joined]
    refine Takes.bind (htighter lo rest) fun left u mid more => ?_
    exact (operatorsFrom_takes hlevels htighter fuel mid more left).weaken fun w e hi _ _ he hleft =>
      he lo u (.tighter hleft)

/-! ## Assignments -/

theorem assignment_takes {r : Reading Expr} (hr : TakesExpr .expression r) (fuel : Nat) :
    TakesExpr .expression (assignment r fuel) := by
  intro lo rest
  unfold assignment
  have htarget := joined_takes (unary_takes (call_takes hr fuel) fuel) fuel OperatorLevel.all
    (List.suffix_refl _)
  refine Takes.bind (htarget lo rest) fun target u mid left => ?_
  refine Takes.bind (takes_takeIf mid left _) fun found v mid' left' => ?_
  cases found with
  | none =>
    refine Takes.pure ?_
    rintro ⟨rfl, rfl, -, -⟩ hjoined
    simpa only [Option.toList_none, List.append_nil] using .joined hjoined
  | some equals =>
    refine Takes.bind (hr mid' left') fun value v' hi left'' => ?_
    split
    · refine Takes.bind (takes_reference hi left'' _) fun target w hi' _ => Takes.pure ?_
      rintro ⟨rfl, rfl, rfl⟩ hvalue ⟨rfl, rfl, hsome, -⟩ hjoined
      have hequals := (Token.isSymbol_iff equals .equal).mp (hsome equals rfl).1
      obtain ⟨name, rfl, hname, rfl, rfl⟩ := (hjoined.call_of_isTarget (List.suffix_refl _) rfl).name
      simpa only [Option.toList_some, List.append_nil, List.cons_append, List.nil_append] using
        .assign hname hequals hvalue
    · refine Takes.pure ?_
      rintro hvalue ⟨rfl, rfl, hsome, -⟩ hjoined
      have hequals := (Token.isSymbol_iff equals .equal).mp (hsome equals rfl).1
      obtain ⟨w, dot, rfl, hobject, hdot, hname⟩ :=
        (hjoined.call_of_isTarget (List.suffix_refl _) rfl).property
      simpa only [Option.toList_some, List.append_assoc, List.append_nil, List.cons_append,
        List.nil_append] using .set hobject hdot hname hequals hvalue
    · refine Takes.bind (takes_note hi left'' _ _) fun _ w hi' _ => Takes.pure ?_
      exact fun hnoted => hnoted.elim

theorem expression_takes (fuel : Nat) : TakesExpr .expression (expression fuel) := by
  induction fuel with
  | zero => exact fun lo rest => takes_tooDeep lo rest _
  | succ fuel ih => exact assignment_takes ih fuel

/-! ## Blocks and functions -/

/-- A reading of declarations that takes their texts. -/
def TakesDeclaration (r : Reading Stmt) : Prop :=
  ∀ lo rest, Takes lo rest (fun w s hi _ => DeclarationText lo w s hi) r

/-- A reading of statements that takes their texts, and every `else` that can belong to them. -/
def TakesStatement (r : Reading Stmt) : Prop :=
  ∀ lo rest, Takes lo rest (fun w s hi left => ∃ dangling, StmtText dangling lo w s hi ∧
    (dangling = true → left.head?.any (·.isKeyword .elseWord) = false)) r

theorem TakesStatement.takesDeclaration {r : Reading Stmt} (h : TakesStatement r) :
    TakesDeclaration r := fun lo rest =>
  (h lo rest).weaken fun _ _ _ _ _ hs => hs.elim fun _ hs => .statement hs.1

/-- A declaration that is passed over has left its fault behind. -/
theorem attempt_takes {declaration : Reading Stmt} (h : TakesDeclaration declaration) (lo : Nat)
    (rest : List Token) :
    Takes lo rest (fun w found hi _ => ∃ s, found = some s ∧ DeclarationText lo w s hi)
      (attempt declaration) := by
  intro c hlo hrest
  have hc := h lo rest c hlo hrest
  unfold attempt
  cases hr : declaration c with
  | ok s after =>
    rw [hr] at hc
    refine ⟨hc.1, fun hclean => ?_⟩
    obtain ⟨w, hw, hs⟩ := hc.2 hclean
    exact ⟨w, hw, s, rfl, hs⟩
  | error stop after =>
    rw [hr] at hc
    cases stop with
    | tooDeep => exact hc
    | fault f =>
      refine ⟨hc.trans (List.prefix_append _ _), fun hclean => ?_⟩
      have hlength := congrArg List.length hclean
      have hle := hc.length_le
      simp only [List.length_append, List.length_singleton] at hlength
      omega

theorem declarationsFrom_takes {declaration : Reading Stmt} (h : TakesDeclaration declaration)
    (fuel lo : Nat) (rest : List Token) :
    Takes lo rest (fun w body hi _ => ListText DeclarationText lo w body hi)
      (declarationsFrom declaration fuel) := by
  induction fuel generalizing lo rest with
  | zero => exact takes_tooDeep lo rest _
  | succ fuel ih =>
    rw [declarationsFrom]
    refine Takes.bind (takes_atEnd lo rest) fun atEnd u mid left => ?_
    refine Takes.bind (takes_nextIs mid left _) fun closes u' mid' left' => ?_
    refine Takes.ite (fun _ => Takes.pure ?_) fun _ => ?_
    · rintro ⟨rfl, rfl, -, -⟩ ⟨rfl, rfl, -, -⟩
      exact .nil
    · refine Takes.bind (attempt_takes h mid' left') fun first v mid'' left'' => ?_
      refine Takes.map (ih mid'' left'') ?_
      rintro w more hi _ hmore ⟨s, rfl, hs⟩ ⟨rfl, rfl, -, -⟩ ⟨rfl, rfl, -, -⟩
      show ListText DeclarationText mid' (v ++ w) (s :: more) hi
      exact .cons hs hmore

theorem block_takes {declaration : Reading Stmt} (h : TakesDeclaration declaration) (fuel lo : Nat)
    (rest : List Token) :
    Takes lo rest (fun w body hi _ => ∃ u closing, w = u ++ [closing] ∧
      ListText DeclarationText lo u body hi ∧ closing.kind = .symbol .rightBrace)
      (block declaration fuel) := by
  refine Takes.bind (declarationsFrom_takes h fuel lo rest) fun body u mid left => ?_
  refine Takes.bind (takes_discard_symbol mid left _ _) fun _ v hi _ => Takes.pure ?_
  rintro ⟨closing, rfl, hclosing, rfl⟩ hbody
  exact ⟨u, closing, rfl, hbody, hclosing⟩

theorem function_takes {declaration : Reading Stmt} (h : TakesDeclaration declaration) (fuel : Nat)
    (kind : String) (lo : Nat) (rest : List Token) :
    Takes lo rest (fun w d hi _ => FunctionText lo w d hi) (function declaration fuel kind) := by
  unfold function
  refine Takes.bind (takes_name lo rest _) fun name u mid left => ?_
  refine Takes.bind (takes_discard_symbol mid left _ _) fun _ u' mid' left' => ?_
  refine Takes.bind (parenthesized_takes .tooManyParameters
    (fun lo rest => takes_name lo rest _) fuel _ mid' left') ?_
  rintro ⟨params, paren⟩ v second more
  refine Takes.bind (takes_discard_symbol second more _ _) fun _ v' third more' => ?_
  refine Takes.bind (block_takes h fuel third more') fun body w hi _ => Takes.pure ?_
  rintro ⟨w, closing, rfl, hbody, hclosing⟩ ⟨opening, rfl, hopening, rfl⟩ ⟨v, rfl, hparams, hparen⟩
    ⟨left, rfl, hleft, rfl⟩ ⟨rfl, hname, rfl⟩
  simpa only [List.append_assoc, List.cons_append, List.nil_append, List.append_nil] using
    .intro hname hleft hparams hparen hopening hbody hclosing

theorem methodsFrom_takes {declaration : Reading Stmt} (h : TakesDeclaration declaration)
    (fuel lo : Nat) (rest : List Token) :
    Takes lo rest (fun w methods hi _ => ListText FunctionText lo w methods hi)
      (methodsFrom declaration fuel) := by
  induction fuel generalizing lo rest with
  | zero => exact takes_tooDeep lo rest _
  | succ fuel ih =>
    rw [methodsFrom]
    refine Takes.bind (takes_atEnd lo rest) fun atEnd u mid left => ?_
    refine Takes.bind (takes_nextIs mid left _) fun closes u' mid' left' => ?_
    refine Takes.ite (fun _ => Takes.pure ?_) fun _ => ?_
    · rintro ⟨rfl, rfl, -, -⟩ ⟨rfl, rfl, -, -⟩
      exact .nil
    · refine Takes.bind (function_takes h fuel _ mid' left') fun first v mid'' left'' => ?_
      refine Takes.map (ih mid'' left'') ?_
      rintro w more hi _ hmore hfirst ⟨rfl, rfl, -, -⟩ ⟨rfl, rfl, -, -⟩
      show ListText FunctionText mid' (v ++ w) (first :: more) hi
      exact .cons hfirst hmore

/-! ## Declarations -/

theorem classFrom_takes {declaration : Reading Stmt} (h : TakesDeclaration declaration)
    (fuel lo : Nat) (rest : List Token) :
    Takes lo rest (fun w s hi _ => ∀ word : Token, word.kind = .keyword .classWord →
      DeclarationText lo (word :: w) s hi) (classFrom declaration fuel) := by
  have hbody : ∀ (name : Token) (superclass : Option Expr) (mid : Nat) (left : List Token),
      Takes mid left (fun w s hi _ => ∀ lo u word, SuperclassText lo u superclass mid →
        name.kind = .identifier → word.kind = .keyword .classWord →
        DeclarationText lo (word :: name :: (u ++ w)) s hi) (do
        discard (expectSymbol .leftBrace "'\x7b' before class body")
        let methods ← methodsFrom declaration fuel
        discard (expectSymbol .rightBrace "'\x7d' after class body")
        return .classDeclaration name superclass methods) := by
    intro name superclass mid left
    refine Takes.bind (takes_discard_symbol mid left _ _) fun _ v mid' left' => ?_
    refine Takes.bind (methodsFrom_takes h fuel mid' left') fun methods v' mid'' left'' => ?_
    refine Takes.bind (takes_discard_symbol mid'' left'' _ _) fun _ w hi _ => Takes.pure ?_
    rintro ⟨right, rfl, hright, rfl⟩ hmethods ⟨left, rfl, hleft, rfl⟩ lo u word hsuper hname hword
    exact .classDeclaration hword hname hsuper hleft hmethods hright
  unfold classFrom
  refine Takes.bind (takes_name lo rest _) fun name u mid left => ?_
  refine Takes.bind (takes_accept mid left _) fun inherits u' mid' left' => ?_
  dsimp only
  refine Takes.ite (fun hinherits => ?_) fun hinherits => ?_
  · refine Takes.bind (takes_name mid' left' _) fun parent v mid'' left'' => ?_
    refine Takes.bind (p := fun w superclass hi _ =>
        w = [] ∧ superclass = some (.variable ⟨mid'', parent⟩) ∧ hi = mid'' + 1)
      (Takes.map (takes_reference mid'' left'' parent) ?_) fun superclass v' hi more => ?_
    · rintro w target hi _ ⟨rfl, rfl, rfl⟩
      exact ⟨rfl, rfl, rfl⟩
    · refine (hbody name superclass hi more).weaken ?_
      rintro w s _ _ _ hs ⟨rfl, rfl, rfl⟩ ⟨rfl, hparent, rfl⟩ ⟨rfl, haccepted, -⟩ ⟨rfl, hname, rfl⟩
        word hword
      obtain ⟨less, hless, rfl, -⟩ := haccepted hinherits
      exact hs _ _ word (.some ((Token.isSymbol_iff less .less).mp hless) hparent) hname hword
  · refine Takes.bind (p := fun w superclass hi _ => w = [] ∧ superclass = none ∧ hi = mid')
      (Takes.pure ⟨rfl, rfl, rfl⟩) fun superclass v' hi more => ?_
    refine (hbody name superclass hi more).weaken ?_
    rintro w s _ _ _ hs ⟨rfl, rfl, rfl⟩ ⟨rfl, -, hnone⟩ ⟨rfl, hname, rfl⟩ word hword
    obtain ⟨rfl, -⟩ := hnone (Bool.eq_false_iff.mpr hinherits)
    exact hs _ _ word .none hname hword

theorem optionalExpression_takes (fuel : Nat) (closing : Symbol) (lo : Nat) (rest : List Token) :
    Takes lo rest (fun w e hi _ => OptionText (ExprText .expression) lo w e hi)
      (optionalExpression fuel closing) := by
  refine Takes.bind (takes_nextIs lo rest _) fun closes u mid left => ?_
  refine Takes.ite (fun _ => Takes.pure ?_) fun _ => Takes.map (expression_takes fuel mid left) ?_
  · rintro ⟨rfl, rfl, -, -⟩
    exact .none
  · rintro w e hi _ he ⟨rfl, rfl, -, -⟩
    exact .some he

theorem variableFrom_takes (fuel lo : Nat) (rest : List Token) :
    Takes lo rest (fun w s hi _ => VariableText lo w s hi) (variableFrom fuel) := by
  unfold variableFrom
  refine Takes.bind (takes_name lo rest _) fun name u mid left => ?_
  refine Takes.bind (takes_accept mid left _) fun initialized u' mid' left' => ?_
  dsimp only
  refine Takes.ite (fun hinitialized => ?_) fun hinitialized => ?_
  · refine Takes.bind (p := fun w found hi _ => ∃ e, found = some e ∧ ExprText .expression mid' w e hi)
      (Takes.map (expression_takes fuel mid' left') fun w e _ _ he => ⟨e, rfl, he⟩)
      fun initializer v mid'' left'' => ?_
    refine Takes.bind (takes_discard_symbol mid'' left'' _ _) fun _ w hi _ => Takes.pure ?_
    rintro ⟨stop, rfl, hstop, rfl⟩ ⟨e, rfl, he⟩ ⟨rfl, haccepted, -⟩ ⟨rfl, hname, rfl⟩
    obtain ⟨equals, hequals, rfl, -⟩ := haccepted hinitialized
    exact .initialized hname ((Token.isSymbol_iff equals .equal).mp hequals) he hstop
  · refine Takes.bind (p := fun w found hi _ => w = [] ∧ found = none ∧ hi = mid')
      (Takes.pure ⟨rfl, rfl, rfl⟩) fun initializer v mid'' left'' => ?_
    refine Takes.bind (takes_discard_symbol mid'' left'' _ _) fun _ w hi _ => Takes.pure ?_
    rintro ⟨stop, rfl, hstop, rfl⟩ ⟨rfl, rfl, rfl⟩ ⟨rfl, -, hnone⟩ ⟨rfl, hname, rfl⟩
    obtain ⟨rfl, -⟩ := hnone (Bool.eq_false_iff.mpr hinitialized)
    exact .bare hname hstop

theorem expressionStatement_takes (fuel lo : Nat) (rest : List Token) :
    Takes lo rest (fun w s hi _ => ExpressionStatementText lo w s hi) (expressionStatement fuel) := by
  refine Takes.bind (expression_takes fuel lo rest) fun e u mid left => ?_
  refine Takes.bind (takes_discard_symbol mid left _ _) fun _ w hi _ => Takes.pure ?_
  rintro ⟨stop, rfl, hstop, rfl⟩ he
  exact .intro he hstop

/-! ## Statements -/

theorem condition_takes (fuel : Nat) (before after : String) (lo : Nat) (rest : List Token) :
    Takes lo rest (fun w e hi _ => ∃ u left right, w = left :: (u ++ [right]) ∧
      left.kind = .symbol .leftParen ∧ ExprText .expression lo u e hi ∧
      right.kind = .symbol .rightParen) (condition fuel before after) := by
  refine Takes.bind (takes_discard_symbol lo rest _ _) fun _ u mid left => ?_
  refine Takes.bind (expression_takes fuel mid left) fun e u' mid' left' => ?_
  refine Takes.bind (takes_discard_symbol mid' left' _ _) fun _ w hi _ => Takes.pure ?_
  rintro ⟨right, rfl, hright, rfl⟩ he ⟨left, rfl, hleft, rfl⟩
  exact ⟨u', left, right, rfl, hleft, he, hright⟩

theorem printFrom_takes (keyword : Token) (fuel lo : Nat) (rest : List Token) :
    Takes lo rest (fun w s hi _ => keyword.kind = .keyword .printWord →
      StmtText false lo (keyword :: w) s hi) (printFrom keyword fuel) := by
  refine Takes.bind (expression_takes fuel lo rest) fun e u mid left => ?_
  refine Takes.bind (takes_discard_symbol mid left _ _) fun _ w hi _ => Takes.pure ?_
  rintro ⟨stop, rfl, hstop, rfl⟩ he hkeyword
  exact .print hkeyword he hstop

theorem returnFrom_takes (keyword : Token) (fuel lo : Nat) (rest : List Token) :
    Takes lo rest (fun w s hi _ => keyword.kind = .keyword .returnWord →
      StmtText false lo (keyword :: w) s hi) (returnFrom keyword fuel) := by
  refine Takes.bind (optionalExpression_takes fuel .semicolon lo rest) fun e u mid left => ?_
  refine Takes.bind (takes_discard_symbol mid left _ _) fun _ w hi _ => Takes.pure ?_
  rintro ⟨stop, rfl, hstop, rfl⟩ he hkeyword
  exact .returnWith hkeyword he hstop

/-- What a statement takes after its first word. -/
def TakesRest (word : Keyword) (r : Reading Stmt) : Prop :=
  ∀ lo rest, Takes lo rest (fun w s hi left => ∀ t : Token, t.kind = .keyword word →
    ∃ dangling, StmtText dangling lo (t :: w) s hi ∧
      (dangling = true → left.head?.any (·.isKeyword .elseWord) = false)) r

theorem whileFrom_takes {statement : Reading Stmt} (h : TakesStatement statement) (fuel : Nat) :
    TakesRest .whileWord (whileFrom statement fuel) := by
  intro lo rest
  refine Takes.bind (condition_takes fuel _ _ lo rest) fun test u mid left => ?_
  refine Takes.map (h mid left) ?_
  rintro w body hi more ⟨dangling, hbody, helse⟩ ⟨u, left, right, rfl, hleft, htest, hright⟩ t ht
  refine ⟨dangling, ?_, helse⟩
  simpa only [List.append_assoc, List.cons_append, List.nil_append] using
    .loop ht hleft htest hright hbody

theorem ifFrom_takes {statement : Reading Stmt} (h : TakesStatement statement) (fuel : Nat) :
    TakesRest .ifWord (ifFrom statement fuel) := by
  intro lo rest
  unfold ifFrom
  refine Takes.bind (condition_takes fuel _ _ lo rest) fun test u mid left => ?_
  refine Takes.bind (h mid left) fun thenBranch v mid' left' => ?_
  refine Takes.bind (takes_accept mid' left' _) fun alternative v' mid'' left'' => ?_
  dsimp only
  refine Takes.ite (fun halternative => ?_) fun halternative => ?_
  · refine Takes.bind (p := fun w found hi left => ∃ s, found = some s ∧ ∃ dangling,
        StmtText dangling mid'' w s hi ∧
          (dangling = true → left.head?.any (·.isKeyword .elseWord) = false))
      (Takes.map (h mid'' left'') fun w s _ _ hs => ⟨s, rfl, hs⟩) fun elseBranch w hi _ => Takes.pure ?_
    rintro ⟨s, rfl, dangling, helse, hnone⟩ ⟨rfl, haccepted, -⟩ ⟨dangling', hthen, hnone'⟩
      ⟨u, left, right, rfl, hleft, htest, hright⟩ t ht
    obtain ⟨other, hother, rfl, rfl⟩ := haccepted halternative
    -- A first branch that could take one more `else` would have taken this one.
    have hclosed : dangling' = false := by
      rw [Bool.eq_false_iff]
      intro hdangling
      have hnext := hnone' hdangling
      simp only [List.head?_cons, Option.any_some] at hnext
      rw [hnext] at hother
      cases hother
    subst hclosed
    refine ⟨dangling, ?_, hnone⟩
    simpa only [List.append_assoc, List.cons_append, List.nil_append, List.append_nil] using
      .alternative ht hleft htest hright hthen ((Token.isKeyword_iff other .elseWord).mp hother) helse
  · refine Takes.bind (p := fun w found hi left => w = [] ∧ found = none ∧ hi = mid'' ∧ left = left'')
      (Takes.pure ⟨rfl, rfl, rfl, rfl⟩) fun elseBranch w hi more => Takes.pure ?_
    rintro ⟨rfl, rfl, rfl, rfl⟩ ⟨rfl, -, hrefused⟩ ⟨dangling, hthen, hnone⟩
      ⟨u, left, right, rfl, hleft, htest, hright⟩ t ht
    obtain ⟨rfl, hnext⟩ := hrefused (Bool.eq_false_iff.mpr halternative)
    refine ⟨true, ?_, fun _ => ?_⟩
    · simpa only [List.append_assoc, List.cons_append, List.nil_append, List.append_nil] using
        .conditional ht hleft htest hright hthen
    · exact hnext

theorem forInitializer_takes (fuel lo : Nat) (rest : List Token) :
    Takes lo rest (fun w initializer hi _ => InitializerText lo w initializer hi)
      (forInitializer fuel) := by
  unfold forInitializer
  refine Takes.bind (takes_accept lo rest _) fun empty u mid left => ?_
  refine Takes.ite (fun hempty => Takes.pure ?_) fun hempty => ?_
  · rintro ⟨rfl, haccepted, -⟩
    obtain ⟨stop, hstop, rfl, -⟩ := haccepted hempty
    exact .none ((Token.isSymbol_iff stop .semicolon).mp hstop)
  · refine Takes.bind (takes_accept mid left _) fun declares u' mid' left' => ?_
    refine Takes.ite (fun hdeclares => ?_) fun hdeclares => ?_
    · refine Takes.map (variableFrom_takes fuel mid' left') ?_
      rintro w s hi _ hs ⟨rfl, haccepted, -⟩ ⟨rfl, -, hnone⟩
      obtain ⟨rfl, -⟩ := hnone (Bool.eq_false_iff.mpr hempty)
      obtain ⟨word, hword, rfl, -⟩ := haccepted hdeclares
      exact .variable ((Token.isKeyword_iff word .varWord).mp hword) hs
    · refine Takes.map (expressionStatement_takes fuel mid' left') ?_
      rintro w s hi _ hs ⟨rfl, -, hnone'⟩ ⟨rfl, -, hnone⟩
      obtain ⟨rfl, -⟩ := hnone (Bool.eq_false_iff.mpr hempty)
      obtain ⟨rfl, -⟩ := hnone' (Bool.eq_false_iff.mpr hdeclares)
      exact .expression hs

theorem forFrom_takes {statement : Reading Stmt} (h : TakesStatement statement) (fuel : Nat) :
    TakesRest .forWord (forFrom statement fuel) := by
  intro lo rest
  unfold forFrom
  refine Takes.bind (takes_discard_symbol lo rest _ _) fun _ u0 lo' left0 => ?_
  refine Takes.bind (forInitializer_takes fuel lo' left0) fun initializer u first left1 => ?_
  refine Takes.bind (optionalExpression_takes fuel .semicolon first left1)
    fun test v second left2 => ?_
  refine Takes.bind (takes_discard_symbol second left2 _ _) fun _ u1 second' left3 => ?_
  refine Takes.bind (optionalExpression_takes fuel .rightParen second' left3)
    fun increment v' third left4 => ?_
  refine Takes.bind (takes_discard_symbol third left4 _ _) fun _ u2 third' left5 => ?_
  refine Takes.map (h third' left5) ?_
  rintro w body hi _ ⟨dangling, hbody, hnone⟩ ⟨right, rfl, hright, rfl⟩ hincrement
    ⟨stop, rfl, hstop, rfl⟩ htest hinit ⟨left, rfl, hleft, rfl⟩ t ht
  exact ⟨dangling, .forLoop ht hleft hinit htest hstop hincrement hright hbody, hnone⟩

/-- Taking the first word of a statement or declaration, where it is there. -/
theorem firstWord_takes {p : Nat → List Token → Stmt → Nat → List Token → Prop} {word : Keyword}
    {r r' : Reading Stmt}
    (h : ∀ lo rest, Takes lo rest (fun w s hi left => ∀ t : Token, t.kind = .keyword word →
      p lo (t :: w) s hi left) r)
    (h' : ∀ lo rest, Takes lo rest (p lo) r') (lo : Nat) (rest : List Token) :
    Takes lo rest (p lo) (do if ← accept (·.isKeyword word) then r else r') := by
  refine Takes.bind (takes_accept lo rest _) fun found u mid left => ?_
  refine Takes.ite (fun hfound => (h mid left).weaken ?_) fun hfound => (h' mid left).weaken ?_
  · rintro w s hi _ _ hs ⟨rfl, haccepted, -⟩
    obtain ⟨t, ht, rfl, -⟩ := haccepted hfound
    exact hs t ((Token.isKeyword_iff t word).mp ht)
  · rintro w s hi _ _ hs ⟨rfl, -, hnone⟩
    obtain ⟨rfl, -⟩ := hnone (Bool.eq_false_iff.mpr hfound)
    exact hs

theorem statementForm_takes {declaration statement : Reading Stmt}
    (hd : TakesDeclaration declaration) (hs : TakesStatement statement) (fuel : Nat) :
    TakesStatement (statementForm declaration statement fuel) := by
  unfold statementForm
  refine firstWord_takes (forFrom_takes hs fuel) ?_
  refine firstWord_takes (ifFrom_takes hs fuel) ?_
  refine firstWord_takes (whileFrom_takes hs fuel) ?_
  intro lo rest
  refine Takes.bind (takes_takeIf lo rest _) fun isReturn u mid left => ?_
  cases isReturn with
  | some keyword =>
    refine (returnFrom_takes keyword fuel mid left).weaken ?_
    rintro w s hi _ _ hs ⟨rfl, rfl, hsome, -⟩
    exact ⟨false, hs ((Token.isKeyword_iff keyword .returnWord).mp (hsome keyword rfl).1), nofun⟩
  | none =>
    refine Takes.bind (takes_accept mid left _) fun isBlock u' mid' left' => ?_
    refine Takes.ite (fun hblock => ?_) fun hblock => ?_
    · refine Takes.map (block_takes hd fuel mid' left') ?_
      rintro w body hi _ ⟨w, closing, rfl, hbody, hclosing⟩ ⟨rfl, haccepted, -⟩ ⟨rfl, rfl, -, -⟩
      obtain ⟨opening, hopening, rfl, -⟩ := haccepted hblock
      exact ⟨false, .block ((Token.isSymbol_iff opening .leftBrace).mp hopening) hbody hclosing, nofun⟩
    · refine Takes.bind (takes_takeIf mid' left' _) fun isPrint v mid'' left'' => ?_
      cases isPrint with
      | some keyword =>
        refine (printFrom_takes keyword fuel mid'' left'').weaken ?_
        rintro w s hi _ _ hs ⟨rfl, rfl, hsome, -⟩ ⟨rfl, -, hnone⟩ ⟨rfl, rfl, -, -⟩
        obtain ⟨rfl, -⟩ := hnone (Bool.eq_false_iff.mpr hblock)
        exact ⟨false, hs ((Token.isKeyword_iff keyword .printWord).mp (hsome keyword rfl).1), nofun⟩
      | none =>
        refine (expressionStatement_takes fuel mid'' left'').weaken ?_
        rintro w s hi _ _ hs ⟨rfl, rfl, -, -⟩ ⟨rfl, -, hnone⟩ ⟨rfl, rfl, -, -⟩
        obtain ⟨rfl, -⟩ := hnone (Bool.eq_false_iff.mpr hblock)
        exact ⟨false, .expression hs, nofun⟩

theorem declarationForm_takes {declaration statement : Reading Stmt}
    (hd : TakesDeclaration declaration) (hs : TakesStatement statement) (fuel : Nat) :
    TakesDeclaration (declarationForm declaration statement fuel) := by
  have hfunction : ∀ lo rest, Takes lo rest (fun w s hi _ => ∀ t : Token,
      t.kind = .keyword .funWord → DeclarationText lo (t :: w) s hi)
      (do return .function (← function declaration fuel "function")) := by
    intro lo rest
    refine Takes.map (function_takes hd fuel _ lo rest) ?_
    rintro w d hi _ hd t ht
    exact .function ht hd
  have hvariable : ∀ lo rest, Takes lo rest (fun w s hi _ => ∀ t : Token,
      t.kind = .keyword .varWord → DeclarationText lo (t :: w) s hi) (variableFrom fuel) :=
    fun lo rest => (variableFrom_takes fuel lo rest).weaken fun _ _ _ _ _ hs _ ht => .variable ht hs
  unfold declarationForm
  refine firstWord_takes (classFrom_takes hd fuel) ?_
  refine firstWord_takes hfunction ?_
  refine firstWord_takes hvariable ?_
  exact (statementForm_takes hd hs fuel).takesDeclaration

theorem statement_takes (fuel : Nat) :
    TakesStatement (statement fuel) ∧ TakesDeclaration (declaration fuel) := by
  induction fuel with
  | zero => exact ⟨fun lo rest => takes_tooDeep lo rest _, fun lo rest => takes_tooDeep lo rest _⟩
  | succ fuel ih =>
    exact ⟨statementForm_takes ih.2 ih.1 fuel,
      fun lo rest => (declarationForm_takes ih.2 ih.1 fuel lo rest).recovering⟩

end Reading

/-! ## Programs and single expressions -/

theorem programItemsFrom_takes (depth fuel : Nat) (c : Cursor) (hc : c.noted = [])
    (hclean : (programItemsFrom depth fuel c).1.filterMap ProgramItem.fault? = []) :
    ListText DeclarationText c.nextId c.rest
      ((programItemsFrom depth fuel c).1.filterMap ProgramItem.declaration?)
      (programItemsFrom depth fuel c).2 := by
  induction fuel generalizing c with
  | zero => simp [programItemsFrom, ProgramItem.fault?] at hclean
  | succ fuel ih =>
    unfold programItemsFrom at hclean ⊢
    split
    · rename_i hempty
      rw [List.isEmpty_iff.mp hempty]
      exact .nil
    · rename_i hmore
      rw [if_neg hmore] at hclean
      have hitem := (Reading.statement_takes depth).2 c.nextId c.rest c rfl rfl
      unfold readItem at hclean ⊢
      cases hr : (Reading.declaration depth : Reading Stmt) c with
      | error stop after =>
        rw [hr] at hclean
        simp [ProgramItem.fault?] at hclean
      | ok s after =>
        rw [hr] at hclean hitem
        simp only [List.filterMap_append, List.filterMap_cons, ProgramItem.fault?,
          List.append_eq_nil_iff, List.filterMap_map] at hclean
        obtain ⟨hnoted, hrest⟩ := hclean
        have hnone : after.noted = [] := by
          rw [List.eq_nil_iff_forall_not_mem]
          intro f hf
          have hfault := List.filterMap_eq_nil_iff.mp hnoted f hf
          cases hfault
        obtain ⟨w, hw, hs⟩ := hitem.2 (hnone.trans hc.symm)
        have hmore := ih { after with noted := [] } rfl hrest
        simp only [hnone, List.map_nil, List.nil_append, List.filterMap_cons,
          ProgramItem.declaration?]
        rw [hw]
        exact .cons hs hmore

/-- A program that is read without a fault has been read from its text. -/
theorem program_text {tokens : List Token} {nextId : Nat} {program : List Stmt}
    (h : programOfItems (programItems tokens nextId).1 = .ok program) :
    ListText DeclarationText nextId (tokens.takeWhile (!·.isEnd)) program
      (programItems tokens nextId).2 := by
  unfold programOfItems at h
  split at h
  · rename_i hclean
    cases h
    exact programItemsFrom_takes _ _ (.start tokens nextId) rfl hclean
  · cases h

theorem expression_text {tokens : List Token} {nextId : Nat} {e : Expr}
    (h : (expressionOfTokens tokens nextId).1 = .ok e) :
    ExprText .expression nextId (tokens.takeWhile (!·.isEnd)) e
      (expressionOfTokens tokens nextId).2 := by
  have hread := Reading.expression_takes (depthBound tokens) nextId _ (.start tokens nextId) rfl rfl
  unfold expressionOfTokens Reading.wholeExpression at h ⊢
  simp only [bind, EStateM.bind] at h ⊢
  cases hr : (Reading.expression (depthBound tokens) : Reading Expr) (.start tokens nextId) with
  | error stop after =>
    simp only [hr] at h
    cases h
  | ok e' after =>
    simp only [hr] at h hread ⊢
    obtain ⟨hgrows, hclean⟩ := hread
    cases hnoted : after.noted with
    | cons f noted =>
      simp only [hnoted] at h
      cases h
    | nil =>
      simp only [hnoted] at h ⊢
      by_cases hend : after.rest.isEmpty = true
      · simp only [hend, if_true] at h ⊢
        cases h
        obtain ⟨w, hw, he⟩ := hclean hnoted
        rw [List.isEmpty_iff.mp hend, List.append_nil] at hw
        subst hw
        exact he
      · simp only [hend] at h
        cases h

end LoxLang
