import LoxLang.Proofs.Syntax.Reading
import LoxLang.Proofs.Syntax.Trees

/-!
Every expression that is read is well formed and has identities of its own, whatever the tokens are.
There is one lemma for each rule of the grammar; a rule that nests another is given what that one
reads.
-/
namespace LoxLang.Reading
set_option autoImplicit false

/-- What an expression read from `lo` on is like. -/
def GoodExpr (admits : Token → Prop) (lo : Nat) (e : Expr) (hi : Nat) : Prop :=
  e.WellFormed admits ∧ Fresh lo hi (referenceIds e.references)

def GoodExpr? (admits : Token → Prop) (lo : Nat) (e : Option Expr) (hi : Nat) : Prop :=
  Expr.OptionWellFormed admits e ∧ Fresh lo hi (referenceIds (Expr.referencesOption e))

/-- A reading of expressions. -/
def ReadsExpr (admits : Token → Prop) (r : Reading Expr) : Prop :=
  ∀ lo, From admits lo (GoodExpr admits lo) r

section Rules
variable {admits : Token → Prop}

theorem GoodExpr.two {lo mid hi : Nat} {left right : Expr} (hl : GoodExpr admits lo left mid)
    (hr : GoodExpr admits mid right hi) (hlo : lo ≤ mid) (hhi : mid ≤ hi) :
    Fresh lo hi (referenceIds (left.references ++ right.references)) := by
  rw [referenceIds_append]
  exact hl.2.append hr.2 hlo hhi

theorem some_map_reads {lo : Nat} {r : Reading Expr} (h : ReadsExpr admits r) :
    From admits lo (GoodExpr? admits lo) (some <$> r) :=
  From.map (h lo) fun _ _ _ he => he

/-! ## Lists between parentheses -/

/-- Items of any sort: each has the property `good`, and identities of its own. -/
theorem commaList_from {α : Type} {good : α → Prop} {ids : α → List Nat} (excess : SyntaxCause)
    {item : Reading α}
    (hitem : ∀ lo, From admits lo (fun a hi => good a ∧ Fresh lo hi (ids a)) item)
    (fuel count lo : Nat) :
    From admits lo (fun as hi => (∀ a ∈ as, good a) ∧ Fresh lo hi (as.flatMap ids))
      (commaList excess item fuel count) := by
  induction fuel generalizing count lo with
  | zero => exact from_tooDeep admits lo _
  | succ fuel ih =>
    have hitems : From admits lo (fun as hi => (∀ a ∈ as, good a) ∧ Fresh lo hi (as.flatMap ids))
        (do
          let first ← item
          if ← accept (·.isSymbol .comma) then
            return first :: (← commaList excess item fuel (count + 1))
          else
            return [first]) := by
      refine From.bind (hitem lo) fun first mid hlo hfirst => ?_
      refine From.bind (from_accept admits mid _) fun more mid' _ hmid => ?_
      subst hmid
      refine From.ite (fun _ => ?_) fun _ => From.pure ?_
      · refine From.map (ih (count + 1) mid') fun rest hi hhi hrest => ⟨?_, ?_⟩
        · exact List.forall_mem_cons.mpr ⟨hfirst.1, hrest.1⟩
        · rw [List.flatMap_cons]
          exact hfirst.2.append hrest.2 hlo hhi
      · exact ⟨by simpa using hfirst.1, by simpa using hfirst.2⟩
    rw [commaList]
    refine From.ite (fun _ => ?_) fun _ => hitems
    refine From.bind (from_peek admits lo) fun t mid _ hpeek => ?_
    refine From.bind (from_note admits mid excess t) fun _ mid' _ hnote => ?_
    rw [hnote, hpeek.1]
    exact hitems

theorem parenthesized_from {α : Type} {good : α → Prop} {ids : α → List Nat} (excess : SyntaxCause)
    {item : Reading α}
    (hitem : ∀ lo, From admits lo (fun a hi => good a ∧ Fresh lo hi (ids a)) item)
    (fuel : Nat) (what : String) (lo : Nat) :
    From admits lo (fun read hi => (∀ a ∈ read.1, good a) ∧ Fresh lo hi (read.1.flatMap ids))
      (parenthesized excess item fuel what) := by
  have hclose : ∀ (items : List α) (mid : Nat), (∀ a ∈ items, good a) →
      Fresh lo mid (items.flatMap ids) →
      From admits mid (fun read hi => (∀ a ∈ read.1, good a) ∧ Fresh lo hi (read.1.flatMap ids))
        (do return (items, ← expectSymbol .rightParen what)) := by
    intro items mid hgood hfresh
    refine From.map (from_expect admits mid _ what) fun paren hi _ hparen => ⟨hgood, ?_⟩
    rw [hparen.1]
    exact hfresh
  unfold parenthesized
  refine From.bind (from_nextIs admits lo _) fun empty mid _ hmid => ?_
  subst hmid
  dsimp only
  refine From.ite (fun _ => ?_) fun _ => ?_
  · refine From.bind (From.pure (p := fun items hi => items = [] ∧ hi = mid) ⟨rfl, rfl⟩) ?_
    rintro items mid' _ ⟨rfl, rfl⟩
    exact hclose [] mid' nofun (Fresh.nil mid' mid')
  · exact From.bind (commaList_from excess hitem fuel 0 mid) fun items mid' _ h =>
      hclose items mid' h.1 h.2

theorem allWellFormed_of_forall {es : List Expr} (h : ∀ e ∈ es, e.WellFormed admits) :
    Expr.AllWellFormed admits es := by
  induction es with
  | nil => trivial
  | cons e rest ih =>
    obtain ⟨he, hrest⟩ := List.forall_mem_cons.mp h
    exact ⟨he, ih hrest⟩

theorem flatMap_referenceIds (es : List Expr) :
    es.flatMap (fun e => referenceIds e.references) = referenceIds (Expr.referencesAll es) := by
  induction es with
  | nil => rfl
  | cons e rest ih => rw [List.flatMap_cons, ih, Expr.referencesAll, referenceIds_append]

/-! ## Operands -/

theorem primary_reads {r : Reading Expr} (hr : ReadsExpr admits r) :
    ReadsExpr admits (primary r) := by
  intro lo
  unfold primary
  refine From.bind (from_peek admits lo) fun t mid _ ht => ?_
  obtain ⟨rfl, hadmits⟩ := ht
  have hskip : ∀ {rest : Unit → Reading Expr}, From admits mid (GoodExpr admits mid) (rest ()) →
      From admits mid (GoodExpr admits mid) (skip >>= rest) := fun hrest =>
    From.bind (from_skip admits mid) fun _ mid' _ hmid => hmid ▸ hrest
  split
  · rename_i hk
    refine hskip (From.map (from_reference admits mid t) fun target hi _ href => ?_)
    obtain ⟨rfl, rfl⟩ := href
    exact ⟨⟨hadmits (by simp [Token.isEnd, hk, TokenKind.same]), by rw [hk]; rfl⟩,
      Fresh.single mid⟩
  · rename_i hk
    refine hskip (From.map (from_reference admits mid t) fun keyword hi _ href => ?_)
    obtain ⟨rfl, rfl⟩ := href
    exact ⟨⟨hadmits (by simp [Token.isEnd, hk, TokenKind.same]), by rw [Token.isKeyword, hk]; rfl⟩,
      Fresh.single mid⟩
  · rename_i hk
    refine hskip (From.bind (from_discard_expect admits mid _ _) fun _ mid' _ hmid => ?_)
    refine From.bind (from_expect admits mid' _ _) fun method mid'' _ hmethod => ?_
    obtain ⟨hmid', hmethod⟩ := hmethod
    rw [hmid', hmid]
    refine From.bind (from_reference admits mid t) fun keyword hi _ href => From.pure ?_
    obtain ⟨rfl, rfl⟩ := href
    exact ⟨⟨⟨hadmits (by simp [Token.isEnd, hk, TokenKind.same]),
      by rw [Token.isKeyword, hk]; rfl⟩, hmethod⟩, Fresh.single mid⟩
  · refine hskip (From.bind (hr mid) fun inner mid' _ hinner => ?_)
    refine From.map (from_discard_expect admits mid' _ _) fun _ hi _ hhi => ?_
    rw [hhi]
    exact hinner
  · split
    · exact hskip (From.pure ⟨trivial, Fresh.nil mid mid⟩)
    · exact from_failHere admits mid _ _

theorem callsFrom_from {r : Reading Expr} (hr : ReadsExpr admits r) (fuel lo mid : Nat)
    {callee : Expr} (hlo : lo ≤ mid) (hcallee : GoodExpr admits lo callee mid) :
    From admits mid (GoodExpr admits lo) (callsFrom r fuel callee) := by
  induction fuel generalizing callee mid with
  | zero => exact from_tooDeep admits mid _
  | succ fuel ih =>
    rw [callsFrom]
    refine From.bind (from_accept admits mid _) fun opens mid' _ hmid => ?_
    subst hmid
    refine From.ite (fun _ => ?_) fun _ => ?_
    · refine From.bind (parenthesized_from .tooManyArguments hr fuel _ mid') ?_
      rintro ⟨arguments, paren⟩ hi hhi ⟨hall, hfresh⟩
      refine ih hi (Nat.le_trans hlo hhi) ⟨⟨hcallee.1, allWellFormed_of_forall hall⟩, ?_⟩
      rw [Expr.references, referenceIds_append, ← flatMap_referenceIds]
      exact hcallee.2.append hfresh hlo hhi
    · refine From.bind (from_accept admits mid' _) fun dot mid'' _ hmid => ?_
      subst hmid
      refine From.ite (fun _ => ?_) fun _ => From.pure hcallee
      refine From.bind (from_expect admits mid'' _ _) fun name hi _ hname => ?_
      obtain ⟨rfl, hname⟩ := hname
      exact ih hi hlo ⟨⟨hcallee.1, hname⟩, hcallee.2⟩

theorem call_reads {r : Reading Expr} (hr : ReadsExpr admits r) (fuel : Nat) :
    ReadsExpr admits (call r fuel) := fun lo =>
  From.bind (primary_reads hr lo) fun _ mid hlo hcallee =>
    callsFrom_from hr fuel lo mid hlo hcallee

/-! ## Operators -/

theorem unary_reads {operand : Reading Expr} (h : ReadsExpr admits operand) (fuel : Nat) :
    ReadsExpr admits (unary operand fuel) := by
  induction fuel with
  | zero => exact fun lo => from_tooDeep admits lo _
  | succ fuel ih =>
    intro lo
    rw [unary]
    refine From.bind (from_takeIf admits lo _) fun found mid _ hfound => ?_
    obtain ⟨rfl, hfound⟩ := hfound
    cases found with
    | none => exact h mid
    | some operator =>
      refine From.map (ih mid) fun e hi _ he => ⟨⟨?_, he.1⟩, he.2⟩
      simpa using (hfound operator rfl).2

/-- A level of operators joins two sides to a tree that the grammar allows. -/
def OperatorLevel.Joins (admits : Token → Prop) (level : OperatorLevel) : Prop :=
  ∀ (left : Expr) (operator : Token) (right : Expr), level.admits operator = true →
    left.WellFormed admits → right.WellFormed admits →
    (level.node left operator right).WellFormed admits ∧
      (level.node left operator right).references = left.references ++ right.references

theorem joins_of_mem_all {level : OperatorLevel} (h : level ∈ OperatorLevel.all) :
    OperatorLevel.Joins admits level := by
  intro left operator right hadmits hl hr
  simp only [OperatorLevel.all, List.mem_cons, List.not_mem_nil, or_false] at h
  obtain ⟨kind, hkind, hsame⟩ := List.any_eq_true.mp hadmits
  rcases h with rfl | rfl | rfl | rfl | rfl | rfl
  all_goals
    simp only [List.mem_cons, List.not_mem_nil, or_false] at hkind
    refine ⟨⟨?_, hl, hr⟩, rfl⟩
    simp only [Symbol.binary, List.mem_cons, Token.isSymbol, Token.isKeyword]
    grind

theorem operatorsFrom_from {level : OperatorLevel} (hlevel : OperatorLevel.Joins admits level)
    {operand : Reading Expr} (h : ReadsExpr admits operand) (fuel lo mid : Nat) {left : Expr}
    (hlo : lo ≤ mid) (hleft : GoodExpr admits lo left mid) :
    From admits mid (GoodExpr admits lo) (operatorsFrom level operand fuel left) := by
  induction fuel generalizing left mid with
  | zero => exact from_tooDeep admits mid _
  | succ fuel ih =>
    rw [operatorsFrom]
    refine From.bind (from_takeIf admits mid _) fun found mid' _ hfound => ?_
    obtain ⟨rfl, hfound⟩ := hfound
    cases found with
    | none => exact From.pure hleft
    | some operator =>
      refine From.bind (h mid') fun right hi hhi hright => ih hi (Nat.le_trans hlo hhi) ?_
      obtain ⟨hwell, hrefs⟩ :=
        hlevel left operator right (hfound operator rfl).2 hleft.1 hright.1
      exact ⟨hwell, by rw [hrefs]; exact hleft.two hright hlo hhi⟩

theorem joined_reads {operand : Reading Expr} (h : ReadsExpr admits operand) (fuel : Nat)
    (levels : List OperatorLevel) (hlevels : ∀ level ∈ levels, OperatorLevel.Joins admits level) :
    ReadsExpr admits (joined operand fuel levels) := by
  induction levels with
  | nil => exact h
  | cons level tighter ih =>
    obtain ⟨hlevel, htighter⟩ := List.forall_mem_cons.mp hlevels
    have hnext := ih htighter
    exact fun lo => From.bind (hnext lo) fun left mid hlo hleft =>
      operatorsFrom_from hlevel hnext fuel lo mid hlo hleft

theorem assignment_reads {r : Reading Expr} (hr : ReadsExpr admits r) (fuel : Nat) :
    ReadsExpr admits (assignment r fuel) := by
  intro lo
  have htarget := joined_reads (unary_reads (call_reads hr fuel) fuel) fuel OperatorLevel.all
    fun level => joins_of_mem_all
  unfold assignment
  refine From.bind (htarget lo) fun target mid hlo htarget => ?_
  refine From.bind (from_takeIf admits mid _) fun equals mid' _ hequals => ?_
  obtain ⟨rfl, -⟩ := hequals
  cases equals with
  | none => exact From.pure htarget
  | some equals =>
    refine From.bind (hr mid') fun value hi hhi hvalue => ?_
    have hkept : GoodExpr admits lo target hi :=
      ⟨htarget.1, htarget.2.mono (Nat.le_refl lo) hhi⟩
    have hboth := htarget.two hvalue hlo hhi
    split
    · rename_i read
      refine From.bind (from_reference admits hi read.name) fun target hi' _ href => From.pure ?_
      obtain ⟨rfl, rfl⟩ := href
      have hids := (hvalue.2.mono hlo (Nat.le_refl hi)).append (Fresh.single hi)
        (Nat.le_trans hlo hhi) (Nat.le_succ hi)
      exact ⟨⟨htarget.1, hvalue.1⟩, hids.perm List.perm_append_comm⟩
    · exact From.pure ⟨⟨htarget.1.1, htarget.1.2, hvalue.1⟩, hboth⟩
    · refine From.bind (from_note admits hi _ equals) fun _ hi' _ hhi' => From.pure ?_
      rw [hhi']
      exact hkept

/-- Every expression that is read is well formed and has identities of its own. -/
theorem expression_reads (fuel : Nat) : ReadsExpr admits (expression fuel) := by
  induction fuel with
  | zero => exact fun lo => from_tooDeep admits lo _
  | succ fuel ih => exact assignment_reads ih fuel

theorem wholeExpression_reads (fuel : Nat) : ReadsExpr admits (wholeExpression fuel) := by
  intro lo
  refine From.bind (expression_reads fuel lo) fun e mid _ he c hmid ht => ?_
  obtain ⟨rest, endLine, noted, nextId⟩ := c
  cases noted with
  | cons f more => exact ⟨List.suffix_refl _, Nat.le_of_eq hmid.symm⟩
  | nil =>
    cases rest with
    | nil => exact From.pure he _ hmid ht
    | cons t rest =>
      exact from_failHere admits mid (GoodExpr admits lo) (.expected "end of expression") _ hmid ht

end Rules
end LoxLang.Reading
