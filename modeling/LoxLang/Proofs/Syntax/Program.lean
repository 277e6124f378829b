import LoxLang.Proofs.Syntax.Expression
import LoxLang.Syntax.Statement

/-!
Every statement that is read is well formed and has identities of its own, also next to faults.
`program_good` says it of whole programs: the identities of a program come after all that were given
before it was read.
-/
namespace LoxLang
open Reading
set_option autoImplicit false

namespace Reading

/-- What a statement read from `lo` on is like. -/
def GoodStmt (admits : Token → Prop) (lo : Nat) (s : Stmt) (hi : Nat) : Prop :=
  s.WellFormed admits ∧ Fresh lo hi (referenceIds s.references)

def GoodStmts (admits : Token → Prop) (lo : Nat) (body : List Stmt) (hi : Nat) : Prop :=
  Stmt.AllWellFormed admits body ∧ Fresh lo hi (referenceIds (Stmt.referencesAll body))

def GoodFunction (admits : Token → Prop) (lo : Nat) (d : FunctionDeclaration) (hi : Nat) : Prop :=
  d.WellFormed admits ∧ Fresh lo hi (referenceIds d.references)

/-- A reading of declarations and statements. -/
def ReadsStmt (admits : Token → Prop) (r : Reading Stmt) : Prop :=
  ∀ lo, From admits lo (GoodStmt admits lo) r

/-- A reading of statements that are no declarations. -/
def ReadsPlain (admits : Token → Prop) (r : Reading Stmt) : Prop :=
  ∀ lo, From admits lo (fun s hi => GoodStmt admits lo s hi ∧ s.isDeclaration = false) r

section Rules
variable {admits : Token → Prop}

theorem ReadsPlain.readsStmt {r : Reading Stmt} (h : ReadsPlain admits r) : ReadsStmt admits r :=
  fun lo => (h lo).weaken fun _ _ _ hs => hs.1

/-! ## Blocks and functions -/

/-- A fault inside a block leaves nothing behind but the identities that were given. -/
theorem attempt_from {declaration : Reading Stmt} (h : ReadsStmt admits declaration) (lo : Nat) :
    From admits lo (fun found hi => GoodStmts admits lo found.toList hi)
      (attempt declaration) := by
  intro c hlo ht
  have hc := h lo c hlo ht
  unfold attempt
  cases hr : declaration c with
  | ok s after =>
    rw [hr] at hc
    obtain ⟨hsuffix, hle, hgood⟩ := hc
    refine ⟨hsuffix, hle, ⟨hgood.1, trivial⟩, ?_⟩
    simpa [Stmt.referencesAll] using hgood.2
  | error stop after =>
    rw [hr] at hc
    cases stop with
    | fault f => exact ⟨hc.1, hc.2, trivial, Fresh.nil lo _⟩
    | tooDeep => exact hc

theorem declarationsFrom_from {declaration : Reading Stmt} (h : ReadsStmt admits declaration)
    (fuel lo : Nat) : From admits lo (GoodStmts admits lo) (declarationsFrom declaration fuel) := by
  induction fuel generalizing lo with
  | zero => exact from_tooDeep admits lo _
  | succ fuel ih =>
    have hmore : From admits lo (GoodStmts admits lo) (do
        let first ← attempt declaration
        let rest ← declarationsFrom declaration fuel
        return first.toList ++ rest) := by
      refine From.bind (attempt_from h lo) fun first mid hlo hfirst => ?_
      refine From.map (ih mid) fun rest hi hhi hrest => ⟨?_, ?_⟩
      · exact Stmt.allWellFormed_append hfirst.1 hrest.1
      · rw [Stmt.referencesAll_append, referenceIds_append]
        exact hfirst.2.append hrest.2 hlo hhi
    rw [declarationsFrom]
    refine From.after (from_atEnd admits lo) fun atEnd => ?_
    refine From.after (from_nextIs admits lo _) fun closes => ?_
    exact From.ite (fun _ => From.pure ⟨trivial, Fresh.nil lo lo⟩) fun _ => hmore

theorem block_from {declaration : Reading Stmt} (h : ReadsStmt admits declaration) (fuel lo : Nat) :
    From admits lo (GoodStmts admits lo) (block declaration fuel) := by
  refine From.bind (declarationsFrom_from h fuel lo) fun body mid _ hbody => ?_
  refine From.bind (from_discard_expect admits mid _ _) fun _ hi _ hhi => From.pure ?_
  rw [hhi]
  exact hbody

theorem function_from {declaration : Reading Stmt} (h : ReadsStmt admits declaration)
    (fuel : Nat) (kind : String) (lo : Nat) :
    From admits lo (GoodFunction admits lo) (function declaration fuel kind) := by
  have hparam : ∀ lo, From admits lo
      (fun t hi => t.IsName admits ∧ Fresh lo hi ((fun _ => []) t : List Nat))
      (expectName "parameter name") := fun lo =>
    (from_expect admits lo _ _).weaken fun t hi _ ht => ⟨ht.2, Fresh.nil lo hi⟩
  unfold function
  refine From.bind (from_expect admits lo _ _) fun name mid _ hname => ?_
  obtain ⟨rfl, hname⟩ := hname
  refine From.after (from_discard_expect admits mid _ _) fun _ => ?_
  refine From.bind (parenthesized_from .tooManyParameters hparam fuel _ mid) ?_
  rintro ⟨params, paren⟩ mid' hmid ⟨hparams, -⟩
  refine From.after (from_discard_expect admits mid' _ _) fun _ => ?_
  refine From.bind (block_from h fuel mid') fun body hi hhi hbody => From.pure ?_
  exact ⟨⟨hname, hparams, hbody.1⟩, hbody.2.mono hmid (Nat.le_refl hi)⟩

theorem methodsFrom_from {declaration : Reading Stmt} (h : ReadsStmt admits declaration)
    (fuel lo : Nat) :
    From admits lo
      (fun methods hi => FunctionDeclaration.AllWellFormed admits methods ∧
        Fresh lo hi (referenceIds (FunctionDeclaration.referencesAll methods)))
      (methodsFrom declaration fuel) := by
  induction fuel generalizing lo with
  | zero => exact from_tooDeep admits lo _
  | succ fuel ih =>
    rw [methodsFrom]
    refine From.after (from_atEnd admits lo) fun atEnd => ?_
    refine From.after (from_nextIs admits lo _) fun closes => ?_
    refine From.ite (fun _ => From.pure ⟨trivial, Fresh.nil lo lo⟩) fun _ => ?_
    refine From.bind (function_from h fuel _ lo) fun first mid hlo hfirst => ?_
    refine From.bind (ih mid) fun rest hi hhi hrest => From.pure ⟨⟨hfirst.1, hrest.1⟩, ?_⟩
    rw [FunctionDeclaration.referencesAll, referenceIds_append]
    exact hfirst.2.append hrest.2 hlo hhi

theorem classFrom_reads {declaration : Reading Stmt} (h : ReadsStmt admits declaration)
    (fuel : Nat) : ReadsStmt admits (classFrom declaration fuel) := by
  intro lo
  have hbody : ∀ (name : Token) (superclass : Option Expr) (mid : Nat), lo ≤ mid →
      name.IsName admits → (∀ parent ∈ superclass, parent.IsVariable admits) →
      Fresh lo mid (referenceIds (Expr.referencesOption superclass)) →
      From admits mid (GoodStmt admits lo) (do
        discard (expectSymbol .leftBrace "'\x7b' before class body")
        let methods ← methodsFrom declaration fuel
        discard (expectSymbol .rightBrace "'\x7d' after class body")
        return .classDeclaration name superclass methods) := by
    intro name superclass mid hlo hname hparent hfresh
    refine From.after (from_discard_expect admits mid _ _) fun _ => ?_
    refine From.bind (methodsFrom_from h fuel mid) fun methods hi hhi hmethods => ?_
    refine From.after (from_discard_expect admits hi _ _) fun _ => From.pure ?_
    refine ⟨⟨hname, hparent, hmethods.1⟩, ?_⟩
    rw [Stmt.references, referenceIds_append]
    exact hfresh.append hmethods.2 hlo hhi
  unfold classFrom
  refine From.bind (from_expect admits lo _ _) fun name mid _ hname => ?_
  obtain ⟨rfl, hname⟩ := hname
  refine From.after (from_accept admits mid _) fun inherits => ?_
  dsimp only
  refine From.ite (fun _ => ?_) fun _ => ?_
  · refine From.bind (from_expect admits mid _ _) fun parent mid' _ hparent => ?_
    obtain ⟨rfl, hparent⟩ := hparent
    refine From.bind
      (p := fun superclass hi => hi = mid' + 1 ∧ superclass = some (.variable ⟨mid', parent⟩))
      (From.map (from_reference admits mid' parent) ?_) ?_
    · rintro target hi _ ⟨rfl, rfl⟩
      exact ⟨rfl, rfl⟩
    · rintro superclass hi _ ⟨rfl, rfl⟩
      refine hbody name _ _ (Nat.le_succ mid') hname ?_ (Fresh.single mid')
      rintro _ ⟨⟩
      exact ⟨_, rfl, hparent⟩
  · refine From.bind (p := fun superclass hi => hi = mid ∧ superclass = none)
      (From.pure ⟨rfl, rfl⟩) ?_
    rintro superclass hi _ ⟨rfl, rfl⟩
    exact hbody name none hi (Nat.le_refl hi) hname nofun (Fresh.nil hi hi)

/-! ## Expressions in statements -/

theorem optionalExpression_from (fuel : Nat) (closing : Symbol) (lo : Nat) :
    From admits lo (GoodExpr? admits lo) (optionalExpression fuel closing) := by
  unfold optionalExpression
  refine From.after (from_nextIs admits lo _) fun closes => ?_
  exact From.ite (fun _ => From.pure ⟨trivial, Fresh.nil lo lo⟩)
    fun _ => some_map_reads (expression_reads fuel)

theorem variableFrom_reads (fuel : Nat) : ReadsStmt admits (variableFrom fuel) := by
  intro lo
  have hend : ∀ (name : Token) (initializer : Option Expr) (mid : Nat), name.IsName admits →
      GoodExpr? admits lo initializer mid →
      From admits mid (GoodStmt admits lo) (do
        discard (expectSymbol .semicolon "';' after variable declaration")
        return .variable name initializer) := by
    intro name initializer mid hname hinit
    exact From.after (from_discard_expect admits mid _ _) fun _ =>
      From.pure ⟨⟨hname, hinit.1⟩, hinit.2⟩
  unfold variableFrom
  refine From.bind (from_expect admits lo _ _) fun name mid _ hname => ?_
  obtain ⟨rfl, hname⟩ := hname
  refine From.after (from_accept admits mid _) fun initialized => ?_
  dsimp only
  refine From.ite (fun _ => ?_) fun _ => ?_
  · exact From.bind (some_map_reads (expression_reads fuel)) fun initializer hi _ hinit =>
      hend name initializer hi hname hinit
  · exact From.bind (p := GoodExpr? admits mid) (From.pure ⟨trivial, Fresh.nil mid mid⟩)
      fun initializer hi _ hinit => hend name initializer hi hname hinit

theorem expressionStatement_reads (fuel : Nat) : ReadsPlain admits (expressionStatement fuel) := by
  intro lo
  refine From.bind (expression_reads fuel lo) fun value mid _ hvalue => ?_
  exact From.after (from_discard_expect admits mid _ _) fun _ => From.pure ⟨hvalue, rfl⟩

theorem printFrom_reads (keyword : Token) (fuel : Nat) :
    ReadsPlain admits (printFrom keyword fuel) := by
  intro lo
  refine From.bind (expression_reads fuel lo) fun value mid _ hvalue => ?_
  exact From.after (from_discard_expect admits mid _ _) fun _ => From.pure ⟨hvalue, rfl⟩

theorem returnFrom_reads (keyword : Token) (fuel : Nat) :
    ReadsPlain admits (returnFrom keyword fuel) := by
  intro lo
  refine From.bind (optionalExpression_from fuel .semicolon lo) fun value mid _ hvalue => ?_
  exact From.after (from_discard_expect admits mid _ _) fun _ => From.pure ⟨hvalue, rfl⟩

theorem condition_reads (fuel : Nat) (before after : String) :
    ReadsExpr admits (condition fuel before after) := by
  intro lo
  refine From.after (from_discard_expect admits lo _ _) fun _ => ?_
  refine From.bind (expression_reads fuel lo) fun e mid _ he => ?_
  exact From.after (from_discard_expect admits mid _ _) fun _ => From.pure he

/-! ## Conditionals and loops -/

theorem ifFrom_reads {statement : Reading Stmt} (h : ReadsPlain admits statement) (fuel : Nat) :
    ReadsPlain admits (ifFrom statement fuel) := by
  intro lo
  unfold ifFrom
  refine From.bind (condition_reads fuel _ _ lo) fun test mid hlo htest => ?_
  refine From.bind (h mid) fun thenBranch mid' hmid hthen => ?_
  refine From.after (from_accept admits mid' _) fun alternative => ?_
  dsimp only
  refine From.ite (fun _ => ?_) fun _ => ?_
  · refine From.bind (p := fun found hi => ∃ s, found = some s ∧
      GoodStmt admits mid' s hi ∧ s.isDeclaration = false)
      (From.map (h mid') fun s _ _ hs => ⟨s, rfl, hs⟩) ?_
    rintro _ hi hhi ⟨elseBranch, rfl, helse⟩
    refine From.pure ⟨⟨⟨htest.1, ⟨hthen.2, hthen.1.1⟩, helse.2, helse.1.1⟩, ?_⟩, rfl⟩
    rw [Stmt.references, referenceIds_append, referenceIds_append]
    exact (htest.2.append hthen.1.2 hlo hmid).append helse.1.2 (Nat.le_trans hlo hmid) hhi
  · refine From.bind (p := fun found hi => found = none ∧ hi = mid') (From.pure ⟨rfl, rfl⟩) ?_
    rintro _ hi _ ⟨rfl, rfl⟩
    refine From.pure ⟨⟨⟨htest.1, hthen.2, hthen.1.1⟩, ?_⟩, rfl⟩
    rw [Stmt.references, referenceIds_append]
    exact htest.2.append hthen.1.2 hlo hmid

theorem whileFrom_reads {statement : Reading Stmt} (h : ReadsPlain admits statement)
    (fuel : Nat) : ReadsPlain admits (whileFrom statement fuel) := by
  intro lo
  refine From.bind (condition_reads fuel _ _ lo) fun test mid hlo htest => ?_
  refine From.bind (h mid) fun body hi hhi hbody => From.pure ⟨⟨?_, ?_⟩, rfl⟩
  · exact ⟨htest.1, hbody.2, hbody.1.1⟩
  · rw [Stmt.references, referenceIds_append]
    exact htest.2.append hbody.1.2 hlo hhi

theorem forInitializer_from (fuel lo : Nat) :
    From admits lo (fun found hi => GoodStmts admits lo found.toList hi) (forInitializer fuel) := by
  have hone : ∀ {r : Reading Stmt}, ReadsStmt admits r →
      From admits lo (fun found hi => GoodStmts admits lo found.toList hi) (some <$> r) := by
    intro r hr
    refine From.map (hr lo) fun s hi _ hs => ⟨⟨hs.1, trivial⟩, ?_⟩
    simpa [Stmt.referencesAll] using hs.2
  unfold forInitializer
  refine From.after (from_accept admits lo _) fun empty => ?_
  refine From.ite (fun _ => From.pure ⟨trivial, Fresh.nil lo lo⟩) fun _ => ?_
  refine From.after (from_accept admits lo _) fun declares => ?_
  exact From.ite (fun _ => hone (variableFrom_reads fuel))
    fun _ => hone (expressionStatement_reads fuel).readsStmt

/-- The parts of a `for` statement, of which the increment stands before the body in the text. -/
theorem forLoop_good {lo first second third hi : Nat} {initializer : Option Stmt}
    {condition increment : Option Expr} {body : Stmt}
    (hi1 : GoodStmts admits lo initializer.toList first) (hi2 : GoodExpr? admits first condition second)
    (hi3 : GoodExpr? admits second increment third) (hbody : GoodStmt admits third body hi)
    (hplain : body.isDeclaration = false) (h1 : lo ≤ first) (h2 : first ≤ second)
    (h3 : second ≤ third) (h4 : third ≤ hi) :
    GoodStmt admits lo (.forLoop initializer condition increment body) hi ∧
      (Stmt.forLoop initializer condition increment body).isDeclaration = false := by
  have hids : Fresh lo hi (referenceIds (Stmt.referencesAll initializer.toList) ++
      (referenceIds (Expr.referencesOption condition) ++ (referenceIds body.references ++
        referenceIds (Expr.referencesOption increment)))) := by
    have hrest := (hi3.2.append hbody.2 h3 h4).perm List.perm_append_comm
    exact hi1.2.append (hi2.2.append hrest h2 (by omega)) h1 (by omega)
  cases initializer <;> cases condition <;> cases increment <;>
    refine ⟨⟨?_, ?_⟩, rfl⟩
  all_goals
    simp_all [Stmt.forLoop, Stmt.references, Stmt.referencesAll, Expr.references,
      Expr.referencesOption, GoodStmts, GoodExpr?, GoodStmt, Stmt.WellFormed, Stmt.AllWellFormed,
      Stmt.isDeclaration, Expr.WellFormed, Expr.OptionWellFormed]

theorem forFrom_reads {statement : Reading Stmt} (h : ReadsPlain admits statement) (fuel : Nat) :
    ReadsPlain admits (forFrom statement fuel) := by
  intro lo
  unfold forFrom
  refine From.after (from_discard_expect admits lo _ _) fun _ => ?_
  refine From.bind (forInitializer_from fuel lo) fun initializer first h1 hinit => ?_
  refine From.bind (optionalExpression_from fuel .semicolon first) fun test second h2 htest => ?_
  refine From.after (from_discard_expect admits second _ _) fun _ => ?_
  refine From.bind (optionalExpression_from fuel .rightParen second) fun increment third h3 hinc => ?_
  refine From.after (from_discard_expect admits third _ _) fun _ => ?_
  refine From.bind (h third) fun body hi h4 hbody => From.pure ?_
  exact forLoop_good hinit htest hinc hbody.1 hbody.2 h1 h2 h3 h4

/-! ## Statements and declarations -/

theorem statementForm_reads {declaration statement : Reading Stmt}
    (hd : ReadsStmt admits declaration) (hs : ReadsPlain admits statement) (fuel : Nat) :
    ReadsPlain admits (statementForm declaration statement fuel) := by
  intro lo
  unfold statementForm
  refine From.after (from_accept admits lo _) fun isFor => ?_
  refine From.ite (fun _ => forFrom_reads hs fuel lo) fun _ => ?_
  refine From.after (from_accept admits lo _) fun isIf => ?_
  refine From.ite (fun _ => ifFrom_reads hs fuel lo) fun _ => ?_
  refine From.after (from_accept admits lo _) fun isWhile => ?_
  refine From.ite (fun _ => whileFrom_reads hs fuel lo) fun _ => ?_
  refine From.bind (from_takeIf admits lo _) fun isReturn mid _ hmid => ?_
  obtain ⟨rfl, -⟩ := hmid
  cases isReturn with
  | some keyword => exact returnFrom_reads keyword fuel mid
  | none =>
    refine From.after (from_accept admits mid _) fun isBlock => ?_
    refine From.ite (fun _ => ?_) fun _ => ?_
    · exact From.bind (block_from hd fuel mid) fun body hi _ hbody => From.pure ⟨hbody, rfl⟩
    · refine From.bind (from_takeIf admits mid _) fun isPrint mid' _ hmid => ?_
      obtain ⟨rfl, -⟩ := hmid
      cases isPrint with
      | some keyword => exact printFrom_reads keyword fuel mid'
      | none => exact expressionStatement_reads fuel mid'

theorem declarationForm_reads {declaration statement : Reading Stmt}
    (hd : ReadsStmt admits declaration) (hs : ReadsPlain admits statement) (fuel : Nat) :
    ReadsStmt admits (declarationForm declaration statement fuel) := by
  intro lo
  unfold declarationForm
  refine From.after (from_accept admits lo _) fun isClass => ?_
  refine From.ite (fun _ => classFrom_reads hd fuel lo) fun _ => ?_
  refine From.after (from_accept admits lo _) fun isFunction => ?_
  refine From.ite (fun _ => ?_) fun _ => ?_
  · exact From.bind (function_from hd fuel _ lo) fun d hi _ hfunction => From.pure hfunction
  · refine From.after (from_accept admits lo _) fun isVariable => ?_
    exact From.ite (fun _ => variableFrom_reads fuel lo)
      fun _ => (statementForm_reads hd hs fuel).readsStmt lo

/-- Statements and declarations at every depth of reading. -/
theorem statement_reads (fuel : Nat) :
    ReadsPlain admits (statement fuel) ∧ ReadsStmt admits (declaration fuel) := by
  induction fuel with
  | zero => exact ⟨fun lo => from_tooDeep admits lo _, fun lo => from_tooDeep admits lo _⟩
  | succ fuel ih =>
    exact ⟨statementForm_reads ih.2 ih.1 fuel,
      fun lo => (declarationForm_reads ih.2 ih.1 fuel lo).recovering⟩

end Rules
end Reading

/-! ## Programs -/

/-- The declarations among items are good, and the identity that comes next only grows. -/
theorem programItemsFrom_good {admits : Token → Prop} (depth fuel : Nat) (c : Cursor)
    (ht : ∀ t ∈ c.rest, admits t) :
    c.nextId ≤ (programItemsFrom depth fuel c).2 ∧
      GoodStmts admits c.nextId
        ((programItemsFrom depth fuel c).1.filterMap ProgramItem.declaration?)
        (programItemsFrom depth fuel c).2 := by
  induction fuel generalizing c with
  | zero => exact ⟨Nat.le_refl _, trivial, Fresh.nil _ _⟩
  | succ fuel ih =>
    unfold programItemsFrom
    split
    · exact ⟨Nat.le_refl _, trivial, Fresh.nil _ _⟩
    · have hitem := (statement_reads depth).2 c.nextId c rfl ht
      unfold readItem
      have hnoted : ∀ noted : List SyntaxFault,
          (noted.map (Except.error : SyntaxFault → ProgramItem)).filterMap ProgramItem.declaration? = [] := by
        intro noted
        simp [ProgramItem.declaration?]
      cases hr : (declaration depth : Reading Stmt) c with
      | ok s after =>
        rw [hr] at hitem
        obtain ⟨hsuffix, hle, hgood⟩ := hitem
        obtain ⟨hnext, hrest⟩ := ih { after with noted := [] } fun t h => ht t (hsuffix.subset h)
        refine ⟨Nat.le_trans hle hnext, ?_⟩
        simp only [List.filterMap_append, hnoted, List.nil_append, List.filterMap_cons,
          ProgramItem.declaration?]
        refine ⟨⟨hgood.1, hrest.1⟩, ?_⟩
        rw [Stmt.referencesAll, referenceIds_append]
        exact hgood.2.append hrest.2 hle hnext
      | error stop after =>
        rw [hr] at hitem
        obtain ⟨hsuffix, hle⟩ := hitem
        obtain ⟨hnext, hrest⟩ := ih { after with noted := [] } fun t h => ht t (hsuffix.subset h)
        refine ⟨Nat.le_trans hle hnext, ?_⟩
        simp only [List.filterMap_append, hnoted, List.nil_append, List.filterMap_cons,
          ProgramItem.declaration?]
        exact ⟨hrest.1, hrest.2.mono hle (Nat.le_refl _)⟩

/-- All that is read of some tokens is well formed, next to faults or not, and has identities of its
own that were not given before. -/
theorem programItems_good {admits : Token → Prop} {tokens : List Token} (ht : ∀ t ∈ tokens, admits t)
    (nextId : Nat) : nextId ≤ (programItems tokens nextId).2 ∧
      GoodStmts admits nextId
        ((programItems tokens nextId).1.filterMap ProgramItem.declaration?)
        (programItems tokens nextId).2 :=
  programItemsFrom_good (depthBound tokens) ((Cursor.start tokens nextId).rest.length + 1)
    (.start tokens nextId) fun t h => ht t ((List.takeWhile_prefix _).subset h)

/-- Reading tokens never gives an identity back. -/
theorem nextId_le_programItems (tokens : List Token) (nextId : Nat) :
    nextId ≤ (programItems tokens nextId).2 :=
  (@programItems_good (fun _ => True) tokens (fun _ _ => trivial) nextId).1

/-- A program that is read is well formed, and its references have identities of their own that were
not given before. -/
theorem program_good {admits : Token → Prop} {tokens : List Token} {nextId : Nat}
    {program : List Stmt} (ht : ∀ t ∈ tokens, admits t)
    (h : programOfItems (programItems tokens nextId).1 = .ok program) :
    Stmt.AllWellFormed admits program ∧
      Fresh nextId (programItems tokens nextId).2 (referenceIds (Stmt.referencesAll program)) := by
  have hgood := (programItems_good ht nextId).2
  unfold programOfItems at h
  split at h
  · cases h
    exact hgood
  · cases h

end LoxLang
