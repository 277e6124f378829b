import Mathlib.Data.List.Infix
import LoxLang.Proofs.Binding.Misuses
import LoxLang.Proofs.Grammar.Soundness

/-!
The order in which misuses are found. `Spread whole w spots` says of a piece `w` of a text, whose
tokens stand on lines that do not go down, that the spots name tokens of the piece and come in the
order of these. A walk goes over a tree in the order of its text but for two constructs: it comes to
the value that is assigned to a property before the object, and to the body of a `for` statement before
the increment.
-/
namespace LoxLang
set_option autoImplicit false

/-- The text holds an assignment to a property, the first token in its value and the second in its
object, or a `for` statement, the first token in its body and the second in its increment. -/
inductive Overtakes (whole : List Token) (t u : Token) : Prop
  | assigned {lo mid hi : Nat} {dot name equals : Token} {v w : List Token} {object e : Expr} :
    ExprText .call lo v object mid → dot.kind = .symbol .dot → name.kind = .identifier →
    equals.kind = .symbol .equal → ExprText .expression mid w e hi →
    v ++ dot :: name :: equals :: w <:+: whole → t ∈ w → u ∈ v → Overtakes whole t u
  | repeated {lo first second third hi : Nat} {dangling : Bool} {word left stop right : Token}
    {a b v w : List Token} {initializer : Option Stmt} {test increment : Option Expr} {s : Stmt} :
    word.kind = .keyword .forWord → left.kind = .symbol .leftParen →
    InitializerText lo a initializer first → OptionText (ExprText .expression) first b test second →
    stop.kind = .symbol .semicolon → OptionText (ExprText .expression) second v increment third →
    right.kind = .symbol .rightParen → StmtText dangling third w s hi →
    word :: left :: (a ++ (b ++ stop :: (v ++ right :: w))) <:+: whole → t ∈ w → u ∈ v →
    Overtakes whole t u

/-- Of two spots, if the second is a misuse, the first names a token that does not come after that
of the second, or it is in a piece of text that is visited early. -/
def Spot.InTurn (whole : List Token) (a b : Spot) : Prop :=
  b.misuse? = none ∨ a.token.line ≤ b.token.line ∨ Overtakes whole a.token b.token

def Spread (whole w : List Token) (spots : List Spot) : Prop :=
  w <:+: whole → (∀ spot ∈ spots, spot.token ∈ w) ∧ spots.Pairwise (Spot.InTurn whole)

section Pieces
variable {whole u w : List Token} {spots spots' : List Spot} {t : Token}

theorem Spread.nil : Spread whole w [] :=
  fun _ => ⟨List.forall_mem_nil _, List.Pairwise.nil⟩

theorem Spread.single {spot : Spot} (h : spot.token ∈ w) : Spread whole w [spot] :=
  fun _ => ⟨List.forall_mem_singleton.mpr h, List.pairwise_singleton _ _⟩

theorem Spread.left (h : Spread whole u spots) : Spread whole (u ++ w) spots := by
  intro hin
  obtain ⟨htokens, hturns⟩ := h ((List.prefix_append u w).isInfix.trans hin)
  exact ⟨fun spot hspot => List.mem_append_left w (htokens spot hspot), hturns⟩

theorem Spread.right (h : Spread whole w spots) : Spread whole (u ++ w) spots := by
  intro hin
  obtain ⟨htokens, hturns⟩ := h ((List.suffix_append u w).isInfix.trans hin)
  exact ⟨fun spot hspot => List.mem_append_right u (htokens spot hspot), hturns⟩

theorem Spread.cons (h : Spread whole w spots) : Spread whole (t :: w) spots :=
  h.right (u := [t])

/-- Tokens of a piece stand on lines that do not go down. -/
theorem line_le_across (hsorted : whole.Pairwise (·.line ≤ ·.line)) (hin : u ++ w <:+: whole) :
    ∀ t ∈ u, ∀ t' ∈ w, t.line ≤ t'.line :=
  (List.pairwise_append.mp (hsorted.sublist hin.sublist)).2.2

theorem Spread.append (h : Spread whole u spots) (h' : Spread whole w spots')
    (hsorted : whole.Pairwise (·.line ≤ ·.line)) : Spread whole (u ++ w) (spots ++ spots') := by
  intro hin
  obtain ⟨htokens, hturns⟩ := h ((List.prefix_append u w).isInfix.trans hin)
  obtain ⟨htokens', hturns'⟩ := h' ((List.suffix_append u w).isInfix.trans hin)
  refine ⟨fun spot hspot => ?_, List.pairwise_append.mpr ⟨hturns, hturns', ?_⟩⟩
  · rcases List.mem_append.mp hspot with hspot | hspot
    · exact List.mem_append_left w (htokens spot hspot)
    · exact List.mem_append_right u (htokens' spot hspot)
  · intro a ha b hb
    exact Or.inr (Or.inl (line_le_across hsorted hin _ (htokens a ha) _ (htokens' b hb)))

/-- A spot at the first token of a piece. -/
theorem Spread.first {spot : Spot} (hspot : spot.token = t) (h : Spread whole w spots)
    (hsorted : whole.Pairwise (·.line ≤ ·.line)) : Spread whole (t :: w) (spot :: spots) :=
  Spread.append (u := [t]) (.single (by rw [hspot]; exact List.mem_cons_self)) h hsorted

end Pieces

section Visits
variable {whole u v w : List Token} {spots spots' : List Spot}

/-- A write is no misuse, wherever it is found. -/
theorem Spread.write {lo : Nat} {name equals : Token} {Γ : Enclosure} {p : Option String}
    (h : Spread whole w spots) :
    Spread whole (name :: equals :: w) (spots ++ [.use ⟨⟨lo, name⟩, .write, Γ, p⟩]) := by
  intro hin
  obtain ⟨htokens, hturns⟩ := h.cons.cons hin
  refine ⟨List.forall_mem_append.mpr ⟨htokens, ?_⟩,
    List.pairwise_append.mpr ⟨hturns, List.pairwise_singleton _ _, ?_⟩⟩
  · exact List.forall_mem_singleton.mpr List.mem_cons_self
  · exact fun a _ => List.forall_mem_singleton.mpr (Or.inl rfl)

/-- A piece is visited before one that stands before it. -/
theorem Spread.early (h : Spread whole u spots) (h' : Spread whole w spots')
    (hover : ∀ t ∈ w, ∀ t' ∈ u, Overtakes whole t t') :
    Spread whole (u ++ (v ++ w)) (spots' ++ spots) := by
  intro hin
  obtain ⟨htokens, hturns⟩ := h ((List.prefix_append u (v ++ w)).isInfix.trans hin)
  have hlast : w <:+: u ++ (v ++ w) :=
    ((List.suffix_append v w).trans (List.suffix_append u (v ++ w))).isInfix
  obtain ⟨htokens', hturns'⟩ := h' (hlast.trans hin)
  refine ⟨List.forall_mem_append.mpr ⟨fun spot hspot => hlast.subset (htokens' spot hspot),
      fun spot hspot => List.mem_append_left _ (htokens spot hspot)⟩,
    List.pairwise_append.mpr ⟨hturns', hturns, fun a ha b hb => ?_⟩⟩
  exact Or.inr (Or.inr (hover _ (htokens' a ha) _ (htokens b hb)))

end Visits

/-! ## Expressions -/

section Trees
variable {whole : List Token}

theorem OperatorLevel.sites_node {level : OperatorLevel} (h : level ∈ OperatorLevel.all)
    (Γ : Enclosure) (p : Option String) (left : Expr) (operator : Token) (right : Expr) :
    (level.node left operator right).sites Γ p = left.sites Γ p ++ right.sites Γ p := by
  simp only [OperatorLevel.all, List.mem_cons, List.not_mem_nil, or_false] at h
  rcases h with rfl | rfl | rfl | rfl | rfl | rfl <;> rfl

mutual

/-- The sites of an expression are visited in the order of its text, but for values that are assigned
to properties. -/
theorem ExprText.spread {place : Place} {lo hi : Nat} {w : List Token} {e : Expr}
    (h : ExprText place lo w e hi) (hsorted : whole.Pairwise (·.line ≤ ·.line)) (Γ : Enclosure)
    (p : Option String) : Spread whole w ((e.sites Γ p).map .use) :=
  match h with
  | .literal _ => .nil
  | .variable _ => .single List.mem_cons_self
  | .thisObject _ => .single List.mem_cons_self
  | .superMethod _ _ _ => .single List.mem_cons_self
  | .grouping _ hinner _ => ((hinner.spread hsorted Γ p).left).cons
  | .operand hprimary => hprimary.spread hsorted Γ p
  | .callWithout hcallee _ _ => by
    rw [Expr.sites, Expr.sitesAll, List.append_nil]
    exact (hcallee.spread hsorted Γ p).left
  | .call hcallee _ harguments _ _ => by
    rw [Expr.sites, List.map_append]
    exact (hcallee.spread hsorted Γ p).append (harguments.spread hsorted Γ p).left.cons hsorted
  | .get hobject _ _ => (hobject.spread hsorted Γ p).left
  | .unoperated hcall => hcall.spread hsorted Γ p
  | .unary _ hinner => (hinner.spread hsorted Γ p).cons
  | .tightest hunary => hunary.spread hsorted Γ p
  | .tighter htighter => htighter.spread hsorted Γ p
  | .operator hlevels hleft _ hright => by
    rw [OperatorLevel.sites_node (hlevels.subset List.mem_cons_self), List.map_append]
    exact (hleft.spread hsorted Γ p).append ((hright.spread hsorted Γ p).cons) hsorted
  | .joined hjoined => hjoined.spread hsorted Γ p
  | .assign _ _ hvalue => by
    rw [Expr.sites, List.map_append]
    exact (hvalue.spread hsorted Γ p).write
  | .set hobject hdot hname hequals hvalue => by
    intro hin
    rw [Expr.sites, List.map_append]
    refine Spread.early (v := [_, _, _]) (hobject.spread hsorted Γ p) (hvalue.spread hsorted Γ p) ?_ hin
    exact fun t ht t' ht' => .assigned hobject hdot hname hequals hvalue hin ht ht'

theorem CommaText.spread {lo hi : Nat} {w : List Token} {es : List Expr}
    (h : CommaText (ExprText .expression) lo w es hi)
    (hsorted : whole.Pairwise (·.line ≤ ·.line)) (Γ : Enclosure) (p : Option String) :
    Spread whole w ((Expr.sitesAll Γ p es).map .use) :=
  match h with
  | .last he => by
    rw [Expr.sitesAll, Expr.sitesAll, List.append_nil]
    exact he.spread hsorted Γ p
  | .more he _ hrest => by
    rw [Expr.sitesAll, List.map_append]
    exact (he.spread hsorted Γ p).append ((hrest.spread hsorted Γ p).cons) hsorted

end

theorem OptionText.spread {lo hi : Nat} {w : List Token} {e : Option Expr}
    (h : OptionText (ExprText .expression) lo w e hi)
    (hsorted : whole.Pairwise (·.line ≤ ·.line)) (Γ : Enclosure) (p : Option String) :
    Spread whole w ((Expr.sitesOption Γ p e).map .use) := by
  cases h with
  | none => exact .nil
  | some he => exact he.spread hsorted Γ p

/-! ## Statements -/

theorem VariableText.spread {lo hi : Nat} {w : List Token} {s : Stmt} (h : VariableText lo w s hi)
    (hsorted : whole.Pairwise (·.line ≤ ·.line)) (Γ : Enclosure) :
    Spread whole w (s.spots Γ) := by
  cases h with
  | bare _ _ => exact .single List.mem_cons_self
  | initialized _ _ he _ =>
    exact Spread.first rfl (((he.spread hsorted Γ _).left).cons) hsorted

theorem ExpressionStatementText.spread {lo hi : Nat} {w : List Token} {s : Stmt}
    (h : ExpressionStatementText lo w s hi) (hsorted : whole.Pairwise (·.line ≤ ·.line))
    (Γ : Enclosure) : Spread whole w (s.spots Γ) := by
  cases h with
  | intro he _ => exact (he.spread hsorted Γ none).left

theorem SuperclassText.spread {lo hi : Nat} {w : List Token} {superclass : Option Expr}
    (h : SuperclassText lo w superclass hi) (hsorted : whole.Pairwise (·.line ≤ ·.line))
    (Γ : Enclosure) (name : Token) :
    Spread whole (name :: w) (Spot.ofClass Γ name superclass) := by
  cases h with
  | none => exact .single List.mem_cons_self
  | @some less parent _ _ =>
    have hparent : Spread whole [less, parent]
        [.inheritance name parent, .use ⟨⟨lo, parent⟩, .read, Γ, Option.none⟩] := by
      have hlast : parent ∈ [less, parent] := List.mem_cons_of_mem _ List.mem_cons_self
      refine fun _ => ⟨List.forall_mem_cons.mpr ⟨hlast, List.forall_mem_singleton.mpr hlast⟩, ?_⟩
      exact List.pairwise_pair.mpr (Or.inr (Or.inl (Nat.le_refl _)))
    exact Spread.first rfl hparent hsorted

theorem CommaText.spread_names {lo hi : Nat} {w : List Token} {names : List Token}
    (h : CommaText NameText lo w names hi) (hsorted : whole.Pairwise (·.line ≤ ·.line))
    (Γ : Enclosure) : Spread whole w (Spot.declarations Γ names) := by
  induction h generalizing Γ with
  | last hname =>
    obtain ⟨rfl, -, -⟩ := hname
    exact .single List.mem_cons_self
  | more hname _ _ ih =>
    obtain ⟨rfl, -, -⟩ := hname
    exact Spread.first rfl ((ih (Γ.declare _)).cons) hsorted

theorem ItemsText.spread_names {lo hi : Nat} {w : List Token} {names : List Token}
    (h : ItemsText NameText lo w names hi) (hsorted : whole.Pairwise (·.line ≤ ·.line))
    (Γ : Enclosure) : Spread whole w (Spot.declarations Γ names) := by
  obtain ⟨rfl, rfl, -⟩ | ⟨hnames, -⟩ := h
  · exact .nil
  · exact hnames.spread_names hsorted Γ

theorem InitializerText.spread {lo hi : Nat} {w : List Token} {initializer : Option Stmt}
    (h : InitializerText lo w initializer hi) (hsorted : whole.Pairwise (·.line ≤ ·.line))
    (Γ : Enclosure) : Spread whole w (initializer.toList.flatMap (·.spots Γ)) := by
  cases h with
  | none _ => exact .nil
  | «variable» _ hs =>
    rw [Option.toList_some, List.flatMap_singleton]
    exact (hs.spread hsorted Γ).cons
  | expression hs =>
    rw [Option.toList_some, List.flatMap_singleton]
    exact hs.spread hsorted Γ

/-- In a `for` statement the body is visited before the increment. -/
theorem Stmt.spots_forLoop (initializer : Option Stmt) (test increment : Option Expr) (s : Stmt)
    (Γ : Enclosure) :
    ∃ around inside after behind,
      (Stmt.forLoop initializer test increment s).spots Γ =
        initializer.toList.flatMap (·.spots around) ++
          ((Expr.sitesOption inside none test).map .use ++
            (s.spots after ++ (Expr.sitesOption behind none increment).map .use)) := by
  have htest : ∀ Γ, (test.getD (.literal (.bool true))).sites Γ none =
      Expr.sitesOption Γ none test := by
    intro Γ
    cases test <;> rfl
  have hloop : ∀ Γ, ∃ after behind, (Stmt.forLoop none test increment s).spots Γ =
      (Expr.sitesOption Γ none test).map .use ++
        (s.spots after ++ (Expr.sitesOption behind none increment).map .use) := by
    intro Γ
    rw [← htest Γ]
    cases increment with
    | none => exact ⟨Γ, Γ, by simp [Stmt.forLoop, Stmt.spots, Expr.sitesOption]⟩
    | some e =>
      refine ⟨⟨.block [s, .expression e], []⟩ :: Γ, s.after (⟨.block [s, .expression e], []⟩ :: Γ), ?_⟩
      simp [Stmt.forLoop, Stmt.spots, Stmt.spotsAll, Expr.sitesOption]
  cases initializer with
  | none =>
    obtain ⟨after, behind, hspots⟩ := hloop Γ
    exact ⟨Γ, Γ, after, behind, hspots⟩
  | some first =>
    have hblock : Stmt.forLoop (some first) test increment s =
        .block [first, Stmt.forLoop none test increment s] := rfl
    rw [hblock, Stmt.spots]
    generalize (⟨Region.block _, []⟩ :: Γ : Enclosure) = Γ'
    obtain ⟨after, behind, hspots⟩ := hloop (first.after Γ')
    refine ⟨Γ', first.after Γ', after, behind, ?_⟩
    rw [Stmt.spotsAll, Stmt.spotsAll, Stmt.spotsAll, List.append_nil, hspots, Option.toList_some,
      List.flatMap_singleton]

theorem spread_forLoop {lo first second third hi : Nat} {dangling : Bool}
    {word left stop right : Token} {a b v w : List Token} {initializer : Option Stmt}
    {test increment : Option Expr} {s : Stmt} (hword : word.kind = .keyword .forWord)
    (hleft : left.kind = .symbol .leftParen) (hinit : InitializerText lo a initializer first)
    (htest : OptionText (ExprText .expression) first b test second)
    (hstop : stop.kind = .symbol .semicolon)
    (hincrement : OptionText (ExprText .expression) second v increment third)
    (hright : right.kind = .symbol .rightParen) (hs : StmtText dangling third w s hi)
    (hbody : ∀ Γ, Spread whole w (s.spots Γ)) (hsorted : whole.Pairwise (·.line ≤ ·.line))
    (Γ : Enclosure) :
    Spread whole (word :: left :: (a ++ (b ++ stop :: (v ++ right :: w))))
      ((Stmt.forLoop initializer test increment s).spots Γ) := by
  intro hin
  obtain ⟨around, inside, after, behind, hspots⟩ :=
    Stmt.spots_forLoop initializer test increment s Γ
  rw [hspots]
  have hover : ∀ t ∈ w, ∀ t' ∈ v, Overtakes whole t t' := fun t ht t' ht' =>
    .repeated hword hleft hinit htest hstop hincrement hright hs hin ht ht'
  have hrepeated : Spread whole (stop :: (v ++ right :: w))
      (s.spots after ++ (Expr.sitesOption behind none increment).map .use) :=
    (Spread.early (v := [right]) (hincrement.spread hsorted behind none) (hbody after) hover).cons
  have htested := (htest.spread hsorted inside none).append hrepeated hsorted
  exact ((hinit.spread hsorted around).append htested hsorted).cons.cons hin

mutual

/-- The spots of a statement are visited in the order of its text, but for values that are assigned to
properties and for the bodies of `for` statements. -/
theorem StmtText.spread {dangling : Bool} {lo hi : Nat} {w : List Token} {s : Stmt}
    (h : StmtText dangling lo w s hi) (hsorted : whole.Pairwise (·.line ≤ ·.line))
    (Γ : Enclosure) : Spread whole w (s.spots Γ) :=
  match h with
  | .expression hs => hs.spread hsorted Γ
  | .print _ he _ => ((he.spread hsorted Γ none).left).cons
  | .returnWith _ he _ => Spread.first rfl ((he.spread hsorted Γ none).left) hsorted
  | .block _ hbody _ => ((hbody.spread hsorted (_ :: Γ)).left).cons
  | .conditional _ _ he _ hs =>
    ((he.spread hsorted Γ none).append (hs.spread hsorted Γ).cons hsorted).cons.cons
  | .alternative _ _ he _ hs _ hs' => by
    rw [Stmt.spots, List.append_assoc]
    refine ((he.spread hsorted Γ none).append (Spread.cons ?_) hsorted).cons.cons
    exact (hs.spread hsorted Γ).append (hs'.spread hsorted Γ).cons hsorted
  | .loop _ _ he _ hs =>
    ((he.spread hsorted Γ none).append (hs.spread hsorted Γ).cons hsorted).cons.cons
  | .forLoop hword hleft hinit htest hstop hincrement hright hs =>
    spread_forLoop hword hleft hinit htest hstop hincrement hright hs (hs.spread hsorted) hsorted Γ

theorem DeclarationText.spread {lo hi : Nat} {w : List Token} {s : Stmt}
    (h : DeclarationText lo w s hi) (hsorted : whole.Pairwise (·.line ≤ ·.line))
    (Γ : Enclosure) : Spread whole w (s.spots Γ) :=
  match h with
  | .statement hs => hs.spread hsorted Γ
  | .variable _ hs => (hs.spread hsorted Γ).cons
  | .function _ hd => by
    obtain ⟨rest, rfl, hrest⟩ := hd.spread hsorted
    rw [Stmt.spots]
    exact Spread.cons (Spread.first (by rfl) (hrest _) hsorted)
  | .classDeclaration _ _ hsuper _ hmethods _ =>
    ((hsuper.spread hsorted Γ _).append (hmethods.spread_methods hsorted _).left.cons hsorted).cons

/-- Of a function its name is not counted as a spot. -/
theorem FunctionText.spread {lo hi : Nat} {w : List Token} {d : FunctionDeclaration}
    (h : FunctionText lo w d hi) (hsorted : whole.Pairwise (·.line ≤ ·.line)) :
    ∃ rest, w = d.name :: rest ∧ ∀ Γ, Spread whole rest (d.spots Γ) :=
  match h with
  | .intro _ _ hparams _ _ hbody _ => by
    refine ⟨_, rfl, fun Γ => ?_⟩
    rw [FunctionDeclaration.spots]
    exact ((hparams.spread_names hsorted _).append (hbody.spread hsorted _).left.cons.cons hsorted).cons

theorem ListText.spread {lo hi : Nat} {w : List Token} {body : List Stmt}
    (h : ListText DeclarationText lo w body hi) (hsorted : whole.Pairwise (·.line ≤ ·.line))
    (Γ : Enclosure) : Spread whole w (Stmt.spotsAll Γ body) :=
  match h with
  | .nil => .nil
  | .cons hs hbody => (hs.spread hsorted Γ).append (hbody.spread hsorted (Stmt.after Γ _)) hsorted

theorem ListText.spread_methods {lo hi : Nat} {w : List Token} {methods : List FunctionDeclaration}
    (h : ListText FunctionText lo w methods hi) (hsorted : whole.Pairwise (·.line ≤ ·.line))
    (Γ : Enclosure) : Spread whole w (FunctionDeclaration.spotsAll Γ methods) :=
  match h with
  | .nil => .nil
  | .cons hd hmethods => by
    obtain ⟨rest, rfl, hrest⟩ := hd.spread hsorted
    exact ((hrest (Γ.ofMethod _)).cons).append (hmethods.spread_methods hsorted Γ) hsorted

end

end Trees

/-! ## Programs -/

/-- What is wrong with a program is found in the order of its tokens, except in pieces of text that are
visited early. -/
theorem misuses_in_turn {tokens : List Token} {nextId : Nat} {program : List Stmt}
    (h : programOfItems (programItems tokens nextId).1 = .ok program)
    (hsorted : (tokens.takeWhile (!·.isEnd)).Pairwise (·.line ≤ ·.line)) :
    (misuses program).Pairwise fun f g =>
      f.token.line ≤ g.token.line ∨ Overtakes (tokens.takeWhile (!·.isEnd)) f.token g.token := by
  have htext := program_text h
  obtain ⟨-, hturns⟩ := htext.spread hsorted [] List.infix_rfl
  refine hturns.filterMap _ fun a b hturn f hf g hg => ?_
  obtain ⟨cause, hcause, rfl⟩ := Option.map_eq_some_iff.mp hf
  obtain ⟨cause', hcause', rfl⟩ := Option.map_eq_some_iff.mp hg
  rcases hturn with hnone | hturn
  · rw [hcause'] at hnone
    cases hnone
  · exact hturn

/-- What a survey refuses is what is wrong with the program. -/
theorem survey_of_error {tokens : List Token} {nextId : Nat} {program : List Stmt}
    {faults : List BindingFault} (h : programOfItems (programItems tokens nextId).1 = .ok program)
    (hsurvey : survey program = .error faults) : faults = misuses program := by
  have hwell := (@program_good (fun _ => True) _ _ _ (fun _ _ => trivial) h).1
  have hstart : Survey.Reaches (fun _ => True) ⟨false, .outside⟩ none [] .start :=
    ⟨trivial, .globals, fun _ => rfl, rfl, rfl⟩
  have hfaults : (Survey.visitStmts ⟨false, .outside⟩ program .start).faults = misuses program :=
    (Survey.visitStmts_reports program hstart hwell).faults
  unfold survey at hsurvey
  dsimp only at hsurvey
  split at hsurvey
  · cases hsurvey
  · cases hsurvey
    exact hfaults

end LoxLang
