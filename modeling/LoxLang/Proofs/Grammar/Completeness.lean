import LoxLang.Proofs.Grammar.Words

/-!
The text of a tree is read as that tree, when what follows it can not be taken for more of it. The
bound on the depth of reading only has to exceed the number of tokens. Loops are related to texts by
the place that the loop has reached: after the text of a call, reading goes on with the calls and
property accesses that may still follow, and after that of joined operands with more operators of
the same level.
-/
namespace LoxLang
set_option autoImplicit false

/-! ## What can follow -/

/-- The tokens are no more of joined operands of some levels. -/
def Ends (levels : List OperatorLevel) (rest : List Token) : Prop :=
  ∀ t ∈ rest.head?, t.isSymbol .leftParen = false ∧ t.isSymbol .dot = false ∧
    ∀ level ∈ levels, level.admits t = false

/-- The tokens are no more of an expression. -/
def EndsExpression (rest : List Token) : Prop :=
  Ends OperatorLevel.all rest ∧ ∀ t ∈ rest.head?, t.isSymbol .equal = false

theorem endsExpression_nil : EndsExpression [] :=
  ⟨nofun, nofun⟩

def Symbol.ending : List Symbol :=
  [.comma, .rightParen, .semicolon]

/-- Symbols that are no operator and open no call. -/
theorem endsExpression_before {t : Token} {rest : List Token} {s : Symbol} (h : t.kind = .symbol s)
    (hs : s ∈ .rightBrace :: Symbol.ending) : EndsExpression (t :: rest) := by
  simp only [Symbol.ending, List.mem_cons, List.not_mem_nil, or_false] at hs
  constructor
  · rintro _ ⟨⟩
    rcases hs with rfl | rfl | rfl | rfl <;>
      simp [Token.isSymbol, OperatorLevel.all, OperatorLevel.admits, TokenKind.same, h]
  · rintro _ ⟨⟩
    rcases hs with rfl | rfl | rfl | rfl <;> simp [Token.isSymbol, TokenKind.same, h]

theorem endsExpression_cons {t : Token} {rest : List Token} {s : Symbol} (h : t.kind = .symbol s)
    (hs : s ∈ Symbol.ending) : EndsExpression (t :: rest) :=
  endsExpression_before h (List.mem_cons_of_mem _ hs)

/-- No literal is an operator, so that an operator is one of those of its level. -/
theorem OperatorLevel.mem_operators {level : OperatorLevel} {t : Token}
    (hlevel : level ∈ OperatorLevel.all) (h : level.admits t = true) : t.kind ∈ level.operators := by
  obtain ⟨kind, hkind, hsame⟩ := List.any_eq_true.mp h
  have hword : (∃ s, kind = .symbol s) ∨ ∃ k, kind = .keyword k := by
    have hall : ∀ level ∈ OperatorLevel.all, ∀ kind ∈ level.operators,
        (∃ s, kind = TokenKind.symbol s) ∨ ∃ k, kind = TokenKind.keyword k := by
      simp [OperatorLevel.all]
    exact hall level hlevel kind hkind
  obtain ⟨s, rfl⟩ | ⟨k, rfl⟩ := hword
  · rwa [(TokenKind.same_symbol_iff t.kind s).mp hsame]
  · rwa [(TokenKind.same_keyword_iff t.kind k).mp hsame]

theorem OperatorLevel.admits_of_mem {level : OperatorLevel} {t : Token}
    (h : t.kind ∈ level.operators) : level.admits t = true := by
  have hsame : t.kind.same t.kind = true := by cases t.kind <;> simp [TokenKind.same]
  exact List.any_eq_true.mpr ⟨t.kind, h, hsame⟩

/-- An operator of one level ends the operands of the tighter ones. -/
theorem ends_of_admits {level : OperatorLevel} {tighter : List OperatorLevel} {t : Token}
    {rest : List Token} (hlevels : level :: tighter <:+ OperatorLevel.all)
    (h : level.admits t = true) : Ends tighter (t :: rest) := by
  have hkind := OperatorLevel.mem_operators (hlevels.subset List.mem_cons_self) h
  have hends : ∀ kind ∈ level.operators, kind.same (.symbol .leftParen) = false ∧
      kind.same (.symbol .dot) = false ∧
      ∀ level' ∈ tighter, level'.operators.any kind.same = false := by
    simp only [OperatorLevel.all, List.suffix_cons_iff, List.cons.injEq, List.suffix_nil,
      reduceCtorEq, or_false] at hlevels
    rcases hlevels with ⟨rfl, rfl⟩ | ⟨rfl, rfl⟩ | ⟨rfl, rfl⟩ | ⟨rfl, rfl⟩ | ⟨rfl, rfl⟩ | ⟨rfl, rfl⟩ <;>
      simp [TokenKind.same]
  rintro _ ⟨⟩
  exact hends t.kind hkind

namespace Reading

/-! ## Lists between parentheses -/

section Items
variable {α : Type} {item : Nat → List Token → α → Nat → Prop}

theorem CommaText.length_le {lo hi : Nat} {w : List Token} {as : List α}
    (h : CommaText item lo w as hi) : as.length ≤ w.length + 1 := by
  induction h with
  | last _ => exact Nat.le_add_left 1 _
  | more _ _ _ ih =>
    simp only [List.length_cons, List.length_append]
    omega

/-- Items whose texts are short enough to be read before a comma or parenthesis. -/
theorem commaList_reads (excess : SyntaxCause) {r : Reading α} {bound : Nat}
    (hr : ∀ lo w a hi t rest, item lo w a hi → w.length ≤ bound →
      t.kind = .symbol .comma ∨ t.kind = .symbol .rightParen → Reads r lo w a hi (t :: rest))
    {lo hi : Nat} {w : List Token} {as : List α} (h : CommaText item lo w as hi)
    {fuel count : Nat} {paren : Token} (hw : w.length ≤ bound) (hfuel : as.length ≤ fuel)
    (hcount : count + as.length ≤ maxArity) (hparen : paren.kind = .symbol .rightParen)
    (rest : List Token) :
    Reads (commaList excess r fuel count) lo w as hi (paren :: rest) := by
  induction h generalizing fuel count with
  | last hitem =>
    rw [List.length_singleton] at hfuel hcount
    obtain ⟨fuel, rfl⟩ := Nat.exists_eq_add_of_lt hfuel
    rw [commaList, if_neg (by omega)]
    refine Reads.bind_last (hr _ _ _ _ paren rest hitem hw (Or.inr hparen)) ?_
    refine Reads.bind_none (reads_accept_other ?_) Leads.refl
    rw [Token.isSymbol, hparen]
    rfl
  | @more lo mid hi u w comma a as hitem hcomma hrest ih =>
    simp only [List.length_append, List.length_cons] at hw hcount hfuel
    obtain ⟨fuel, rfl⟩ := Nat.exists_eq_succ_of_ne_zero (Nat.ne_zero_of_lt hfuel)
    have hmore := ih (by omega) (Nat.le_of_succ_le_succ hfuel) (by omega : count + 1 + as.length ≤ maxArity)
    rw [commaList, if_neg (by omega)]
    refine Reads.bind (hr _ _ _ _ comma (w ++ paren :: rest) hitem (by omega) (Or.inl hcomma)) ?_
    refine Reads.bind_one (reads_accept ((Token.isSymbol_iff comma .comma).mpr hcomma)) ?_
    exact Reads.bind_last hmore Leads.refl

theorem parenthesized_reads (excess : SyntaxCause) {r : Reading α} {bound : Nat}
    (hr : ∀ lo w a hi t rest, item lo w a hi → w.length ≤ bound →
      t.kind = .symbol .comma ∨ t.kind = .symbol .rightParen → Reads r lo w a hi (t :: rest))
    (hfirst : ∀ lo w a hi, item lo w a hi → ∃ t v, w = t :: v ∧ t.isSymbol .rightParen = false)
    {lo hi : Nat} {w : List Token} {as : List α} {paren : Token}
    (h : ItemsText item lo w as hi) {fuel : Nat} (hw : w.length ≤ bound) (hfuel : w.length < fuel)
    (hparen : paren.kind = .symbol .rightParen) (what : String) (rest : List Token) :
    Reads (parenthesized excess r fuel what) lo (w ++ [paren]) (as, paren) hi rest := by
  unfold parenthesized
  have hclose : Reads (do return (as, ← expectSymbol .rightParen what)) hi [paren] (as, paren) hi
      rest := Reads.bind_one (reads_symbol what hparen) Leads.refl
  obtain ⟨rfl, rfl, rfl⟩ | ⟨hitems, hlength⟩ := h
  · refine Reads.bind_none reads_nextIs ?_
    have hcloses : ([paren] ++ rest).head?.any (·.isSymbol .rightParen) = true :=
      (Token.isSymbol_iff paren .rightParen).mpr hparen
    dsimp only
    rw [List.nil_append, if_pos hcloses]
    exact Reads.bind_none Leads.refl hclose
  · obtain ⟨t, v, rfl, ht⟩ : ∃ t v, w = t :: v ∧ t.isSymbol .rightParen = false := by
      cases hitems with
      | last hitem => exact hfirst _ _ _ _ hitem
      | more hitem _ _ =>
        obtain ⟨t, v, rfl, ht⟩ := hfirst _ _ _ _ hitem
        exact ⟨t, _, rfl, ht⟩
    have hle := CommaText.length_le hitems
    have hread := commaList_reads excess hr hitems hw (by omega : as.length ≤ fuel)
      (by omega : 0 + as.length ≤ maxArity) hparen rest
    refine Reads.bind_none reads_nextIs ?_
    have hopens : ¬ (t :: v ++ [paren] ++ rest).head?.any (·.isSymbol .rightParen) = true :=
      Bool.eq_false_iff.mp ht
    dsimp only
    rw [if_neg hopens]
    exact Reads.bind hread hclose

end Items

/-! ## Operands -/

/-- Operands behind unary operators at some depth of reading. -/
abbrev operand (depth : Nat) : Reading Expr :=
  unary (call (expression depth) depth) depth

/-- What comes of the text of an expression, for a depth that its length does not exceed. -/
def Complete (lo : Nat) (w : List Token) (e : Expr) (hi : Nat) : Place → Prop
  | .primary => ∀ depth rest, w.length ≤ depth →
    Reads (primary (expression depth)) lo w e hi rest
  | .call => ∀ depth rest, w.length ≤ depth → ∃ left, depth < left + w.length ∧
    Leads (call (expression depth) depth) lo w (callsFrom (expression depth) left e) hi rest
  | .unary => ∀ depth fuel rest, w.length ≤ depth → w.length ≤ fuel → Ends [] rest →
    Reads (unary (call (expression depth) depth) fuel) lo w e hi rest
  | .joined [] => ∀ depth rest, w.length ≤ depth → Ends [] rest →
    Reads (operand depth) lo w e hi rest
  | .joined (level :: tighter) => ∀ depth rest, w.length ≤ depth → Ends tighter rest →
    ∃ left, depth < left + w.length ∧
      Leads (joined (operand depth) depth (level :: tighter)) lo w
        (operatorsFrom level (joined (operand depth) depth tighter) left e) hi rest
  | .expression => ∀ depth rest, w.length < depth → EndsExpression rest →
    Reads (expression depth) lo w e hi rest

section Operands
variable {lo mid hi : Nat} {u w rest : List Token} {e : Expr}

theorem callsFrom_ends {r : Reading Expr} {left : Nat} (hleft : 0 < left) (hends : Ends [] rest) :
    Reads (callsFrom r left e) lo [] e lo rest := by
  obtain ⟨left, rfl⟩ := Nat.exists_eq_succ_of_ne_zero (Nat.ne_of_gt hleft)
  rw [callsFrom]
  refine Reads.bind_none (reads_accept_none fun t ht => (hends t ht).1) ?_
  exact Reads.bind_none (reads_accept_none fun t ht => (hends t ht).2.1) Leads.refl

theorem complete_literal {t : Token} {value : Literal} (h : Literal.ofKind? t.kind = some value) :
    Complete lo [t] (.literal value) lo .primary := by
  intro depth rest _
  unfold primary
  refine Reads.bind_none reads_peek ?_
  cases hk : t.kind with
  | identifier =>
    rw [hk] at h
    cases h
  | endOfInput =>
    rw [hk] at h
    cases h
  | symbol s =>
    rw [hk] at h
    cases h
  | keyword k =>
    rw [hk] at h
    cases k <;> cases h <;> exact Reads.bind_one reads_skip Leads.refl
  | string text =>
    rw [hk] at h
    cases h
    exact Reads.bind_one reads_skip Leads.refl
  | number value =>
    rw [hk] at h
    cases h
    exact Reads.bind_one reads_skip Leads.refl

theorem complete_variable {name : Token} (h : name.kind = .identifier) :
    Complete lo [name] (.variable ⟨lo, name⟩) (lo + 1) .primary := by
  intro depth rest _
  unfold primary
  refine Reads.bind_none reads_peek ?_
  rw [h]
  exact Reads.bind_one reads_skip (Reads.map _ (reads_reference name))

theorem complete_thisObject {keyword : Token} (h : keyword.kind = .keyword .thisWord) :
    Complete lo [keyword] (.thisObject ⟨lo, keyword⟩) (lo + 1) .primary := by
  intro depth rest _
  unfold primary
  refine Reads.bind_none reads_peek ?_
  rw [h]
  exact Reads.bind_one reads_skip (Reads.map _ (reads_reference keyword))

theorem complete_superMethod {keyword dot method : Token}
    (h : keyword.kind = .keyword .superWord) (hdot : dot.kind = .symbol .dot)
    (hmethod : method.kind = .identifier) :
    Complete lo [keyword, dot, method] (.superMethod ⟨lo, keyword⟩ method) (lo + 1) .primary := by
  intro depth rest _
  unfold primary
  refine Reads.bind_none reads_peek ?_
  rw [h]
  refine Reads.bind_one reads_skip ?_
  refine Reads.bind_one (reads_discard_symbol _ hdot) ?_
  refine Reads.bind_one (reads_name _ hmethod) ?_
  exact Reads.bind_none (reads_reference keyword) Leads.refl

theorem complete_grouping {left right : Token} (hleft : left.kind = .symbol .leftParen)
    (h : Complete lo w e hi .expression) (hright : right.kind = .symbol .rightParen) :
    Complete lo (left :: (w ++ [right])) (.grouping e) hi .primary := by
  intro depth rest hdepth
  simp only [List.length_cons, List.length_append] at hdepth
  have hends : EndsExpression (right :: rest) := endsExpression_cons hright (by decide)
  unfold primary
  refine Reads.bind_none reads_peek ?_
  rw [hleft]
  refine Reads.bind_one reads_skip ?_
  refine Reads.bind (h depth (right :: rest) (by omega) hends) ?_
  exact Reads.bind_one (reads_discard_symbol _ hright) Leads.refl

/-! ## Calls -/

theorem complete_operand (h : Complete lo w e hi .primary) (hw : 0 < w.length) :
    Complete lo w e hi .call := by
  intro depth rest hdepth
  exact ⟨depth, by omega, Reads.bind_last (h depth rest hdepth) Leads.refl⟩

/-- An argument, by its text and by how it is read. -/
def ArgumentText (lo : Nat) (w : List Token) (e : Expr) (hi : Nat) : Prop :=
  ExprText .expression lo w e hi ∧ Complete lo w e hi .expression

theorem complete_call {left paren : Token} {arguments : List Expr}
    (h : Complete lo u e mid .call) (hleft : left.kind = .symbol .leftParen)
    (harguments : ItemsText ArgumentText mid w arguments hi)
    (hparen : paren.kind = .symbol .rightParen) :
    Complete lo (u ++ left :: (w ++ [paren])) (.call e paren arguments) hi .call := by
  intro depth rest hdepth
  simp only [List.length_append, List.length_cons, List.length_nil] at hdepth
  obtain ⟨fuel, hfuel, hcallee⟩ := h depth (left :: (w ++ [paren]) ++ rest) (by omega)
  obtain ⟨fuel, rfl⟩ := Nat.exists_eq_succ_of_ne_zero (by omega : fuel ≠ 0)
  refine ⟨fuel, by simp only [List.length_append, List.length_cons, List.length_nil]; omega,
    Leads.trans hcallee ?_⟩
  have hitem : ∀ lo w e hi t rest, ArgumentText lo w e hi → w.length ≤ depth - 1 →
      t.kind = .symbol .comma ∨ t.kind = .symbol .rightParen →
      Reads (expression depth) lo w e hi (t :: rest) := by
    intro lo w e hi t rest he hw ht
    refine he.2 depth _ (by omega) ?_
    rcases ht with ht | ht <;> exact endsExpression_cons ht (by decide)
  have hfirst : ∀ lo w e hi, ArgumentText lo w e hi →
      ∃ t v, w = t :: v ∧ t.isSymbol .rightParen = false := by
    intro lo w e hi he
    obtain ⟨t, v, rfl, ht⟩ := he.1.head
    exact ⟨t, v, rfl, Token.isSymbol_eq_false ht rfl⟩
  rw [callsFrom]
  refine Reads.bind_one (reads_accept ((Token.isSymbol_iff left .leftParen).mpr hleft)) ?_
  have hread := parenthesized_reads .tooManyArguments hitem hfirst harguments
    (by omega : w.length ≤ depth - 1) (by omega : w.length < fuel) hparen "')' after arguments" rest
  exact Reads.bind_last hread Leads.refl

theorem complete_get {dot name : Token} (h : Complete lo w e hi .call)
    (hdot : dot.kind = .symbol .dot) (hname : name.kind = .identifier) :
    Complete lo (w ++ [dot, name]) (.get e name) hi .call := by
  intro depth rest hdepth
  simp only [List.length_append, List.length_cons, List.length_nil] at hdepth
  obtain ⟨fuel, hfuel, hobject⟩ := h depth ([dot, name] ++ rest) (by omega)
  obtain ⟨fuel, rfl⟩ := Nat.exists_eq_succ_of_ne_zero (by omega : fuel ≠ 0)
  refine ⟨fuel, by simp only [List.length_append, List.length_cons, List.length_nil]; omega,
    Leads.trans hobject ?_⟩
  rw [callsFrom]
  refine Reads.bind_none (reads_accept_other (Token.isSymbol_of_kind hdot rfl)) ?_
  refine Reads.bind_one (reads_accept ((Token.isSymbol_iff dot .dot).mpr hdot)) ?_
  exact Reads.bind_one (reads_name _ hname) Leads.refl

/-! ## Operators -/

theorem complete_unoperated (h : Complete lo w e hi .call) {t : Token} {v : List Token}
    (hw : w = t :: v) (ht : t.kind.opensOperand = true) : Complete lo w e hi .unary := by
  intro depth fuel rest hdepth hfuel hends
  subst hw
  rw [List.length_cons] at hdepth hfuel
  obtain ⟨fuel, rfl⟩ := Nat.exists_eq_succ_of_ne_zero (by omega : fuel ≠ 0)
  obtain ⟨left, hleft, hcall⟩ := h depth rest hdepth
  rw [List.length_cons] at hleft
  rw [unary]
  refine Reads.bind_none (reads_takeIf_other ?_) ?_
  · rw [Bool.or_eq_false_iff]
    exact ⟨Token.isSymbol_eq_false ht rfl, Token.isSymbol_eq_false ht rfl⟩
  · have hboth := Leads.trans (w := []) hcall (callsFrom_ends (by omega) hends)
    rwa [List.append_nil] at hboth

theorem complete_unary {operator : Token}
    (hoperator : operator.kind = .symbol .bang ∨ operator.kind = .symbol .minus)
    (h : Complete lo w e hi .unary) : Complete lo (operator :: w) (.unary operator e) hi .unary := by
  intro depth fuel rest hdepth hfuel hends
  rw [List.length_cons] at hdepth hfuel
  obtain ⟨fuel, rfl⟩ := Nat.exists_eq_succ_of_ne_zero (by omega : fuel ≠ 0)
  rw [unary]
  refine Reads.bind_one (reads_takeIf ?_) ?_
  · rwa [Bool.or_eq_true, Token.isSymbol_iff, Token.isSymbol_iff]
  · exact Reads.map _ (h depth fuel rest (by omega) (by omega) hends)

theorem complete_tightest (h : Complete lo w e hi .unary) : Complete lo w e hi (.joined []) :=
  fun depth rest hdepth hends => h depth depth rest hdepth hdepth hends

/-- Once the operators of a level are over, the level is. -/
theorem Complete.reads_joined {levels : List OperatorLevel} (h : Complete lo w e hi (.joined levels))
    {depth : Nat} (hdepth : w.length ≤ depth) (hends : Ends levels rest) :
    Reads (joined (operand depth) depth levels) lo w e hi rest := by
  cases levels with
  | nil => exact h depth rest hdepth hends
  | cons level tighter =>
    have htighter : Ends tighter rest := fun t ht =>
      ⟨(hends t ht).1, (hends t ht).2.1, fun l hl => (hends t ht).2.2 l (List.mem_cons_of_mem _ hl)⟩
    obtain ⟨left, hleft, hloop⟩ := h depth rest hdepth htighter
    obtain ⟨left, rfl⟩ := Nat.exists_eq_succ_of_ne_zero (by omega : left ≠ 0)
    have hstop : Reads (operatorsFrom level (joined (operand depth) depth tighter) (left + 1) e)
        hi [] e hi rest := by
      rw [operatorsFrom]
      exact Reads.bind_none
        (reads_takeIf_none fun t ht => (hends t ht).2.2 level List.mem_cons_self) Leads.refl
    have hboth := Leads.trans (w := []) hloop hstop
    rwa [List.append_nil] at hboth

theorem complete_tighter {level : OperatorLevel} {tighter : List OperatorLevel}
    (h : Complete lo w e hi (.joined tighter)) (hw : 0 < w.length) :
    Complete lo w e hi (.joined (level :: tighter)) := by
  intro depth rest hdepth hends
  refine ⟨depth, by omega, ?_⟩
  rw [joined]
  exact Reads.bind_last (h.reads_joined hdepth hends) Leads.refl

theorem complete_operator {level : OperatorLevel} {tighter : List OperatorLevel} {operator : Token}
    {left right : Expr} (hlevels : level :: tighter <:+ OperatorLevel.all)
    (hleft : Complete lo u left mid (.joined (level :: tighter)))
    (hoperator : level.admits operator = true) (hright : Complete mid w right hi (.joined tighter)) :
    Complete lo (u ++ operator :: w) (level.node left operator right) hi
      (.joined (level :: tighter)) := by
  intro depth rest hdepth hends
  simp only [List.length_append, List.length_cons] at hdepth
  obtain ⟨fuel, hfuel, hloop⟩ := hleft depth (operator :: w ++ rest) (by omega)
    (ends_of_admits hlevels hoperator)
  obtain ⟨fuel, rfl⟩ := Nat.exists_eq_succ_of_ne_zero (by omega : fuel ≠ 0)
  refine ⟨fuel, by simp only [List.length_append, List.length_cons]; omega, Leads.trans hloop ?_⟩
  rw [operatorsFrom]
  refine Reads.bind_one (reads_takeIf hoperator) ?_
  exact Reads.bind_last (hright.reads_joined (by omega) hends) Leads.refl

/-! ## Assignments -/

theorem complete_joined (h : Complete lo w e hi (.joined OperatorLevel.all)) :
    Complete lo w e hi .expression := by
  intro depth rest hdepth hends
  obtain ⟨depth, rfl⟩ := Nat.exists_eq_succ_of_ne_zero (Nat.ne_zero_of_lt hdepth)
  refine Reads.bind_last (h.reads_joined (Nat.le_of_lt_succ hdepth) hends.1) ?_
  exact Reads.bind_none (reads_takeIf_none hends.2) Leads.refl

/-- A target is read as an operand, at the first of which the `=` stands. -/
theorem Complete.reads_target (h : Complete lo w e hi .call) {t : Token} {v : List Token}
    (hw : w = t :: v) (ht : t.kind.opensOperand = true) {depth : Nat} (hdepth : w.length ≤ depth)
    {equals : Token} (hequals : equals.kind = .symbol .equal) :
    Reads (joined (operand depth) depth OperatorLevel.all) lo w e hi (equals :: rest) := by
  -- Without an operator in it, the target stands at every level.
  have hall : ∀ levels, Complete lo w e hi (.joined levels) := by
    intro levels
    induction levels with
    | nil => exact complete_tightest (complete_unoperated h hw ht)
    | cons level tighter ih => exact complete_tighter ih (by rw [hw]; exact Nat.succ_pos _)
  refine (hall OperatorLevel.all).reads_joined hdepth ?_
  rintro _ ⟨⟩
  simp [Token.isSymbol, OperatorLevel.all, OperatorLevel.admits, TokenKind.same, hequals]

theorem complete_assign {name equals : Token} (hname : name.kind = .identifier)
    (hequals : equals.kind = .symbol .equal) (h : Complete (lo + 1) w e hi .expression) :
    Complete lo (name :: equals :: w) (.assign ⟨hi, name⟩ e) (hi + 1) .expression := by
  intro depth rest hdepth hends
  simp only [List.length_cons] at hdepth
  obtain ⟨depth, rfl⟩ := Nat.exists_eq_succ_of_ne_zero (by omega : depth ≠ 0)
  have htarget : Complete lo [name] (.variable ⟨lo, name⟩) (lo + 1) .call :=
    complete_operand (complete_variable hname) Nat.one_pos
  refine Reads.bind_one (htarget.reads_target rfl (by rw [hname]; rfl) (by simp; omega) hequals) ?_
  refine Reads.bind_one (reads_takeIf ((Token.isSymbol_iff equals .equal).mpr hequals)) ?_
  refine Reads.bind_last (h depth rest (by omega) hends) ?_
  exact Reads.bind_none (reads_reference name) Leads.refl

theorem complete_set {dot name equals : Token} {object : Expr} (hobject : Complete lo u object mid .call)
    {t : Token} {v : List Token} (hu : u = t :: v) (ht : t.kind.opensOperand = true)
    (hdot : dot.kind = .symbol .dot) (hname : name.kind = .identifier)
    (hequals : equals.kind = .symbol .equal) (h : Complete mid w e hi .expression) :
    Complete lo (u ++ dot :: name :: equals :: w) (.set object name e) hi .expression := by
  intro depth rest hdepth hends
  simp only [List.length_append, List.length_cons] at hdepth
  obtain ⟨depth, rfl⟩ := Nat.exists_eq_succ_of_ne_zero (by omega : depth ≠ 0)
  have hget := complete_get hobject hdot hname
  have hlength : (u ++ [dot, name]).length ≤ depth := by
    simp only [List.length_append, List.length_cons, List.length_nil]
    omega
  have htarget : Reads (joined (operand depth) depth OperatorLevel.all) lo (u ++ [dot, name])
      (.get object name) mid (equals :: (w ++ rest)) :=
    hget.reads_target (v := v ++ [dot, name]) (by rw [hu]; rfl) ht hlength hequals
  have hword : u ++ dot :: name :: equals :: w = (u ++ [dot, name]) ++ equals :: w := by
    rw [List.append_assoc]
    rfl
  rw [hword]
  refine Reads.bind htarget ?_
  refine Reads.bind_one (reads_takeIf ((Token.isSymbol_iff equals .equal).mpr hequals)) ?_
  exact Reads.bind_last (h depth rest (by omega) hends) Leads.refl

end Operands
end Reading

open Reading

mutual

/-- Every text of an expression is read as that expression. -/
theorem ExprText.complete {place : Place} {lo hi : Nat} {w : List Token} {e : Expr}
    (h : ExprText place lo w e hi) : Complete lo w e hi place :=
  match h with
  | .literal hvalue => complete_literal hvalue
  | .variable hname => complete_variable hname
  | .thisObject hkeyword => complete_thisObject hkeyword
  | .superMethod hkeyword hdot hmethod => complete_superMethod hkeyword hdot hmethod
  | .grouping hleft hinner hright => complete_grouping hleft hinner.complete hright
  | .operand hprimary => complete_operand hprimary.complete hprimary.length_pos
  | .callWithout hcallee hleft hparen =>
    complete_call hcallee.complete hleft (Or.inl ⟨rfl, rfl, rfl⟩) hparen
  | .call hcallee hleft harguments hlength hparen =>
    complete_call hcallee.complete hleft (Or.inr ⟨harguments.complete, hlength⟩) hparen
  | .get hobject hdot hname => complete_get hobject.complete hdot hname
  | .unoperated hcall => by
    obtain ⟨t, v, hw, ht⟩ := hcall.head
    exact complete_unoperated hcall.complete hw ht
  | .unary hoperator hinner => complete_unary hoperator hinner.complete
  | .tightest hunary => complete_tightest hunary.complete
  | .tighter htighter => complete_tighter htighter.complete htighter.length_pos
  | .operator hlevels hleft hoperator hright =>
    complete_operator hlevels hleft.complete hoperator hright.complete
  | .joined hjoined => complete_joined hjoined.complete
  | .assign hname hequals hvalue => complete_assign hname hequals hvalue.complete
  | .set hobject hdot hname hequals hvalue => by
    obtain ⟨t, v, hu, ht⟩ := hobject.head
    exact complete_set hobject.complete hu ht hdot hname hequals hvalue.complete

theorem CommaText.complete {lo hi : Nat} {w : List Token} {es : List Expr}
    (h : CommaText (ExprText .expression) lo w es hi) : CommaText ArgumentText lo w es hi :=
  match h with
  | .last he => .last ⟨he, he.complete⟩
  | .more he hcomma hrest => .more ⟨he, he.complete⟩ hcomma hrest.complete

end

theorem ExprText.reads {lo hi : Nat} {w rest : List Token} {e : Expr} {t : Token} {s : Symbol}
    {depth : Nat} (h : ExprText .expression lo w e hi) (hdepth : w.length < depth)
    (ht : t.kind = .symbol s) (hs : s ∈ Symbol.ending) :
    Reads (expression depth) lo w e hi (t :: rest) :=
  h.complete depth (t :: rest) hdepth (endsExpression_cons ht hs)

/-! ## Expressions in statements -/

section Statements
variable {lo mid hi : Nat} {u w rest : List Token} {e : Expr} {s : Stmt} {depth : Nat}

theorem Reading.reads_optional {e : Option Expr} {t : Token} {closing : Symbol}
    (h : OptionText (ExprText .expression) lo w e hi) (hdepth : w.length < depth)
    (ht : t.kind = .symbol closing) (hclosing : closing = .semicolon ∨ closing = .rightParen) :
    Reads (optionalExpression depth closing) lo w e hi (t :: rest) := by
  unfold optionalExpression
  refine Reads.bind_none reads_nextIs ?_
  cases h with
  | none =>
    rw [if_pos (by exact (Token.isSymbol_iff t closing).mpr ht)]
    exact Leads.refl
  | some he =>
    obtain ⟨first, v, rfl, hfirst⟩ := he.head
    have hopens : ¬ ((first :: v ++ t :: rest).head?.any (·.isSymbol closing) = true) := by
      refine Bool.eq_false_iff.mp (Token.isSymbol_eq_false hfirst ?_)
      rcases hclosing with rfl | rfl <;> rfl
    rw [if_neg hopens]
    refine Reads.map _ (he.reads hdepth ht ?_)
    rcases hclosing with rfl | rfl <;> decide

theorem Reading.reads_condition {left right : Token} (before after : String)
    (hleft : left.kind = .symbol .leftParen) (h : ExprText .expression lo w e hi)
    (hright : right.kind = .symbol .rightParen) (hdepth : w.length < depth) :
    Reads (condition depth before after) lo (left :: (w ++ [right])) e hi rest := by
  refine Reads.bind_one (reads_discard_symbol before hleft) ?_
  refine Reads.bind (h.reads hdepth hright (by decide)) ?_
  exact Reads.bind_one (reads_discard_symbol after hright) Leads.refl

theorem VariableText.reads (h : VariableText lo w s hi) (hdepth : w.length ≤ depth) :
    Reads (variableFrom depth) lo w s hi rest := by
  unfold variableFrom
  cases h with
  | bare hname hstop =>
    refine Reads.bind_one (reads_name _ hname) ?_
    refine Reads.bind_none (reads_accept_other (Token.isSymbol_of_kind hstop rfl)) ?_
    exact Reads.bind_none Leads.refl (Reads.bind_one (reads_discard_symbol _ hstop) Leads.refl)
  | initialized hname hequals he hstop =>
    simp only [List.length_cons, List.length_append] at hdepth
    refine Reads.bind_one (reads_name _ hname) ?_
    refine Reads.bind_one (reads_accept ((Token.isSymbol_iff _ .equal).mpr hequals)) ?_
    refine Reads.bind (Reads.map some (he.reads (by omega) hstop (by decide))) ?_
    exact Reads.bind_one (reads_discard_symbol _ hstop) Leads.refl

theorem ExpressionStatementText.reads (h : ExpressionStatementText lo w s hi)
    (hdepth : w.length ≤ depth) : Reads (expressionStatement depth) lo w s hi rest := by
  cases h with
  | intro he hstop =>
    rw [List.length_append, List.length_singleton] at hdepth
    refine Reads.bind (he.reads hdepth hstop (by decide)) ?_
    exact Reads.bind_one (reads_discard_symbol _ hstop) Leads.refl

theorem InitializerText.reads {initializer : Option Stmt} (h : InitializerText lo w initializer hi)
    (hdepth : w.length ≤ depth) : Reads (forInitializer depth) lo w initializer hi rest := by
  unfold forInitializer
  cases h with
  | none hstop =>
    exact Reads.bind_one (reads_accept ((Token.isSymbol_iff _ .semicolon).mpr hstop)) Leads.refl
  | «variable» hword hs =>
    rw [List.length_cons] at hdepth
    refine Reads.bind_none (reads_accept_other (Token.isSymbol_of_kind hword rfl)) ?_
    refine Reads.bind_one (reads_accept ((Token.isKeyword_iff _ .varWord).mpr hword)) ?_
    exact Reads.map some (hs.reads (by omega))
  | expression hs =>
    obtain ⟨t, v, rfl, ht⟩ : ∃ t v, w = t :: v ∧ t.kind.opensExpression = true := by
      cases hs with
      | intro he _ =>
        obtain ⟨t, v, rfl, ht⟩ := he.head
        exact ⟨t, _, rfl, ht⟩
    refine Reads.bind_none (reads_accept_other (Token.isSymbol_eq_false ht rfl)) ?_
    refine Reads.bind_none (reads_accept_other (Token.isKeyword_eq_false ht rfl)) ?_
    exact Reads.map some (hs.reads hdepth)

end Statements

/-! ## First words -/

section FirstWords
variable {d r next : Reading Stmt} {lo hi depth : Nat} {t : Token} {w rest : List Token}

theorem leads_variable (ht : t.kind = .keyword .varWord)
    (h : Leads (variableFrom depth) lo w next hi rest) :
    Leads (declarationForm d r depth) lo (t :: w) next hi rest := by
  unfold declarationForm
  refine Reads.bind_none (reads_accept_other (Token.isKeyword_of_kind ht rfl)) ?_
  refine Reads.bind_none (reads_accept_other (Token.isKeyword_of_kind ht rfl)) ?_
  exact Reads.bind_one (reads_accept ((Token.isKeyword_iff t .varWord).mpr ht)) h

theorem leads_statement (ht : t.kind.opensStatement = true)
    (h : Leads (statementForm d r depth) lo (t :: w) next hi rest) :
    Leads (declarationForm d r depth) lo (t :: w) next hi rest := by
  unfold declarationForm
  refine Reads.bind_none (reads_accept_other (Token.isKeyword_eq_false ht rfl)) ?_
  refine Reads.bind_none (reads_accept_other (Token.isKeyword_eq_false ht rfl)) ?_
  exact Reads.bind_none (reads_accept_other (Token.isKeyword_eq_false ht rfl)) h

theorem leads_expressionStatement (ht : t.kind.opensExpression = true)
    (h : Leads (expressionStatement depth) lo (t :: w) next hi rest) :
    Leads (statementForm d r depth) lo (t :: w) next hi rest := by
  unfold statementForm
  refine Reads.bind_none (reads_accept_other (Token.isKeyword_eq_false ht rfl)) ?_
  refine Reads.bind_none (reads_accept_other (Token.isKeyword_eq_false ht rfl)) ?_
  refine Reads.bind_none (reads_accept_other (Token.isKeyword_eq_false ht rfl)) ?_
  refine Reads.bind_none (reads_takeIf_other (Token.isKeyword_eq_false ht rfl)) ?_
  refine Reads.bind_none (reads_accept_other (Token.isSymbol_eq_false ht rfl)) ?_
  exact Reads.bind_none (reads_takeIf_other (Token.isKeyword_eq_false ht rfl)) h

theorem leads_print (ht : t.kind = .keyword .printWord)
    (h : Leads (printFrom t depth) lo w next hi rest) :
    Leads (statementForm d r depth) lo (t :: w) next hi rest := by
  unfold statementForm
  refine Reads.bind_none (reads_accept_other (Token.isKeyword_of_kind ht rfl)) ?_
  refine Reads.bind_none (reads_accept_other (Token.isKeyword_of_kind ht rfl)) ?_
  refine Reads.bind_none (reads_accept_other (Token.isKeyword_of_kind ht rfl)) ?_
  refine Reads.bind_none (reads_takeIf_other (Token.isKeyword_of_kind ht rfl)) ?_
  refine Reads.bind_none (reads_accept_other (Token.isSymbol_of_kind ht rfl)) ?_
  exact Reads.bind_one (reads_takeIf ((Token.isKeyword_iff t .printWord).mpr ht)) h

theorem leads_return (ht : t.kind = .keyword .returnWord)
    (h : Leads (returnFrom t depth) lo w next hi rest) :
    Leads (statementForm d r depth) lo (t :: w) next hi rest := by
  unfold statementForm
  refine Reads.bind_none (reads_accept_other (Token.isKeyword_of_kind ht rfl)) ?_
  refine Reads.bind_none (reads_accept_other (Token.isKeyword_of_kind ht rfl)) ?_
  refine Reads.bind_none (reads_accept_other (Token.isKeyword_of_kind ht rfl)) ?_
  exact Reads.bind_one (reads_takeIf ((Token.isKeyword_iff t .returnWord).mpr ht)) h

theorem leads_block (ht : t.kind = .symbol .leftBrace)
    (h : Leads (Stmt.block <$> block d depth) lo w next hi rest) :
    Leads (statementForm d r depth) lo (t :: w) next hi rest := by
  unfold statementForm
  refine Reads.bind_none (reads_accept_other (Token.isKeyword_of_kind ht rfl)) ?_
  refine Reads.bind_none (reads_accept_other (Token.isKeyword_of_kind ht rfl)) ?_
  refine Reads.bind_none (reads_accept_other (Token.isKeyword_of_kind ht rfl)) ?_
  refine Reads.bind_none (reads_takeIf_other (Token.isKeyword_of_kind ht rfl)) ?_
  exact Reads.bind_one (reads_accept ((Token.isSymbol_iff t .leftBrace).mpr ht)) h

end FirstWords

/-! ## Statements -/

def NoElse (rest : List Token) : Prop :=
  ∀ t ∈ rest.head?, t.isKeyword .elseWord = false

/-- What comes of the text of a statement, for a depth that its length does not exceed. -/
def CompleteStmt (dangling : Bool) (lo : Nat) (w : List Token) (s : Stmt) (hi : Nat) : Prop :=
  ∀ depth rest, w.length ≤ depth → (dangling = true → NoElse rest) →
    Reads (statementForm (declaration depth) (statement depth) depth) lo w s hi rest

def CompleteDeclaration (lo : Nat) (w : List Token) (s : Stmt) (hi : Nat) : Prop :=
  ∀ depth rest, w.length ≤ depth → NoElse rest →
    Reads (declarationForm (declaration depth) (statement depth) depth) lo w s hi rest

def CompleteFunction (lo : Nat) (w : List Token) (d : FunctionDeclaration) (hi : Nat) : Prop :=
  ∀ depth fuel kind rest, w.length ≤ depth → w.length ≤ fuel →
    Reads (function (declaration depth) fuel kind) lo w d hi rest

/-- An item of a body, by its text and by how it is read. -/
def BodyText (lo : Nat) (w : List Token) (s : Stmt) (hi : Nat) : Prop :=
  DeclarationText lo w s hi ∧ CompleteDeclaration lo w s hi

def MethodText (lo : Nat) (w : List Token) (d : FunctionDeclaration) (hi : Nat) : Prop :=
  FunctionText lo w d hi ∧ CompleteFunction lo w d hi

section Statements
variable {dangling : Bool} {lo mid hi : Nat} {u w rest : List Token} {e : Expr} {s : Stmt}
  {depth : Nat}

theorem CompleteStmt.reads (h : CompleteStmt dangling lo w s hi) (hdepth : w.length < depth)
    (hrest : dangling = true → NoElse rest) : Reads (statement depth) lo w s hi rest := by
  obtain ⟨depth, rfl⟩ := Nat.exists_eq_succ_of_ne_zero (Nat.ne_zero_of_lt hdepth)
  exact h depth rest (Nat.le_of_lt_succ hdepth) hrest

theorem CompleteDeclaration.reads (h : CompleteDeclaration lo w s hi) (hdepth : w.length < depth)
    (hrest : NoElse rest) : Reads (declaration depth) lo w s hi rest := by
  obtain ⟨depth, rfl⟩ := Nat.exists_eq_succ_of_ne_zero (Nat.ne_zero_of_lt hdepth)
  exact Leads.recovering (h depth rest (Nat.le_of_lt_succ hdepth) hrest)

/-- No declaration starts with an `else`. -/
theorem noElse_of_declarations {body : List Stmt} (h : ListText BodyText lo w body hi)
    (hrest : NoElse rest) : NoElse (w ++ rest) := by
  cases h with
  | nil => exact hrest
  | cons hs _ =>
    obtain ⟨t, v, rfl, ht⟩ := hs.1.head
    rintro _ ⟨⟩
    exact Token.isKeyword_eq_false ht rfl

theorem reads_attempt (h : Reads (declaration depth) lo w s hi rest) :
    Reads (attempt (declaration depth)) lo w (some s) hi rest := by
  intro endLine noted
  unfold attempt
  rw [h endLine noted]
  rfl

/-- The first declaration of a body, and then the others. -/
theorem leads_declarations (h : BodyText lo w s hi) {fuel : Nat} (hdepth : w.length < depth)
    (hrest : NoElse rest) : Leads (declarationsFrom (declaration depth) (fuel + 1)) lo w
      ((s :: ·) <$> declarationsFrom (declaration depth) fuel) hi rest := by
  obtain ⟨t, v, rfl, ht⟩ := h.1.head
  have hfirst : Reads (declaration depth) lo (t :: v) s hi rest := h.2.reads hdepth hrest
  have hopen : t.isSymbol .rightBrace = false := Token.isSymbol_eq_false ht rfl
  rw [declarationsFrom]
  refine Reads.bind_none reads_atEnd (Reads.bind_none reads_nextIs ?_)
  rw [if_neg (by simp [hopen])]
  exact Reads.bind_last (reads_attempt hfirst) Leads.refl

theorem reads_declarations {body : List Stmt} (h : ListText BodyText lo w body hi) {fuel : Nat}
    (hdepth : w.length < depth) (hfuel : w.length < fuel) {closing : Token}
    (hclosing : closing.kind = .symbol .rightBrace) :
    Reads (declarationsFrom (declaration depth) fuel) lo w body hi (closing :: rest) := by
  obtain ⟨fuel, rfl⟩ := Nat.exists_eq_succ_of_ne_zero (Nat.ne_zero_of_lt hfuel)
  induction h generalizing fuel with
  | nil =>
    rw [declarationsFrom]
    refine Reads.bind_none reads_atEnd (Reads.bind_none reads_nextIs ?_)
    rw [if_pos (by simp [Token.isSymbol, TokenKind.same, hclosing])]
    exact Leads.refl
  | @cons lo mid hi u w s body hs hbody ih =>
    have hlength := hs.1.length_pos
    rw [List.length_append] at hdepth hfuel
    obtain ⟨fuel, rfl⟩ := Nat.exists_eq_succ_of_ne_zero (by omega : fuel ≠ 0)
    -- What follows the first declaration is another one or the end of the block, and no `else`.
    have hnext : NoElse (w ++ closing :: rest) := by
      refine noElse_of_declarations hbody ?_
      rintro _ ⟨⟩
      rw [Token.isKeyword, hclosing]
      rfl
    have hothers := ih (by omega) fuel (by omega)
    exact Leads.trans (leads_declarations hs (by omega) hnext) (Reads.map (s :: ·) hothers)

theorem reads_block {body : List Stmt} {closing : Token} {fuel : Nat}
    (h : ListText BodyText lo w body hi) (hdepth : w.length < depth) (hfuel : w.length < fuel)
    (hclosing : closing.kind = .symbol .rightBrace) :
    Reads (block (declaration depth) fuel) lo (w ++ [closing]) body hi rest := by
  refine Reads.bind (reads_declarations h hdepth hfuel hclosing) ?_
  exact Reads.bind_one (reads_discard_symbol _ hclosing) Leads.refl

theorem complete_function {name left right opening closing : Token} {params : List Token}
    {body : List Stmt} (hname : name.kind = .identifier) (hleft : left.kind = .symbol .leftParen)
    (hparams : ItemsText NameText lo u params mid) (hright : right.kind = .symbol .rightParen)
    (hopening : opening.kind = .symbol .leftBrace) (hbody : ListText BodyText mid w body hi)
    (hclosing : closing.kind = .symbol .rightBrace) :
    CompleteFunction lo (name :: left :: (u ++ right :: opening :: (w ++ [closing])))
      ⟨name, params, body⟩ hi := by
  intro depth fuel kind rest hdepth hfuel
  simp only [List.length_cons, List.length_append] at hdepth hfuel
  have hitem : ∀ lo w a hi t rest, NameText lo w a hi → w.length ≤ depth →
      t.kind = .symbol .comma ∨ t.kind = .symbol .rightParen →
      Reads (expectName "parameter name") lo w a hi (t :: rest) := by
    rintro lo w a hi t rest ⟨rfl, ha, rfl⟩ _ _
    exact reads_name _ ha
  have hfirst : ∀ lo w a hi, NameText lo w a hi →
      ∃ t v, w = t :: v ∧ t.isSymbol .rightParen = false := by
    rintro lo w a hi ⟨rfl, ha, rfl⟩
    exact ⟨a, [], rfl, Token.isSymbol_of_kind ha rfl⟩
  have hparenthesized := parenthesized_reads .tooManyParameters hitem hfirst hparams
    (by omega : u.length ≤ depth) (by omega : u.length < fuel) hright "')' after parameters"
    (opening :: (w ++ [closing]) ++ rest)
  have hword : name :: left :: (u ++ right :: opening :: (w ++ [closing])) =
      name :: left :: ((u ++ [right]) ++ opening :: (w ++ [closing])) := by
    rw [List.append_assoc]
    rfl
  unfold function
  rw [hword]
  refine Reads.bind_one (reads_name _ hname) ?_
  refine Reads.bind_one (reads_discard_symbol _ hleft) ?_
  refine Reads.bind hparenthesized ?_
  refine Reads.bind_one (reads_discard_symbol _ hopening) ?_
  exact Reads.bind_last (reads_block hbody (by omega) (by omega) hclosing) Leads.refl

theorem reads_methods {methods : List FunctionDeclaration} (h : ListText MethodText lo w methods hi)
    {fuel : Nat} (hdepth : w.length < depth) (hfuel : w.length < fuel) {closing : Token}
    (hclosing : closing.kind = .symbol .rightBrace) :
    Reads (methodsFrom (declaration depth) fuel) lo w methods hi (closing :: rest) := by
  obtain ⟨fuel, rfl⟩ := Nat.exists_eq_succ_of_ne_zero (Nat.ne_zero_of_lt hfuel)
  induction h generalizing fuel with
  | nil =>
    rw [methodsFrom]
    refine Reads.bind_none reads_atEnd (Reads.bind_none reads_nextIs ?_)
    rw [if_pos (by simp [Token.isSymbol, TokenKind.same, hclosing])]
    exact Leads.refl
  | @cons lo mid hi u w d methods hd hmethods ih =>
    obtain ⟨t, v, rfl, ht⟩ : ∃ t v, u = t :: v ∧ t.kind = .identifier := by
      cases hd.1 with
      | intro hname _ _ _ _ _ _ => exact ⟨_, _, rfl, hname⟩
    simp only [List.length_append, List.length_cons] at hdepth hfuel
    obtain ⟨fuel, rfl⟩ := Nat.exists_eq_succ_of_ne_zero (by omega : fuel ≠ 0)
    rw [methodsFrom]
    refine Reads.bind_none reads_atEnd (Reads.bind_none reads_nextIs ?_)
    rw [if_neg (by simp [Token.isSymbol, TokenKind.same, ht])]
    refine Reads.bind (hd.2 depth (fuel + 1) "method" _ (by rw [List.length_cons]; omega)
      (by rw [List.length_cons]; omega)) ?_
    exact Reads.bind_last (ih (by omega) fuel (by omega)) Leads.refl

/-! ## Declarations -/

theorem complete_class {word name left right : Token} {superclass : Option Expr}
    {methods : List FunctionDeclaration} (hword : word.kind = .keyword .classWord)
    (hname : name.kind = .identifier) (hsuper : SuperclassText lo u superclass mid)
    (hleft : left.kind = .symbol .leftBrace) (hmethods : ListText MethodText mid w methods hi)
    (hright : right.kind = .symbol .rightBrace) :
    CompleteDeclaration lo (word :: name :: (u ++ left :: (w ++ [right])))
      (.classDeclaration name superclass methods) hi := by
  intro depth rest hdepth _
  simp only [List.length_cons, List.length_append] at hdepth
  have hbody : Reads (do
      discard (expectSymbol .leftBrace "'\x7b' before class body")
      let methods ← methodsFrom (declaration depth) depth
      discard (expectSymbol .rightBrace "'\x7d' after class body")
      return Stmt.classDeclaration name superclass methods) mid (left :: (w ++ [right]))
      (.classDeclaration name superclass methods) hi rest := by
    refine Reads.bind_one (reads_discard_symbol _ hleft) ?_
    refine Reads.bind (reads_methods hmethods (by omega) (by omega) hright) ?_
    exact Reads.bind_one (reads_discard_symbol _ hright) Leads.refl
  unfold declarationForm classFrom
  refine Reads.bind_one (reads_accept ((Token.isKeyword_iff word .classWord).mpr hword)) ?_
  refine Reads.bind_one (reads_name _ hname) ?_
  cases hsuper with
  | none =>
    refine Reads.bind_none (reads_accept_other (Token.isSymbol_of_kind hleft rfl)) ?_
    exact Reads.bind_none Leads.refl hbody
  | some hless hparent =>
    refine Reads.bind_one (reads_accept ((Token.isSymbol_iff _ .less).mpr hless)) ?_
    refine Reads.bind_one (reads_name _ hparent) ?_
    exact Reads.bind_none (Reads.map _ (reads_reference _)) hbody

theorem complete_functionDeclaration {word : Token} {d : FunctionDeclaration}
    (hword : word.kind = .keyword .funWord) (h : CompleteFunction lo w d hi) :
    CompleteDeclaration lo (word :: w) (.function d) hi := by
  intro depth rest hdepth _
  rw [List.length_cons] at hdepth
  unfold declarationForm
  refine Reads.bind_none (reads_accept_other (Token.isKeyword_of_kind hword rfl)) ?_
  refine Reads.bind_one (reads_accept ((Token.isKeyword_iff word .funWord).mpr hword)) ?_
  exact Reads.bind_last (h depth depth "function" rest (by omega) (by omega)) Leads.refl

theorem complete_variableDeclaration {word : Token} (hword : word.kind = .keyword .varWord)
    (h : VariableText lo w s hi) : CompleteDeclaration lo (word :: w) s hi := by
  intro depth rest hdepth _
  rw [List.length_cons] at hdepth
  exact leads_variable hword (h.reads (by omega))

theorem complete_statement (h : CompleteStmt dangling lo w s hi) (htext : StmtText dangling lo w s hi) :
    CompleteDeclaration lo w s hi := by
  intro depth rest hdepth hrest
  obtain ⟨t, v, rfl, ht⟩ := htext.head
  exact leads_statement ht (h depth rest hdepth fun _ => hrest)

/-! ## Statements by their first words -/

theorem complete_expressionStatement (h : ExpressionStatementText lo w s hi) :
    CompleteStmt false lo w s hi := by
  intro depth rest hdepth _
  obtain ⟨t, v, rfl, ht⟩ : ∃ t v, w = t :: v ∧ t.kind.opensExpression = true := by
    cases h with
    | intro he _ =>
      obtain ⟨t, v, rfl, ht⟩ := he.head
      exact ⟨t, _, rfl, ht⟩
  exact leads_expressionStatement ht (h.reads hdepth)

theorem complete_print {word stop : Token} (hword : word.kind = .keyword .printWord)
    (he : ExprText .expression lo w e hi) (hstop : stop.kind = .symbol .semicolon) :
    CompleteStmt false lo (word :: (w ++ [stop])) (.print word e) hi := by
  intro depth rest hdepth _
  simp only [List.length_cons, List.length_append] at hdepth
  refine leads_print hword (Reads.bind (he.reads (by omega) hstop (by decide)) ?_)
  exact Reads.bind_one (reads_discard_symbol _ hstop) Leads.refl

theorem complete_return {word stop : Token} {e : Option Expr}
    (hword : word.kind = .keyword .returnWord) (he : OptionText (ExprText .expression) lo w e hi)
    (hstop : stop.kind = .symbol .semicolon) :
    CompleteStmt false lo (word :: (w ++ [stop])) (.returnWith word e) hi := by
  intro depth rest hdepth _
  simp only [List.length_cons, List.length_append] at hdepth
  refine leads_return hword (Reads.bind (reads_optional he (by omega) hstop (Or.inl rfl)) ?_)
  exact Reads.bind_one (reads_discard_symbol _ hstop) Leads.refl

theorem complete_block {left right : Token} {body : List Stmt}
    (hleft : left.kind = .symbol .leftBrace) (hbody : ListText BodyText lo w body hi)
    (hright : right.kind = .symbol .rightBrace) :
    CompleteStmt false lo (left :: (w ++ [right])) (.block body) hi := by
  intro depth rest hdepth _
  simp only [List.length_cons, List.length_append] at hdepth
  have hread : Reads (block (declaration depth) depth) lo (w ++ [right]) body hi rest :=
    reads_block hbody (by omega) (by omega) hright
  exact leads_block hleft (Reads.map Stmt.block hread)

/-! ## Conditionals and loops -/

theorem complete_conditional {word left right : Token} (hword : word.kind = .keyword .ifWord)
    (hleft : left.kind = .symbol .leftParen) (he : ExprText .expression lo u e mid)
    (hright : right.kind = .symbol .rightParen) (h : CompleteStmt dangling mid w s hi) :
    CompleteStmt true lo (word :: left :: (u ++ right :: w)) (.conditional e s none) hi := by
  intro depth rest hdepth hrest
  simp only [List.length_cons, List.length_append] at hdepth
  have hnone := hrest rfl
  have hparts : left :: (u ++ right :: w) = (left :: (u ++ [right])) ++ w := by
    rw [List.cons_append, List.append_assoc]
    rfl
  unfold statementForm ifFrom
  rw [hparts]
  refine Reads.bind_none (reads_accept_other (Token.isKeyword_of_kind hword rfl)) ?_
  refine Reads.bind_one (reads_accept ((Token.isKeyword_iff word .ifWord).mpr hword)) ?_
  refine Reads.bind (reads_condition _ _ hleft he hright (by omega)) ?_
  refine Reads.bind_last (h.reads (by omega) fun _ => hnone) ?_
  exact Reads.bind_none (reads_accept_none hnone) (Reads.bind_none Leads.refl Leads.refl)

theorem complete_alternative {mid' : Nat} {v : List Token} {word left right other : Token} {s' : Stmt}
    (hword : word.kind = .keyword .ifWord) (hleft : left.kind = .symbol .leftParen)
    (he : ExprText .expression lo u e mid) (hright : right.kind = .symbol .rightParen)
    (h : CompleteStmt false mid v s mid') (hother : other.kind = .keyword .elseWord)
    (h' : CompleteStmt dangling mid' w s' hi) :
    CompleteStmt dangling lo (word :: left :: (u ++ right :: (v ++ other :: w)))
      (.conditional e s (some s')) hi := by
  intro depth rest hdepth hrest
  simp only [List.length_cons, List.length_append] at hdepth
  have hparts : left :: (u ++ right :: (v ++ other :: w)) =
      (left :: (u ++ [right])) ++ (v ++ other :: w) := by
    rw [List.cons_append, List.append_assoc]
    rfl
  unfold statementForm ifFrom
  rw [hparts]
  refine Reads.bind_none (reads_accept_other (Token.isKeyword_of_kind hword rfl)) ?_
  refine Reads.bind_one (reads_accept ((Token.isKeyword_iff word .ifWord).mpr hword)) ?_
  refine Reads.bind (reads_condition _ _ hleft he hright (by omega)) ?_
  refine Reads.bind (h.reads (by omega) nofun) ?_
  refine Reads.bind_one (reads_accept ((Token.isKeyword_iff other .elseWord).mpr hother)) ?_
  exact Reads.bind_last (Reads.map some (h'.reads (by omega) hrest)) Leads.refl

theorem complete_loop {word left right : Token} (hword : word.kind = .keyword .whileWord)
    (hleft : left.kind = .symbol .leftParen) (he : ExprText .expression lo u e mid)
    (hright : right.kind = .symbol .rightParen) (h : CompleteStmt dangling mid w s hi) :
    CompleteStmt dangling lo (word :: left :: (u ++ right :: w)) (.loop e s) hi := by
  intro depth rest hdepth hrest
  simp only [List.length_cons, List.length_append] at hdepth
  have hparts : left :: (u ++ right :: w) = (left :: (u ++ [right])) ++ w := by
    rw [List.cons_append, List.append_assoc]
    rfl
  unfold statementForm whileFrom
  rw [hparts]
  refine Reads.bind_none (reads_accept_other (Token.isKeyword_of_kind hword rfl)) ?_
  refine Reads.bind_none (reads_accept_other (Token.isKeyword_of_kind hword rfl)) ?_
  refine Reads.bind_one (reads_accept ((Token.isKeyword_iff word .whileWord).mpr hword)) ?_
  refine Reads.bind (reads_condition _ _ hleft he hright (by omega)) ?_
  exact Reads.bind_last (h.reads (by omega) hrest) Leads.refl

theorem complete_forLoop {first second third : Nat} {v v' : List Token}
    {word left stop right : Token} {initializer : Option Stmt} {test increment : Option Expr}
    (hword : word.kind = .keyword .forWord) (hleft : left.kind = .symbol .leftParen)
    (hinit : InitializerText lo u initializer first)
    (htest : OptionText (ExprText .expression) first v test second)
    (hstop : stop.kind = .symbol .semicolon)
    (hincrement : OptionText (ExprText .expression) second v' increment third)
    (hright : right.kind = .symbol .rightParen) (h : CompleteStmt dangling third w s hi) :
    CompleteStmt dangling lo (word :: left :: (u ++ (v ++ stop :: (v' ++ right :: w))))
      (.forLoop initializer test increment s) hi := by
  intro depth rest hdepth hrest
  simp only [List.length_cons, List.length_append] at hdepth
  unfold statementForm forFrom
  refine Reads.bind_one (reads_accept ((Token.isKeyword_iff word .forWord).mpr hword)) ?_
  refine Reads.bind_one (reads_discard_symbol _ hleft) ?_
  refine Reads.bind (hinit.reads (by omega)) ?_
  refine Reads.bind (reads_optional htest (by omega) hstop (Or.inl rfl)) ?_
  refine Reads.bind_one (reads_discard_symbol _ hstop) ?_
  refine Reads.bind (reads_optional hincrement (by omega) hright (Or.inr rfl)) ?_
  refine Reads.bind_one (reads_discard_symbol _ hright) ?_
  exact Reads.bind_last (h.reads (by omega) hrest) Leads.refl

end Statements

mutual

/-- Every text of a statement is read as that statement. -/
theorem StmtText.complete {dangling : Bool} {lo hi : Nat} {w : List Token} {s : Stmt}
    (h : StmtText dangling lo w s hi) : CompleteStmt dangling lo w s hi :=
  match h with
  | .expression hs => complete_expressionStatement hs
  | .print hword he hstop => complete_print hword he hstop
  | .returnWith hword he hstop => complete_return hword he hstop
  | .block hleft hbody hright => complete_block hleft hbody.complete hright
  | .conditional hword hleft he hright hs =>
    complete_conditional hword hleft he hright hs.complete
  | .alternative hword hleft he hright hs hother hs' =>
    complete_alternative hword hleft he hright hs.complete hother hs'.complete
  | .loop hword hleft he hright hs => complete_loop hword hleft he hright hs.complete
  | .forLoop hword hleft hinit htest hstop hincrement hright hs =>
    complete_forLoop hword hleft hinit htest hstop hincrement hright hs.complete

theorem DeclarationText.complete {lo hi : Nat} {w : List Token} {s : Stmt}
    (h : DeclarationText lo w s hi) : CompleteDeclaration lo w s hi :=
  match h with
  | .statement hs => complete_statement hs.complete hs
  | .variable hword hs => complete_variableDeclaration hword hs
  | .function hword hd => complete_functionDeclaration hword hd.complete
  | .classDeclaration hword hname hsuper hleft hmethods hright =>
    complete_class hword hname hsuper hleft hmethods.completeMethods hright

theorem FunctionText.complete {lo hi : Nat} {w : List Token} {d : FunctionDeclaration}
    (h : FunctionText lo w d hi) : CompleteFunction lo w d hi :=
  match h with
  | .intro hname hleft hparams hright hopening hbody hclosing =>
    complete_function hname hleft hparams hright hopening hbody.complete hclosing

theorem ListText.complete {lo hi : Nat} {w : List Token} {body : List Stmt}
    (h : ListText DeclarationText lo w body hi) : ListText BodyText lo w body hi :=
  match h with
  | .nil => .nil
  | .cons hs hbody => .cons ⟨hs, hs.complete⟩ hbody.complete

theorem ListText.completeMethods {lo hi : Nat} {w : List Token} {methods : List FunctionDeclaration}
    (h : ListText FunctionText lo w methods hi) : ListText MethodText lo w methods hi :=
  match h with
  | .nil => .nil
  | .cons hd hmethods => .cons ⟨hd, hd.complete⟩ hmethods.completeMethods

end

/-! ## Programs and single expressions -/

theorem programItemsFrom_of_text {depth fuel lo hi : Nat} {w : List Token} {program : List Stmt}
    (h : ListText BodyText lo w program hi) (hdepth : w.length < depth) (hfuel : w.length < fuel)
    (endLine : Nat) :
    programItemsFrom depth fuel ⟨w, endLine, [], lo⟩ = (program.map Except.ok, hi) := by
  obtain ⟨fuel, rfl⟩ := Nat.exists_eq_succ_of_ne_zero (Nat.ne_zero_of_lt hfuel)
  induction h generalizing fuel with
  | nil => rfl
  | @cons lo mid hi u w s program hs hprogram ih =>
    obtain ⟨t, v, rfl, ht⟩ := hs.1.head
    simp only [List.length_append, List.length_cons] at hdepth hfuel
    obtain ⟨fuel, rfl⟩ := Nat.exists_eq_succ_of_ne_zero (by omega : fuel ≠ 0)
    have hnext : NoElse w := by
      have hrest : NoElse (w ++ []) := noElse_of_declarations hprogram nofun
      rwa [List.append_nil] at hrest
    have hitem : (Reading.declaration depth : Reading Stmt) ⟨t :: v ++ w, endLine, [], lo⟩ =
        .ok s ⟨w, endLine, [], mid⟩ :=
      hs.2.reads (by rw [List.length_cons]; omega) hnext endLine []
    have hrest := ih (by omega) fuel (by omega)
    rw [programItemsFrom, if_neg (by exact Bool.false_ne_true), readItem, hitem]
    simp only [hrest, List.map_nil, List.nil_append, List.map_cons]

/-- Declarations without a fault among them are a program. -/
theorem programOfItems_ok (program : List Stmt) :
    programOfItems (program.map Except.ok) = .ok program := by
  have hfaults : (program.map Except.ok).filterMap ProgramItem.fault? = [] := by
    simp [ProgramItem.fault?]
  have hdeclarations : (program.map Except.ok).filterMap ProgramItem.declaration? = program := by
    rw [List.filterMap_map]
    exact List.filterMap_some
  rw [programOfItems, hfaults, hdeclarations]

/-- The text of a program is read as that program. -/
theorem programItems_of_text {tokens : List Token} {lo hi : Nat} {program : List Stmt}
    (h : ListText DeclarationText lo (tokens.takeWhile (!·.isEnd)) program hi) :
    programItems tokens lo = (program.map Except.ok, hi) := by
  have hlength : (tokens.takeWhile (!·.isEnd)).length ≤ tokens.length :=
    (List.takeWhile_prefix _).length_le
  exact programItemsFrom_of_text h.complete (by unfold depthBound; omega) (Nat.lt_succ_self _) _

/-- The text of an expression is read as that expression. -/
theorem expressionOfTokens_of_text {tokens : List Token} {lo hi : Nat} {e : Expr}
    (h : ExprText .expression lo (tokens.takeWhile (!·.isEnd)) e hi) :
    expressionOfTokens tokens lo = (.ok e, hi) := by
  have hlength : (tokens.takeWhile (!·.isEnd)).length ≤ tokens.length :=
    (List.takeWhile_prefix _).length_le
  have hread : (Reading.expression (depthBound tokens) : Reading Expr) (.start tokens lo) =
      .ok e ⟨[], (Cursor.start tokens lo).endLine, [], hi⟩ := by
    have hcomplete := h.complete (depthBound tokens) [] (by unfold depthBound; omega)
      endsExpression_nil (Cursor.start tokens lo).endLine []
    rwa [List.append_nil] at hcomplete
  unfold expressionOfTokens Reading.wholeExpression
  simp only [bind, EStateM.bind, hread]
  rfl

end LoxLang
