import LoxLang.Proofs.Grammar.Canonical
import LoxLang.Proofs.Grammar.Derivation
import LoxLang.Proofs.Syntax.Reading

/-!
Going on after a fault inside blocks. A statement lacks its semicolon before the brace that closes
its block; `braces_passed_over` says what is read then. The brace is the token at fault, and reading
goes on after it at the next statement boundary, which lies behind all braces that follow. So the
blocks stay open, the statements from there on are read into the innermost of them, and each block
is found to lack its brace at the end of the input.
-/
namespace LoxLang
open Reading
set_option autoImplicit false

/-! ## Readings that stop -/

/-- The reading takes given tokens and stops with a fault. -/
abbrev Fails {α : Type} (r : Reading α) (lo : Nat) (w : List Token) (f : SyntaxFault) (hi : Nat)
    (rest : List Token) : Prop :=
  Leads r lo w (throw (.fault f)) hi rest

section Rules
variable {α β : Type} {r : Reading α} {f : SyntaxFault}

theorem bind_fault {g : α → Reading β} {c after : Cursor} (h : r c = .error (.fault f) after) :
    (r >>= g) c = .error (.fault f) after := by
  change EStateM.bind r g c = _
  rw [EStateM.bind, h]

theorem map_fault {g : α → β} {c after : Cursor} (h : r c = .error (.fault f) after) :
    (g <$> r) c = .error (.fault f) after := by
  change EStateM.map g r c = _
  rw [EStateM.map, h]

theorem recovering_fault {c after : Cursor} (h : r c = .error (.fault f) after) :
    recovering r c = .error (.fault f) { after with rest := resume after.rest } := by
  rw [recovering, h]

theorem Fails.bind {lo hi : Nat} {w rest : List Token} {g : α → Reading β}
    (h : Fails r lo w f hi rest) : Fails (r >>= g) lo w f hi rest :=
  fun endLine noted => bind_fault (h endLine noted)

theorem Fails.map {lo hi : Nat} {w rest : List Token} {g : α → β} (h : Fails r lo w f hi rest) :
    Fails (g <$> r) lo w f hi rest :=
  fun endLine noted => map_fault (h endLine noted)

/-- A symbol that is missed where something else follows, be it the end of the input. -/
theorem symbol_missed {s : Symbol} {c : Cursor} (what : String)
    (h : ∀ t ∈ c.rest.head?, t.isSymbol s = false) :
    (discard (expectSymbol s what) : Reading Unit) c = .error (.fault ⟨.expected what, c.peek⟩) c := by
  have hfails : Leads (expectSymbol s what) c.nextId [] (failHere (.expected what)) c.nextId c.rest :=
    Reads.bind_none (reads_takeIf_none h) Leads.refl
  exact map_fault (hfails c.endLine c.noted)

end Rules

/-! ## Statements without their semicolon -/

/-- The tokens of a simple statement up to its semicolon, and what is missed if a closing brace comes
in its place. -/
inductive OpenText : Nat → List Token → String → Nat → Prop
  | expression {lo hi : Nat} {w : List Token} {e : Expr} : ExprText .expression lo w e hi →
    OpenText lo w "';' after expression" hi
  | print {lo hi : Nat} {word : Token} {w : List Token} {e : Expr} :
    word.kind = .keyword .printWord → ExprText .expression lo w e hi →
    OpenText lo (word :: w) "';' after value" hi
  | returnNothing {lo : Nat} {word : Token} : word.kind = .keyword .returnWord →
    OpenText lo [word] "expression" lo
  | returnWith {lo hi : Nat} {word : Token} {w : List Token} {e : Expr} :
    word.kind = .keyword .returnWord → ExprText .expression lo w e hi →
    OpenText lo (word :: w) "';' after return value" hi
  | bare {lo : Nat} {word name : Token} : word.kind = .keyword .varWord → name.kind = .identifier →
    OpenText lo [word, name] "';' after variable declaration" lo
  | initialized {lo hi : Nat} {word name equals : Token} {w : List Token} {e : Expr} :
    word.kind = .keyword .varWord → name.kind = .identifier → equals.kind = .symbol .equal →
    ExprText .expression lo w e hi →
    OpenText lo (word :: name :: equals :: w) "';' after variable declaration" hi

theorem OpenText.head {lo hi : Nat} {w : List Token} {what : String} (h : OpenText lo w what hi) :
    ∃ t v, w = t :: v ∧ t.kind.opensDeclaration = true := by
  cases h with
  | expression he =>
    obtain ⟨t, v, rfl, ht⟩ := he.head
    have hstatement := TokenKind.opensStatement_of_opensExpression ht
    exact ⟨t, v, rfl, TokenKind.opensDeclaration_of_opensStatement hstatement⟩
  | print hword _ => exact ⟨_, _, rfl, by rw [hword]; rfl⟩
  | returnNothing hword => exact ⟨_, _, rfl, by rw [hword]; rfl⟩
  | returnWith hword _ => exact ⟨_, _, rfl, by rw [hword]; rfl⟩
  | bare hword _ => exact ⟨_, _, rfl, by rw [hword]; rfl⟩
  | initialized hword _ _ _ => exact ⟨_, _, rfl, by rw [hword]; rfl⟩

section BeforeBrace
variable {lo hi depth : Nat} {w rest : List Token} {e : Expr} {closing : Token}
  (hclosing : closing.kind = .symbol .rightBrace)
include hclosing

/-- The brace is no first token of an expression. -/
theorem fails_expression (hdepth : 1 < depth) :
    Fails (expression depth) lo [] ⟨.expected "expression", closing⟩ lo (closing :: rest) := by
  obtain ⟨depth, rfl⟩ := Nat.exists_eq_add_of_lt hdepth
  have hprimary : Fails (primary (expression (1 + depth))) lo []
      ⟨.expected "expression", closing⟩ lo (closing :: rest) := by
    unfold primary
    refine Reads.bind_none reads_peek ?_
    rw [hclosing]
    exact fun _ _ => rfl
  have hoperand : Fails (operand (1 + depth)) lo [] ⟨.expected "expression", closing⟩ lo
      (closing :: rest) := by
    rw [operand, Nat.add_comm, unary]
    refine Reads.bind_none (reads_takeIf_other ?_) (Fails.bind ?_)
    · rw [Token.isSymbol_of_kind hclosing rfl, Token.isSymbol_of_kind hclosing rfl]
      rfl
    · rwa [Nat.add_comm]
  have hjoined : ∀ levels, Fails (joined (operand (1 + depth)) (1 + depth) levels) lo []
      ⟨.expected "expression", closing⟩ lo (closing :: rest) := by
    intro levels
    induction levels with
    | nil => exact hoperand
    | cons level tighter ih => exact Fails.bind ih
  rw [expression, assignment]
  exact Fails.bind (hjoined OperatorLevel.all)

theorem fails_semicolon (what : String) :
    Fails (discard (expectSymbol .semicolon what)) lo [] ⟨.expected what, closing⟩ lo
      (closing :: rest) :=
  fun _ _ => symbol_missed what (by rintro _ ⟨⟩; exact Token.isSymbol_of_kind hclosing rfl)

/-- A statement whose semicolon is missed at a closing brace. -/
theorem OpenText.fails {what : String} (h : OpenText lo w what hi) (hdepth : w.length < depth)
    (d r : Reading Stmt) :
    Fails (declarationForm d r depth) lo w ⟨.expected what, closing⟩ hi (closing :: rest) := by
  have hends : EndsExpression (closing :: rest) := endsExpression_before hclosing List.mem_cons_self
  cases h with
  | expression he =>
    have hread := he.complete depth _ hdepth hends
    obtain ⟨t, v, rfl, ht⟩ := he.head
    refine leads_statement (TokenKind.opensStatement_of_opensExpression ht) ?_
    refine leads_expressionStatement ht (Reads.bind_last hread ?_)
    exact Fails.bind (fails_semicolon hclosing _)
  | print hword he =>
    rw [List.length_cons] at hdepth
    have hread := he.complete depth _ (by omega) hends
    refine leads_statement (by rw [hword]; rfl) (leads_print hword (Reads.bind_last hread ?_))
    exact Fails.bind (fails_semicolon hclosing _)
  | returnNothing hword =>
    refine leads_statement (by rw [hword]; rfl) (leads_return hword (Fails.bind ?_))
    refine Reads.bind_none reads_nextIs ?_
    have hother : ¬ (([] : List Token) ++ closing :: rest).head?.any (·.isSymbol .semicolon) = true :=
      Bool.eq_false_iff.mp (Token.isSymbol_of_kind hclosing rfl)
    rw [if_neg hother]
    exact Fails.map (fails_expression hclosing hdepth)
  | @returnWith _ word w e hword he =>
    rw [List.length_cons] at hdepth
    have hread := he.complete depth _ (by omega) hends
    obtain ⟨t, v, rfl, ht⟩ := he.head
    have hvalue : Reads (optionalExpression depth .semicolon) lo (t :: v) (some e) hi
        (closing :: rest) := by
      refine Reads.bind_none reads_nextIs ?_
      have hother : ¬ (t :: v ++ closing :: rest).head?.any (·.isSymbol .semicolon) = true :=
        Bool.eq_false_iff.mp (Token.isSymbol_eq_false ht rfl)
      rw [if_neg hother]
      exact Reads.map some hread
    refine leads_statement (by rw [hword]; rfl) (leads_return hword (Reads.bind_last hvalue ?_))
    exact Fails.bind (fails_semicolon hclosing _)
  | bare hword hname =>
    refine leads_variable hword (Reads.bind_one (reads_name _ hname) ?_)
    refine Reads.bind_none (reads_accept_other (Token.isSymbol_of_kind hclosing rfl)) ?_
    exact Reads.bind_none Leads.refl (Fails.bind (fails_semicolon hclosing _))
  | initialized hword hname hequals he =>
    simp only [List.length_cons] at hdepth
    have hread := he.complete depth _ (by omega) hends
    refine leads_variable hword (Reads.bind_one (reads_name _ hname) ?_)
    refine Reads.bind_one (reads_accept ((Token.isSymbol_iff _ .equal).mpr hequals)) ?_
    refine Reads.bind_last (Reads.map some hread) ?_
    exact Fails.bind (fails_semicolon hclosing _)

end BeforeBrace

/-- What is derived as a simple statement has such a text before its last token. -/
theorem exists_openText {category : Category} {w : List Token} {stop : Token}
    (hcategory : category ∈ [Category.expressionStatement, .printStatement, .returnStatement,
      .variableDeclaration]) (h : Derived category (w ++ [stop])) (lo : Nat) :
    ∃ what hi, OpenText lo w what hi := by
  have hvalue : ∀ v, Derived .expression v → ∃ e hi, ExprText .expression lo v e hi :=
    fun v hv => (hv.holds Category.text_of_holds : Category.expression.Text v) lo
  have hfront : ∀ {v stop'}, w ++ [stop] = v ++ [stop'] → w = v :=
    fun heq => (List.append_inj' heq rfl).1
  have hrule := (derived_iff category _).mp h
  simp only [List.mem_cons, List.not_mem_nil, or_false] at hcategory
  rcases hcategory with rfl | rfl | rfl | rfl
  · obtain ⟨v, _, hw, hv, _, _, rfl, ⟨stop', rfl, -⟩, rfl⟩ := hrule
    obtain rfl := hfront hw
    obtain ⟨e, hi, he⟩ := hvalue w hv
    exact ⟨_, hi, .expression he⟩
  · obtain ⟨_, _, hw, ⟨word, rfl, hword⟩, v, _, rfl, hv, _, _, rfl, ⟨stop', rfl, -⟩, rfl⟩ := hrule
    obtain rfl : w = word :: v := hfront hw
    obtain ⟨e, hi, he⟩ := hvalue v hv
    exact ⟨_, hi, .print hword he⟩
  · obtain ⟨_, _, hw, ⟨word, rfl, hword⟩, v, _, rfl, hv, _, _, rfl, ⟨stop', rfl, -⟩, rfl⟩ := hrule
    obtain rfl : w = word :: v := hfront hw
    obtain rfl | hv := hv
    · exact ⟨_, lo, .returnNothing hword⟩
    · obtain ⟨e, hi, he⟩ := hvalue v hv
      exact ⟨_, hi, .returnWith hword he⟩
  · obtain ⟨_, _, hw, ⟨word, rfl, hword⟩, _, _, rfl, ⟨name, rfl, hname⟩, v, _, rfl, hv, _, _, rfl,
      ⟨stop', rfl, -⟩, rfl⟩ := hrule
    obtain rfl : w = word :: name :: v := hfront hw
    obtain rfl | ⟨_, _, rfl, ⟨equals, rfl, hequals⟩, v, _, rfl, hv, rfl⟩ := hv
    · exact ⟨_, lo, .bare hword hname⟩
    · obtain ⟨e, hi, he⟩ := hvalue v hv
      rw [List.append_nil]
      exact ⟨_, hi, .initialized hword hname hequals he⟩

/-! ## Where reading goes on -/

/-- A token that is not the last of a statement and not the first of one. -/
def Token.Passed (t : Token) : Prop :=
  t.isSymbol .semicolon = false ∧ t.startsStatement = false

theorem Token.passed_of_kind {t : Token} {kind : TokenKind} (ht : t.kind = kind)
    (hkind : kind.inExpression = true ∨ kind = .symbol .rightBrace) : t.Passed := by
  constructor
  · refine Token.isSymbol_of_kind ht (Bool.eq_false_iff.mpr fun hsame => ?_)
    rw [TokenKind.same_symbol_iff] at hsame
    subst hsame
    rcases hkind with h | h <;> cases h
  · refine List.any_eq_false.mpr fun k hk hsame => ?_
    rw [Token.isKeyword_iff, ht] at hsame
    subst hsame
    rcases hkind with h | h
    · revert h hk
      cases k <;> decide
    · cases h

theorem resumeAfter_passed {previous : Token} {run : List Token} (hprevious : previous.Passed)
    (hrun : ∀ t ∈ run, t.Passed) (rest : List Token) :
    ∃ last : Token, last.Passed ∧ resumeAfter previous (run ++ rest) = resumeAfter last rest := by
  induction run generalizing previous with
  | nil => exact ⟨previous, hprevious, rfl⟩
  | cons t run ih =>
    obtain ⟨ht, hrun⟩ := List.forall_mem_cons.mp hrun
    obtain ⟨last, hlast, heq⟩ := ih ht hrun
    refine ⟨last, hlast, ?_⟩
    rw [List.cons_append, resumeAfter, hprevious.1, ht.2]
    exact heq

/-- How a declaration starts: with a word that reading goes on at, with a brace, or as an expression
whose semicolon comes first. -/
theorem DeclarationText.opening {lo hi : Nat} {w : List Token} {s : Stmt}
    (h : DeclarationText lo w s hi) :
    (∃ t v, w = t :: v ∧ t.startsStatement = true) ∨
    (∃ t v, w = t :: v ∧ t.kind = .symbol .leftBrace) ∨
    ∃ v stop, w = v ++ [stop] ∧ (∀ t ∈ v, t.Passed) ∧ stop.kind = .symbol .semicolon := by
  have hstarts : ∀ {t : Token} {v k}, t.kind = .keyword k →
      k ∈ [.classWord, .funWord, .varWord, .forWord, .ifWord, .whileWord, .printWord, .returnWord] →
      ∃ t' v', t :: v = t' :: v' ∧ t'.startsStatement = true := by
    intro t v k ht hk
    exact ⟨t, v, rfl, List.any_eq_true.mpr ⟨k, hk, (Token.isKeyword_iff t k).mpr ht⟩⟩
  cases h with
  | statement hs =>
    cases hs with
    | expression hs =>
      cases hs with
      | intro he hstop =>
        refine Or.inr (Or.inr ⟨_, _, rfl, fun t ht => ?_, hstop⟩)
        exact Token.passed_of_kind rfl (Or.inl (he.inExpression t ht))
    | block hleft _ _ => exact Or.inr (Or.inl ⟨_, _, rfl, hleft⟩)
    | print hword _ _ => exact Or.inl (hstarts hword (by decide))
    | returnWith hword _ _ => exact Or.inl (hstarts hword (by decide))
    | conditional hword _ _ _ _ => exact Or.inl (hstarts hword (by decide))
    | alternative hword _ _ _ _ _ _ => exact Or.inl (hstarts hword (by decide))
    | loop hword _ _ _ _ => exact Or.inl (hstarts hword (by decide))
    | forLoop hword _ _ _ _ _ _ _ => exact Or.inl (hstarts hword (by decide))
  | «variable» hword _ => exact Or.inl (hstarts hword (by decide))
  | function hword _ => exact Or.inl (hstarts hword (by decide))
  | classDeclaration hword _ _ _ _ _ => exact Or.inl (hstarts hword (by decide))

/-- After a fault at the first of some closing braces, reading goes on behind all of them, with the
program that follows or behind its first statement. -/
theorem resume_braces {closing : Token} {closes program : List Token}
    (hcloses : ∀ t ∈ closing :: closes, t.kind = .symbol .rightBrace)
    (hprogram : Derived .program program)
    (hfirst : ∀ t ∈ program.head?, t.isSymbol .leftBrace = false) :
    resume (closing :: (closes ++ program)) <:+ program ∧
      Derived .program (resume (closing :: (closes ++ program))) := by
  have hpassed : ∀ t ∈ closing :: closes, t.Passed :=
    fun t ht => Token.passed_of_kind (hcloses t ht) (Or.inr rfl)
  obtain ⟨hclosing, hcloses⟩ := List.forall_mem_cons.mp hpassed
  obtain ⟨last, hlast, hresume⟩ := resumeAfter_passed hclosing hcloses program
  obtain ⟨ss, hi, htext⟩ := (derived_program_iff program 0).mp hprogram
  rw [resume, hresume]
  cases htext with
  | nil => exact ⟨List.suffix_refl _, hprogram⟩
  | @cons _ mid _ u w s ss hs hrest =>
    obtain ⟨t, v, rfl, ht⟩ | ⟨t, v, rfl, ht⟩ | ⟨v, stop, rfl, hv, hstop⟩ := hs.opening
    · have hstay : resumeAfter last (t :: v ++ w) = t :: v ++ w := by
        rw [List.cons_append, resumeAfter, ht, Bool.or_true]
        rfl
      rw [hstay]
      exact ⟨List.suffix_refl _, hprogram⟩
    · have hbrace := hfirst t rfl
      rw [(Token.isSymbol_iff t .leftBrace).mpr ht] at hbrace
      cases hbrace
    · obtain ⟨last', hlast', hskip⟩ := resumeAfter_passed hlast hv ([stop] ++ w)
      have hafter : resumeAfter stop w = w := by
        cases w with
        | nil => rfl
        | cons t w =>
          rw [resumeAfter, (Token.isSymbol_iff stop .semicolon).mpr hstop, Bool.true_or]
          rfl
      have hstarts : stop.startsStatement = false := by
        simp [Token.startsStatement, Token.isKeyword, TokenKind.same, hstop]
      rw [List.append_assoc, hskip, List.cons_append, resumeAfter, hlast'.1, hstarts]
      change resumeAfter stop w <:+ _ ∧ Derived .program (resumeAfter stop w)
      rw [hafter]
      refine ⟨?_, (derived_program_iff w mid).mpr ⟨ss, hi, hrest⟩⟩
      exact ⟨v ++ [stop], by rw [List.append_assoc]; rfl⟩

/-! ## Blocks that stay open -/

/-- Inside a block all tokens up to the end of the input are read as more of it, and some faults are
noted on the way. -/
def Unclosed (endLine : Nat) (faults : List SyntaxFault) (w : List Token) (lo : Nat) : Prop :=
  ∀ depth fuel noted, w.length < depth → w.length < fuel → ∃ body hi,
    (declarationsFrom (declaration depth) fuel : Reading (List Stmt)) ⟨w, endLine, noted, lo⟩ =
      .ok body ⟨[], endLine, noted ++ faults, hi⟩

/-- The fault of a block without its closing brace. -/
def unclosedFault (endLine : Nat) : SyntaxFault :=
  ⟨.expected "'\x7d' after block", .endOn endLine⟩

section Blocks
variable {endLine lo mid : Nat} {faults : List SyntaxFault} {u w rest : List Token}

theorem Unclosed.nil : Unclosed endLine [] [] lo := by
  intro depth fuel noted _ hfuel
  obtain ⟨fuel, rfl⟩ := Nat.exists_eq_succ_of_ne_zero (Nat.ne_zero_of_lt hfuel)
  rw [List.append_nil]
  exact ⟨[], lo, rfl⟩

theorem Unclosed.after {body : List Stmt} (hbody : ListText BodyText lo u body mid)
    (hnext : NoElse w) (h : Unclosed endLine faults w mid) :
    Unclosed endLine faults (u ++ w) lo := by
  induction hbody with
  | nil => exact h
  | @cons lo mid hi u v s body hs hbody ih =>
    intro depth fuel noted hdepth hfuel
    have hlength := hs.1.length_pos
    rw [List.append_assoc, List.length_append] at hdepth hfuel
    obtain ⟨fuel, rfl⟩ := Nat.exists_eq_succ_of_ne_zero (Nat.ne_zero_of_lt hfuel)
    obtain ⟨others, hi', hothers⟩ := ih h depth fuel noted (by omega) (by omega)
    have hfirst : Leads (declarationsFrom (declaration depth) (fuel + 1)) lo u
        ((s :: ·) <$> declarationsFrom (declaration depth) fuel) mid (v ++ w) :=
      leads_declarations hs (by omega) (noElse_of_declarations hbody hnext)
    refine ⟨s :: others, hi', ?_⟩
    rw [List.append_assoc, hfirst endLine noted]
    change EStateM.map _ _ _ = _
    unfold EStateM.map
    rw [hothers]

/-- The text of a program is read to its end without a fault. -/
theorem Unclosed.of_derived (h : Derived .program w) : Unclosed endLine [] w lo := by
  obtain ⟨program, hi, htext⟩ := (derived_program_iff w lo).mp h
  have hrest : Unclosed endLine [] (w ++ []) lo := Unclosed.after htext.complete nofun .nil
  rwa [List.append_nil] at hrest

/-- A faulty declaration in a block is noted. -/
theorem declarationsFrom_fault {d : Reading Stmt} {t : Token} {noted noted' : List SyntaxFault}
    {f : SyntaxFault} (ht : t.isSymbol .rightBrace = false)
    (h : d ⟨t :: w, endLine, noted, lo⟩ = .error (.fault f) ⟨rest, endLine, noted', mid⟩)
    (fuel : Nat) :
    declarationsFrom d (fuel + 1) ⟨t :: w, endLine, noted, lo⟩ =
      declarationsFrom d fuel ⟨rest, endLine, noted' ++ [f], mid⟩ := by
  have hatEnd : (Steps.atEnd : Reading Bool) ⟨t :: w, endLine, noted, lo⟩ =
      .ok false ⟨t :: w, endLine, noted, lo⟩ := rfl
  have hnext : (Steps.nextIs (·.isSymbol .rightBrace) : Reading Bool)
      ⟨t :: w, endLine, noted, lo⟩ = .ok false ⟨t :: w, endLine, noted, lo⟩ :=
    congrArg (fun closes => EStateM.Result.ok closes _) ht
  have hfirst : (Steps.attempt d : Reading (Option Stmt)) ⟨t :: w, endLine, noted, lo⟩ =
      .ok none ⟨rest, endLine, noted' ++ [f], mid⟩ := by
    change attempt d _ = _
    rw [attempt, h]
  rw [declarationsFrom, bind_of_ok hatEnd, bind_of_ok hnext, if_neg (by exact Bool.false_ne_true),
    bind_of_ok hfirst]
  change EStateM.map _ _ _ = _
  unfold EStateM.map
  cases declarationsFrom d fuel ⟨rest, endLine, noted' ++ [f], mid⟩ <;> rfl

/-- A statement that lacks its semicolon at a closing brace is noted, and reading goes on. -/
theorem Unclosed.fault {what : String} {closing : Token} (hopen : OpenText lo u what mid)
    (hclosing : closing.kind = .symbol .rightBrace)
    (h : Unclosed endLine faults (resume (closing :: rest)) mid) :
    Unclosed endLine (⟨.expected what, closing⟩ :: faults) (u ++ closing :: rest) lo := by
  intro depth fuel noted hdepth hfuel
  have hlength : (resume (closing :: rest)).length ≤ rest.length + 1 :=
    (resume_suffix (closing :: rest)).length_le
  obtain ⟨depth, rfl⟩ := Nat.exists_eq_succ_of_ne_zero (Nat.ne_zero_of_lt hdepth)
  obtain ⟨fuel, rfl⟩ := Nat.exists_eq_succ_of_ne_zero (Nat.ne_zero_of_lt hfuel)
  rw [List.length_append, List.length_cons] at hdepth hfuel
  have hform : Fails (declarationForm (declaration depth) (statement depth) depth) lo u
      ⟨.expected what, closing⟩ mid (closing :: rest) := hopen.fails hclosing (by omega) _ _
  obtain ⟨t, v, rfl, ht⟩ := hopen.head
  have hfirst : (declaration (depth + 1) : Reading Stmt)
      ⟨t :: (v ++ closing :: rest), endLine, noted, lo⟩ =
      .error (.fault ⟨.expected what, closing⟩) ⟨resume (closing :: rest), endLine, noted, mid⟩ :=
    recovering_fault (hform endLine noted)
  rw [List.length_cons] at hdepth hfuel
  obtain ⟨body, hi, hrest⟩ := h (depth + 1) fuel (noted ++ [⟨.expected what, closing⟩])
    (by omega) (by omega)
  refine ⟨body, hi, ?_⟩
  rw [List.cons_append, declarationsFrom_fault (Token.isSymbol_eq_false ht rfl) hfirst, hrest,
    List.append_assoc]
  rfl

/-- A block that stays open is found to lack its brace at the end of the input. -/
theorem Unclosed.declaration {left : Token} (hleft : left.kind = .symbol .leftBrace)
    (h : Unclosed endLine faults w lo) {depth : Nat} (hdepth : w.length + 1 < depth)
    (noted : List SyntaxFault) : ∃ hi,
    (declaration depth : Reading Stmt) ⟨left :: w, endLine, noted, lo⟩ =
      .error (.fault (unclosedFault endLine)) ⟨[], endLine, noted ++ faults, hi⟩ := by
  obtain ⟨depth, rfl⟩ := Nat.exists_eq_succ_of_ne_zero (Nat.ne_zero_of_lt hdepth)
  obtain ⟨body, hi, hbody⟩ := h depth depth noted (by omega) (by omega)
  have hblock : (block (Reading.declaration depth) depth : Reading (List Stmt))
      ⟨w, endLine, noted, lo⟩ =
      .error (.fault (unclosedFault endLine)) ⟨[], endLine, noted ++ faults, hi⟩ := by
    unfold block
    simp only [bind, EStateM.bind, hbody]
    rw [symbol_missed _ (by rintro _ ⟨⟩)]
    rfl
  have hform : Leads (declarationForm (Reading.declaration depth) (statement depth) depth) lo [left]
      (Stmt.block <$> block (Reading.declaration depth) depth) lo w :=
    leads_statement (by rw [hleft]; rfl) (leads_block hleft Leads.refl)
  have hread : (declarationForm (Reading.declaration depth) (statement depth) depth : Reading Stmt)
      ⟨left :: w, endLine, noted, lo⟩ =
      .error (.fault (unclosedFault endLine)) ⟨[], endLine, noted ++ faults, hi⟩ :=
    (hform endLine noted).trans (map_fault hblock)
  exact ⟨hi, recovering_fault hread⟩

theorem Unclosed.block {left : Token} (hleft : left.kind = .symbol .leftBrace)
    (h : Unclosed endLine faults w lo) :
    Unclosed endLine (faults ++ [unclosedFault endLine]) (left :: w) lo := by
  intro depth fuel noted hdepth hfuel
  rw [List.length_cons] at hdepth hfuel
  obtain ⟨fuel, rfl⟩ := Nat.exists_eq_succ_of_ne_zero (Nat.ne_zero_of_lt hfuel)
  obtain ⟨hi, hfirst⟩ := h.declaration hleft hdepth noted
  have hother : left.isSymbol .rightBrace = false := Token.isSymbol_of_kind hleft rfl
  have hnil : Unclosed endLine [] [] hi := .nil
  obtain ⟨body, hi', hrest⟩ := hnil depth fuel (noted ++ faults ++ [unclosedFault endLine])
    (by rw [List.length_nil]; omega) (by rw [List.length_nil]; omega)
  refine ⟨body, hi', ?_⟩
  rw [declarationsFrom_fault hother hfirst, hrest, List.append_nil, List.append_assoc]

theorem Unclosed.blocks {opens : List Token} (hopens : ∀ t ∈ opens, t.kind = .symbol .leftBrace)
    (h : Unclosed endLine faults w lo) :
    Unclosed endLine (faults ++ List.replicate opens.length (unclosedFault endLine)) (opens ++ w)
      lo := by
  induction opens with
  | nil =>
    rw [List.length_nil, List.replicate_zero, List.append_nil]
    exact h
  | cons t opens ih =>
    obtain ⟨ht, hopens⟩ := List.forall_mem_cons.mp hopens
    rw [List.length_cons, List.replicate_succ', ← List.append_assoc]
    exact (ih hopens).block ht

end Blocks

/-- A fault that stops the first declaration at the end of the input is the last item. -/
theorem programItems_fault {tokens v : List Token} {t : Token} {nextId endLine hi : Nat}
    {f : SyntaxFault} {noted : List SyntaxFault}
    (hstart : Cursor.start tokens nextId = ⟨t :: v, endLine, [], nextId⟩)
    (h : (declaration (depthBound tokens) : Reading Stmt) ⟨t :: v, endLine, [], nextId⟩ =
      .error (.fault f) ⟨[], endLine, noted, hi⟩) :
    (programItems tokens nextId).1 = noted.map Except.error ++ [.error f] := by
  have hitem : readItem (depthBound tokens) ⟨t :: v, endLine, [], nextId⟩ =
      (.error f, ⟨[], endLine, noted, hi⟩) := by
    rw [readItem, h]
    rfl
  rw [programItems, hstart, programItemsFrom, if_neg (by exact Bool.false_ne_true), hitem]
  rfl

/-- Some open blocks, in the innermost of which a simple statement lacks its semicolon before a closing
brace, and a program behind that brace and any more of them. None of the braces closes a block: reading
goes on in the program, every block is found to be open at the end of it, and no declaration is left,
neither of the blocks nor of the program. A program that starts with a block is left out, for its
brace is passed over as well. -/
theorem braces_passed_over {tokens : List Token} {nextId : Nat} {category : Category}
    {left closing stop : Token} {opens body simple closes program : List Token}
    (hopens : ∀ t ∈ left :: opens, t.kind = .symbol .leftBrace) (hbody : Derived .program body)
    (hcategory : category ∈ [Category.expressionStatement, .printStatement, .returnStatement,
      .variableDeclaration])
    (hsimple : Derived category (simple ++ [stop]))
    (hcloses : ∀ t ∈ closing :: closes, t.kind = .symbol .rightBrace)
    (hprogram : Derived .program program)
    (hfirst : ∀ t ∈ program.head?, t.isSymbol .leftBrace = false)
    (htokens : tokens.takeWhile (!·.isEnd) =
      left :: (opens ++ (body ++ (simple ++ closing :: (closes ++ program))))) :
    resume (closing :: (closes ++ program)) <:+ program ∧
    ∃ what, (programItems tokens nextId).1 = .error ⟨.expected what, closing⟩ ::
      List.replicate (opens.length + 1)
        (.error (unclosedFault (Cursor.start tokens nextId).endLine)) := by
  obtain ⟨hsuffix, hresume⟩ := resume_braces hcloses hprogram hfirst
  refine ⟨hsuffix, ?_⟩
  obtain ⟨hleft, hopens⟩ := List.forall_mem_cons.mp hopens
  obtain ⟨statements, mid, htext⟩ := (derived_program_iff body nextId).mp hbody
  obtain ⟨what, hi, hopen⟩ := exists_openText hcategory hsimple mid
  obtain ⟨endLine, hstart⟩ : ∃ endLine, Cursor.start tokens nextId =
      ⟨left :: (opens ++ (body ++ (simple ++ closing :: (closes ++ program)))), endLine, [], nextId⟩ :=
    ⟨_, by rw [← htokens]; rfl⟩
  have hnext : NoElse (simple ++ closing :: (closes ++ program)) := by
    obtain ⟨t, v, rfl, ht⟩ := hopen.head
    rintro _ ⟨⟩
    exact Token.isKeyword_eq_false ht rfl
  -- The innermost block, the blocks around it, and the outermost one, where the reading starts.
  have hinner : Unclosed endLine [⟨.expected what, closing⟩]
      (body ++ (simple ++ closing :: (closes ++ program))) nextId :=
    Unclosed.after htext.complete hnext
      (Unclosed.fault hopen (hcloses closing List.mem_cons_self) (.of_derived hresume))
  have hdepth : (opens ++ (body ++ (simple ++ closing :: (closes ++ program)))).length + 1 <
      depthBound tokens := by
    have hlength := (List.takeWhile_prefix (l := tokens) (!·.isEnd)).length_le
    rw [htokens, List.length_cons] at hlength
    unfold depthBound
    omega
  obtain ⟨after, hread⟩ := (hinner.blocks hopens).declaration hleft hdepth []
  refine ⟨what, ?_⟩
  rw [programItems_fault hstart hread, hstart, List.replicate_succ']
  simp

/-- In `{ { print a } } print b;` a semicolon is missing, and three faults are reported. -/
theorem braces_passed_over_in_nested :
    let name (text : String) : Token := ⟨.identifier, text, 1⟩
    let print : Token := ⟨.keyword .printWord, "print", 1⟩
    let sign (s : Symbol) : Token := ⟨.symbol s, "", 1⟩
    let tokens : List Token := [sign .leftBrace, sign .leftBrace, print, name "a", sign .rightBrace,
      sign .rightBrace, print, name "b", sign .semicolon]
    Derived .program [] ∧ Derived .printStatement [print, name "a", sign .semicolon] ∧
    Derived .program [print, name "b", sign .semicolon] ∧
    ∃ what, (programItems tokens 0).1 =
      [.error ⟨.expected what, sign .rightBrace⟩, .error (unclosedFault 1),
        .error (unclosedFault 1)] := by
  intro name print sign tokens
  have hname : ∀ text, Derived .expression [name text] := by
    intro text
    have htext : ExprText (.ofLevel 9) 0 [name text] (.variable ⟨0, name text⟩) 1 := .variable rfl
    exact (htext.looser (Nat.zero_le 9)).derived
  have hprint : ∀ text, Derived .printStatement [print, name text, sign .semicolon] := by
    intro text
    exact derived_of_holds (holds_one (holds_word rfl) (holds_one (hname text)
      (holds_last (holds_sign rfl))))
  have hbody : Derived .program [] := derived_of_holds ⟨[], rfl, nofun⟩
  have hprogram : Derived .program [print, name "b", sign .semicolon] := by
    have hstatement := derived_statement (by simp) (hprint "b")
    have hdeclaration := derived_declaration (by simp) hstatement
    exact derived_of_holds ⟨[[print, name "b", sign .semicolon]], rfl,
      List.forall_mem_singleton.mpr hdeclaration⟩
  have hbraces : ∀ s, ∀ t ∈ [sign s, sign s], t.kind = .symbol s := by
    intro s t ht
    simp only [List.mem_cons, List.not_mem_nil, or_false, or_self] at ht
    rw [ht]
  have hsimple : Derived .printStatement ([print, name "a"] ++ [sign .semicolon]) := hprint "a"
  have htokens : tokens.takeWhile (!·.isEnd) = sign .leftBrace :: ([sign .leftBrace] ++ ([] ++
    ([print, name "a"] ++ sign .rightBrace :: ([sign .rightBrace] ++
      [print, name "b", sign .semicolon])))) := rfl
  obtain ⟨-, what, hread⟩ := @braces_passed_over tokens 0 .printStatement _ _ _ _ _ _ _ _
    (hbraces .leftBrace) hbody (by simp) hsimple (hbraces .rightBrace) hprogram
    (by rintro _ ⟨⟩; rfl) htokens
  exact ⟨hbody, hprint "a", hprogram, what, hread⟩

end LoxLang
