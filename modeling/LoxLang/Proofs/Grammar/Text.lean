import LoxLang.Syntax.Statement

/-!
The texts of trees. `ExprText place lo w e hi` relates the tokens `w` to the expression `e` that is
read from them at some place of the grammar, the references in it getting the identities from `lo` on
and below `hi`; `StmtText` and `DeclarationText` do the same for statements and declarations. The
relations follow the grammar and know nothing of how tokens are read. An `else` belongs to the
nearest conditional: `StmtText` says of a text whether an `else` after it would still be part of it.
-/
namespace LoxLang
set_option autoImplicit false

/-! ## Kinds of tokens -/

theorem TokenKind.same_symbol_iff (kind : TokenKind) (s : Symbol) :
    kind.same (.symbol s) = true ↔ kind = .symbol s := by
  cases kind <;> simp [TokenKind.same]

theorem TokenKind.same_keyword_iff (kind : TokenKind) (k : Keyword) :
    kind.same (.keyword k) = true ↔ kind = .keyword k := by
  cases kind <;> simp [TokenKind.same]

theorem TokenKind.same_identifier_iff (kind : TokenKind) :
    kind.same .identifier = true ↔ kind = .identifier := by
  cases kind <;> simp [TokenKind.same]

theorem Token.isSymbol_iff (t : Token) (s : Symbol) :
    t.isSymbol s = true ↔ t.kind = .symbol s :=
  TokenKind.same_symbol_iff t.kind s

theorem Token.isKeyword_iff (t : Token) (k : Keyword) :
    t.isKeyword k = true ↔ t.kind = .keyword k :=
  TokenKind.same_keyword_iff t.kind k

/-! ## Lists and optional parts -/

section Parts
variable {α : Type} (item : Nat → List Token → α → Nat → Prop)

/-- Items one after the other. -/
inductive ListText : Nat → List Token → List α → Nat → Prop
  | nil {lo : Nat} : ListText lo [] [] lo
  | cons {lo mid hi : Nat} {u w : List Token} {a : α} {as : List α} : item lo u a mid →
    ListText mid w as hi → ListText lo (u ++ w) (a :: as) hi

/-- One or more items with commas between them. -/
inductive CommaText : Nat → List Token → List α → Nat → Prop
  | last {lo hi : Nat} {w : List Token} {a : α} : item lo w a hi → CommaText lo w [a] hi
  | more {lo mid hi : Nat} {u w : List Token} {comma : Token} {a : α} {as : List α} :
    item lo u a mid → comma.kind = .symbol .comma → CommaText mid w as hi →
    CommaText lo (u ++ comma :: w) (a :: as) hi

/-- Items with commas between them, of which there may be none and are at most 255. -/
def ItemsText (lo : Nat) (w : List Token) (as : List α) (hi : Nat) : Prop :=
  (w = [] ∧ as = [] ∧ hi = lo) ∨ (CommaText item lo w as hi ∧ as.length ≤ maxArity)

inductive OptionText : Nat → List Token → Option α → Nat → Prop
  | none {lo : Nat} : OptionText lo [] none lo
  | some {lo hi : Nat} {w : List Token} {a : α} : item lo w a hi → OptionText lo w (some a) hi

end Parts

theorem ListText.append {α : Type} {item : Nat → List Token → α → Nat → Prop} {lo mid hi : Nat}
    {u w : List Token} {as bs : List α} (h : ListText item lo u as mid)
    (h' : ListText item mid w bs hi) : ListText item lo (u ++ w) (as ++ bs) hi := by
  induction h with
  | nil => exact h'
  | cons ha _ ih =>
    rw [List.append_assoc]
    exact .cons ha (ih h')

theorem CommaText.ne_nil {α : Type} {item : Nat → List Token → α → Nat → Prop} {lo hi : Nat}
    {w : List Token} {as : List α} (h : CommaText item lo w as hi) : as ≠ [] := by
  cases h <;> exact List.cons_ne_nil _ _

def NameText (lo : Nat) (w : List Token) (name : Token) (hi : Nat) : Prop :=
  w = [name] ∧ name.kind = .identifier ∧ hi = lo

/-! ## Expressions -/

/-- What an expression can be without parentheses around it. -/
inductive Place where
  | primary
  | call
  | unary
  /-- Operands joined by the operators of some levels, the first of which is the loosest. -/
  | joined (levels : List OperatorLevel)
  | expression

/-- The tokens of an expression, and the identities of its references. -/
inductive ExprText : Place → Nat → List Token → Expr → Nat → Prop
  | literal {lo : Nat} {t : Token} {value : Literal} : Literal.ofKind? t.kind = some value →
    ExprText .primary lo [t] (.literal value) lo
  | variable {lo : Nat} {name : Token} : name.kind = .identifier →
    ExprText .primary lo [name] (.variable ⟨lo, name⟩) (lo + 1)
  | thisObject {lo : Nat} {keyword : Token} : keyword.kind = .keyword .thisWord →
    ExprText .primary lo [keyword] (.thisObject ⟨lo, keyword⟩) (lo + 1)
  | superMethod {lo : Nat} {keyword dot method : Token} : keyword.kind = .keyword .superWord →
    dot.kind = .symbol .dot → method.kind = .identifier →
    ExprText .primary lo [keyword, dot, method] (.superMethod ⟨lo, keyword⟩ method) (lo + 1)
  | grouping {lo hi : Nat} {left right : Token} {w : List Token} {e : Expr} :
    left.kind = .symbol .leftParen → ExprText .expression lo w e hi →
    right.kind = .symbol .rightParen →
    ExprText .primary lo (left :: (w ++ [right])) (.grouping e) hi
  | operand {lo hi : Nat} {w : List Token} {e : Expr} : ExprText .primary lo w e hi →
    ExprText .call lo w e hi
  | callWithout {lo hi : Nat} {left paren : Token} {w : List Token} {callee : Expr} :
    ExprText .call lo w callee hi → left.kind = .symbol .leftParen →
    paren.kind = .symbol .rightParen →
    ExprText .call lo (w ++ [left, paren]) (.call callee paren []) hi
  | call {lo mid hi : Nat} {left paren : Token} {u w : List Token} {callee : Expr}
    {arguments : List Expr} : ExprText .call lo u callee mid → left.kind = .symbol .leftParen →
    CommaText (ExprText .expression) mid w arguments hi → arguments.length ≤ maxArity →
    paren.kind = .symbol .rightParen →
    ExprText .call lo (u ++ left :: (w ++ [paren])) (.call callee paren arguments) hi
  | get {lo hi : Nat} {dot name : Token} {w : List Token} {object : Expr} :
    ExprText .call lo w object hi → dot.kind = .symbol .dot → name.kind = .identifier →
    ExprText .call lo (w ++ [dot, name]) (.get object name) hi
  | unoperated {lo hi : Nat} {w : List Token} {e : Expr} : ExprText .call lo w e hi →
    ExprText .unary lo w e hi
  | unary {lo hi : Nat} {operator : Token} {w : List Token} {e : Expr} :
    operator.kind = .symbol .bang ∨ operator.kind = .symbol .minus →
    ExprText .unary lo w e hi → ExprText .unary lo (operator :: w) (.unary operator e) hi
  | tightest {lo hi : Nat} {w : List Token} {e : Expr} : ExprText .unary lo w e hi →
    ExprText (.joined []) lo w e hi
  | tighter {lo hi : Nat} {level : OperatorLevel} {levels : List OperatorLevel} {w : List Token}
    {e : Expr} : ExprText (.joined levels) lo w e hi → ExprText (.joined (level :: levels)) lo w e hi
  | operator {lo mid hi : Nat} {level : OperatorLevel} {levels : List OperatorLevel}
    {operator : Token} {u w : List Token} {left right : Expr} :
    level :: levels <:+ OperatorLevel.all → ExprText (.joined (level :: levels)) lo u left mid →
    level.admits operator = true → ExprText (.joined levels) mid w right hi →
    ExprText (.joined (level :: levels)) lo (u ++ operator :: w) (level.node left operator right) hi
  | joined {lo hi : Nat} {w : List Token} {e : Expr} :
    ExprText (.joined OperatorLevel.all) lo w e hi → ExprText .expression lo w e hi
  | assign {lo hi : Nat} {name equals : Token} {w : List Token} {e : Expr} :
    name.kind = .identifier → equals.kind = .symbol .equal →
    ExprText .expression (lo + 1) w e hi →
    ExprText .expression lo (name :: equals :: w) (.assign ⟨hi, name⟩ e) (hi + 1)
  | set {lo mid hi : Nat} {dot name equals : Token} {u w : List Token} {object e : Expr} :
    ExprText .call lo u object mid → dot.kind = .symbol .dot → name.kind = .identifier →
    equals.kind = .symbol .equal → ExprText .expression mid w e hi →
    ExprText .expression lo (u ++ dot :: name :: equals :: w) (.set object name e) hi

/-! ## First tokens -/

/-- Whether a token of some kind can be the first of an operand. -/
def TokenKind.opensOperand : TokenKind → Bool
  | .identifier => true
  | .string _ => true
  | .number _ => true
  | .symbol s => s == .leftParen
  | .keyword k => k ∈ [.trueWord, .falseWord, .nilWord, .thisWord, .superWord]
  | .endOfInput => false

def TokenKind.opensExpression : TokenKind → Bool
  | .symbol s => s ∈ [.leftParen, .bang, .minus]
  | kind => kind.opensOperand

theorem TokenKind.opensExpression_of_opensOperand {kind : TokenKind}
    (h : kind.opensOperand = true) : kind.opensExpression = true := by
  cases kind with
  | symbol s =>
    have hs : s = .leftParen := eq_of_beq h
    rw [hs]
    rfl
  | _ => exact h

theorem Token.isSymbol_of_kind {t : Token} {kind : TokenKind} {s : Symbol} {b : Bool}
    (h : t.kind = kind) (hs : kind.same (.symbol s) = b) : t.isSymbol s = b := by
  rw [Token.isSymbol, h, hs]

theorem Token.isKeyword_of_kind {t : Token} {kind : TokenKind} {k : Keyword} {b : Bool}
    (h : t.kind = kind) (hk : kind.same (.keyword k) = b) : t.isKeyword k = b := by
  rw [Token.isKeyword, h, hk]

/-- A token that passes a test on kinds is no symbol that fails it. -/
theorem Token.isSymbol_eq_false {t : Token} {test : TokenKind → Bool} {s : Symbol}
    (h : test t.kind = true) (hs : test (.symbol s) = false) : t.isSymbol s = false := by
  rw [Bool.eq_false_iff, Ne, Token.isSymbol_iff]
  rintro hkind
  rw [hkind, hs] at h
  cases h

theorem Token.isKeyword_eq_false {t : Token} {test : TokenKind → Bool} {k : Keyword}
    (h : test t.kind = true) (hk : test (.keyword k) = false) : t.isKeyword k = false := by
  rw [Bool.eq_false_iff, Ne, Token.isKeyword_iff]
  rintro hkind
  rw [hkind, hk] at h
  cases h

/-- The kinds of which the first token of an expression at a place can be. -/
def Place.opens : Place → TokenKind → Bool
  | .primary => TokenKind.opensOperand
  | .call => TokenKind.opensOperand
  | _ => TokenKind.opensExpression

theorem opensOperand_of_ofKind? {kind : TokenKind} {value : Literal}
    (h : Literal.ofKind? kind = some value) : kind.opensOperand = true := by
  unfold Literal.ofKind? at h
  split at h
  · rfl
  · rfl
  · rfl
  · rfl
  · rfl
  · cases h

/-- The text of an expression is not empty, and its first token is of one of some kinds. -/
theorem ExprText.head {place : Place} {lo hi : Nat} {w : List Token} {e : Expr}
    (h : ExprText place lo w e hi) : ∃ t v, w = t :: v ∧ place.opens t.kind = true :=
  match h with
  | .literal hvalue => ⟨_, _, rfl, opensOperand_of_ofKind? hvalue⟩
  | .variable hname => ⟨_, _, rfl, by rw [hname]; rfl⟩
  | .thisObject hkeyword => ⟨_, _, rfl, by rw [hkeyword]; rfl⟩
  | .superMethod hkeyword _ _ => ⟨_, _, rfl, by rw [hkeyword]; rfl⟩
  | .grouping hleft _ _ => ⟨_, _, rfl, by rw [hleft]; rfl⟩
  | .operand hprimary => hprimary.head
  | .callWithout hcallee _ _ => by
    obtain ⟨t, v, rfl, ht⟩ := hcallee.head
    exact ⟨t, _, rfl, ht⟩
  | .call hcallee _ _ _ _ => by
    obtain ⟨t, v, rfl, ht⟩ := hcallee.head
    exact ⟨t, _, rfl, ht⟩
  | .get hobject _ _ => by
    obtain ⟨t, v, rfl, ht⟩ := hobject.head
    exact ⟨t, _, rfl, ht⟩
  | .unoperated hcall => by
    obtain ⟨t, v, rfl, ht⟩ := hcall.head
    exact ⟨t, v, rfl, TokenKind.opensExpression_of_opensOperand ht⟩
  | .unary hoperator _ => ⟨_, _, rfl, by rcases hoperator with h | h <;> rw [h] <;> rfl⟩
  | .tightest hunary => hunary.head
  | .tighter htighter => htighter.head
  | .operator _ hleft _ _ => by
    obtain ⟨t, v, rfl, ht⟩ := hleft.head
    exact ⟨t, _, rfl, ht⟩
  | .joined hjoined => hjoined.head
  | .assign hname _ _ => ⟨_, _, rfl, by rw [hname]; rfl⟩
  | .set hobject _ _ _ _ => by
    obtain ⟨t, v, rfl, ht⟩ := hobject.head
    exact ⟨t, _, rfl, TokenKind.opensExpression_of_opensOperand ht⟩

theorem ExprText.length_pos {place : Place} {lo hi : Nat} {w : List Token} {e : Expr}
    (h : ExprText place lo w e hi) : 0 < w.length := by
  obtain ⟨t, v, rfl, -⟩ := h.head
  exact Nat.succ_pos _

/-! ## Statements and declarations -/

/-- The superclass clause of a class, which names the superclass. -/
inductive SuperclassText : Nat → List Token → Option Expr → Nat → Prop
  | none {lo : Nat} : SuperclassText lo [] none lo
  | some {lo : Nat} {less parent : Token} : less.kind = .symbol .less →
    parent.kind = .identifier →
    SuperclassText lo [less, parent] (some (.variable ⟨lo, parent⟩)) (lo + 1)

/-- A variable declaration without its first word. -/
inductive VariableText : Nat → List Token → Stmt → Nat → Prop
  | bare {lo : Nat} {name stop : Token} : name.kind = .identifier →
    stop.kind = .symbol .semicolon → VariableText lo [name, stop] (.variable name none) lo
  | initialized {lo hi : Nat} {name equals stop : Token} {w : List Token} {e : Expr} :
    name.kind = .identifier → equals.kind = .symbol .equal → ExprText .expression lo w e hi →
    stop.kind = .symbol .semicolon →
    VariableText lo (name :: equals :: (w ++ [stop])) (.variable name (some e)) hi

/-- An expression with its semicolon. -/
inductive ExpressionStatementText : Nat → List Token → Stmt → Nat → Prop
  | intro {lo hi : Nat} {stop : Token} {w : List Token} {e : Expr} :
    ExprText .expression lo w e hi → stop.kind = .symbol .semicolon →
    ExpressionStatementText lo (w ++ [stop]) (.expression e) hi

/-- The first clause of a `for` statement. -/
inductive InitializerText : Nat → List Token → Option Stmt → Nat → Prop
  | none {lo : Nat} {stop : Token} : stop.kind = .symbol .semicolon →
    InitializerText lo [stop] none lo
  | variable {lo hi : Nat} {word : Token} {w : List Token} {s : Stmt} :
    word.kind = .keyword .varWord → VariableText lo w s hi → InitializerText lo (word :: w) (some s) hi
  | expression {lo hi : Nat} {w : List Token} {s : Stmt} : ExpressionStatementText lo w s hi →
    InitializerText lo w (some s) hi

mutual

/-- The tokens of a statement that is no declaration. Where the first argument is true the text ends
with a conditional that lacks an `else`. -/
inductive StmtText : Bool → Nat → List Token → Stmt → Nat → Prop
  | expression {lo hi : Nat} {w : List Token} {s : Stmt} : ExpressionStatementText lo w s hi →
    StmtText false lo w s hi
  | print {lo hi : Nat} {word stop : Token} {w : List Token} {e : Expr} :
    word.kind = .keyword .printWord → ExprText .expression lo w e hi →
    stop.kind = .symbol .semicolon → StmtText false lo (word :: (w ++ [stop])) (.print word e) hi
  | returnWith {lo hi : Nat} {word stop : Token} {w : List Token} {e : Option Expr} :
    word.kind = .keyword .returnWord → OptionText (ExprText .expression) lo w e hi →
    stop.kind = .symbol .semicolon →
    StmtText false lo (word :: (w ++ [stop])) (.returnWith word e) hi
  | block {lo hi : Nat} {left right : Token} {w : List Token} {body : List Stmt} :
    left.kind = .symbol .leftBrace → ListText DeclarationText lo w body hi →
    right.kind = .symbol .rightBrace → StmtText false lo (left :: (w ++ [right])) (.block body) hi
  | conditional {lo mid hi : Nat} {dangling : Bool} {word left right : Token} {u w : List Token}
    {test : Expr} {s : Stmt} : word.kind = .keyword .ifWord → left.kind = .symbol .leftParen →
    ExprText .expression lo u test mid → right.kind = .symbol .rightParen →
    StmtText dangling mid w s hi →
    StmtText true lo (word :: left :: (u ++ right :: w)) (.conditional test s none) hi
  | alternative {lo mid mid' hi : Nat} {dangling : Bool} {word left right other : Token}
    {u v w : List Token} {test : Expr} {s s' : Stmt} : word.kind = .keyword .ifWord →
    left.kind = .symbol .leftParen → ExprText .expression lo u test mid →
    right.kind = .symbol .rightParen → StmtText false mid v s mid' →
    other.kind = .keyword .elseWord → StmtText dangling mid' w s' hi →
    StmtText dangling lo (word :: left :: (u ++ right :: (v ++ other :: w)))
      (.conditional test s (some s')) hi
  | loop {lo mid hi : Nat} {dangling : Bool} {word left right : Token} {u w : List Token}
    {test : Expr} {s : Stmt} : word.kind = .keyword .whileWord → left.kind = .symbol .leftParen →
    ExprText .expression lo u test mid → right.kind = .symbol .rightParen →
    StmtText dangling mid w s hi →
    StmtText dangling lo (word :: left :: (u ++ right :: w)) (.loop test s) hi
  | forLoop {lo first second third hi : Nat} {dangling : Bool} {word left stop right : Token}
    {u v v' w : List Token} {initializer : Option Stmt} {test increment : Option Expr} {s : Stmt} :
    word.kind = .keyword .forWord → left.kind = .symbol .leftParen →
    InitializerText lo u initializer first → OptionText (ExprText .expression) first v test second →
    stop.kind = .symbol .semicolon → OptionText (ExprText .expression) second v' increment third →
    right.kind = .symbol .rightParen → StmtText dangling third w s hi →
    StmtText dangling lo (word :: left :: (u ++ (v ++ stop :: (v' ++ right :: w))))
      (.forLoop initializer test increment s) hi

/-- The tokens of a declaration or statement. -/
inductive DeclarationText : Nat → List Token → Stmt → Nat → Prop
  | statement {lo hi : Nat} {dangling : Bool} {w : List Token} {s : Stmt} : StmtText dangling lo w s hi →
    DeclarationText lo w s hi
  | variable {lo hi : Nat} {word : Token} {w : List Token} {s : Stmt} :
    word.kind = .keyword .varWord → VariableText lo w s hi → DeclarationText lo (word :: w) s hi
  | function {lo hi : Nat} {word : Token} {w : List Token} {d : FunctionDeclaration} :
    word.kind = .keyword .funWord → FunctionText lo w d hi →
    DeclarationText lo (word :: w) (.function d) hi
  | classDeclaration {lo mid hi : Nat} {word name left right : Token} {u w : List Token}
    {superclass : Option Expr} {methods : List FunctionDeclaration} :
    word.kind = .keyword .classWord → name.kind = .identifier → SuperclassText lo u superclass mid →
    left.kind = .symbol .leftBrace → ListText FunctionText mid w methods hi →
    right.kind = .symbol .rightBrace →
    DeclarationText lo (word :: name :: (u ++ left :: (w ++ [right])))
      (.classDeclaration name superclass methods) hi

/-- The tokens of a function from its name on. -/
inductive FunctionText : Nat → List Token → FunctionDeclaration → Nat → Prop
  | intro {lo mid hi : Nat} {name left right opening closing : Token} {u w : List Token}
    {params : List Token} {body : List Stmt} : name.kind = .identifier →
    left.kind = .symbol .leftParen → ItemsText NameText lo u params mid →
    right.kind = .symbol .rightParen → opening.kind = .symbol .leftBrace →
    ListText DeclarationText mid w body hi → closing.kind = .symbol .rightBrace →
    FunctionText lo (name :: left :: (u ++ right :: opening :: (w ++ [closing])))
      ⟨name, params, body⟩ hi

end

/-- Whether a token of some kind can be the first of a statement that is no declaration. -/
def TokenKind.opensStatement : TokenKind → Bool
  | .symbol s => s == .leftBrace || (TokenKind.symbol s).opensExpression
  | .keyword k => k ∈ [.forWord, .ifWord, .whileWord, .returnWord, .printWord] ||
    (TokenKind.keyword k).opensExpression
  | kind => kind.opensExpression

def TokenKind.opensDeclaration : TokenKind → Bool
  | .keyword k => k ∈ [.classWord, .funWord, .varWord] || (TokenKind.keyword k).opensStatement
  | kind => kind.opensStatement

theorem TokenKind.opensStatement_of_opensExpression {kind : TokenKind}
    (h : kind.opensExpression = true) : kind.opensStatement = true := by
  cases kind with
  | symbol s => exact Bool.or_eq_true_iff.mpr (Or.inr h)
  | keyword k => exact Bool.or_eq_true_iff.mpr (Or.inr h)
  | _ => exact h

theorem TokenKind.opensDeclaration_of_opensStatement {kind : TokenKind}
    (h : kind.opensStatement = true) : kind.opensDeclaration = true := by
  cases kind with
  | keyword k => exact Bool.or_eq_true_iff.mpr (Or.inr h)
  | _ => exact h

theorem StmtText.head {dangling : Bool} {lo hi : Nat} {w : List Token} {s : Stmt}
    (h : StmtText dangling lo w s hi) : ∃ t v, w = t :: v ∧ t.kind.opensStatement = true := by
  cases h with
  | expression h =>
    cases h with
    | intro he _ =>
      obtain ⟨t, v, rfl, ht⟩ := he.head
      exact ⟨t, _, rfl, TokenKind.opensStatement_of_opensExpression ht⟩
  | print hword _ _ => exact ⟨_, _, rfl, by rw [hword]; rfl⟩
  | returnWith hword _ _ => exact ⟨_, _, rfl, by rw [hword]; rfl⟩
  | block hleft _ _ => exact ⟨_, _, rfl, by rw [hleft]; rfl⟩
  | conditional hword _ _ _ _ => exact ⟨_, _, rfl, by rw [hword]; rfl⟩
  | alternative hword _ _ _ _ _ _ => exact ⟨_, _, rfl, by rw [hword]; rfl⟩
  | loop hword _ _ _ _ => exact ⟨_, _, rfl, by rw [hword]; rfl⟩
  | forLoop hword _ _ _ _ _ _ _ => exact ⟨_, _, rfl, by rw [hword]; rfl⟩

theorem DeclarationText.head {lo hi : Nat} {w : List Token} {s : Stmt}
    (h : DeclarationText lo w s hi) : ∃ t v, w = t :: v ∧ t.kind.opensDeclaration = true := by
  cases h with
  | statement hs =>
    obtain ⟨t, v, hw, ht⟩ := hs.head
    exact ⟨t, v, hw, TokenKind.opensDeclaration_of_opensStatement ht⟩
  | «variable» hword _ => exact ⟨_, _, rfl, by rw [hword]; rfl⟩
  | function hword _ => exact ⟨_, _, rfl, by rw [hword]; rfl⟩
  | classDeclaration hword _ _ _ _ _ => exact ⟨_, _, rfl, by rw [hword]; rfl⟩

theorem DeclarationText.length_pos {lo hi : Nat} {w : List Token} {s : Stmt}
    (h : DeclarationText lo w s hi) : 0 < w.length := by
  obtain ⟨t, v, rfl, -⟩ := h.head
  exact Nat.succ_pos _

end LoxLang
