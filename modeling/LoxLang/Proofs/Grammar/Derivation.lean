import LoxLang.Proofs.Grammar.Completeness
import LoxLang.Proofs.Grammar.Soundness

/-!
The grammar as rules, and what is derived by them. `Category.rule` has one phrase for each category
of the language, and `Derives` is the least relation closed under the rules; a list of arguments or
parameters has at most 255 entries. Main statement: tokens are read as a program exactly when they
are derived as one up to their end, and all others are refused with a fault.
-/
namespace LoxLang
set_option autoImplicit false

/-! ## Rules -/

/-- The categories of the grammar. -/
inductive Category where
  | program
  | declaration
  | classDeclaration
  | functionDeclaration
  | function
  | variableDeclaration
  | statement
  | expressionStatement
  | forStatement
  | ifStatement
  | printStatement
  | returnStatement
  | whileStatement
  | block
  | parameters
  | expression
  | assignment
  | disjunction
  | conjunction
  | equality
  | comparison
  | term
  | factor
  | unary
  | call
  | arguments
  | primary

/-- The tokens that a rule can ask for. -/
inductive Terminal where
  | symbol (symbol : Symbol)
  | keyword (keyword : Keyword)
  | identifier
  | number
  | string

def Terminal.Matches : Terminal → Token → Prop
  | .symbol s, t => t.kind = .symbol s
  | .keyword k, t => t.kind = .keyword k
  | .identifier, t => t.kind = .identifier
  | .number, t => ∃ value, t.kind = .number value
  | .string, t => ∃ value, t.kind = .string value

/-- The right side of a rule. -/
inductive Phrase where
  | nothing
  | terminal (terminal : Terminal)
  | category (category : Category)
  | sequence (first second : Phrase)
  | choice (first second : Phrase)
  | optional (phrase : Phrase)
  | many (phrase : Phrase)
  /-- Any number of times up to a limit. -/
  | upTo (most : Nat) (phrase : Phrase)

namespace Phrase

def word (k : Keyword) : Phrase := .terminal (.keyword k)

def sign (s : Symbol) : Phrase := .terminal (.symbol s)

def name : Phrase := .terminal .identifier

def all : List Phrase → Phrase
  | [] => .nothing
  | p :: rest => .sequence p (all rest)

def oneOf (p : Phrase) : List Phrase → Phrase
  | [] => p
  | q :: rest => .choice p (oneOf q rest)

/-- Operands with operators between them. -/
def separated (operand : Category) (operators : Phrase) : Phrase :=
  all [.category operand, .many (all [operators, .category operand])]

end Phrase

open Phrase in
/-- The rules of the grammar. -/
def Category.rule : Category → Phrase
  | .program => .many (.category .declaration)
  | .declaration => oneOf (.category .classDeclaration)
    [.category .functionDeclaration, .category .variableDeclaration, .category .statement]
  | .classDeclaration => all [word .classWord, name, .optional (all [sign .less, name]),
    sign .leftBrace, .many (.category .function), sign .rightBrace]
  | .functionDeclaration => all [word .funWord, .category .function]
  | .function => all [name, sign .leftParen, .optional (.category .parameters), sign .rightParen,
    .category .block]
  | .variableDeclaration => all [word .varWord, name,
    .optional (all [sign .equal, .category .expression]), sign .semicolon]
  | .statement => oneOf (.category .expressionStatement) [.category .forStatement,
    .category .ifStatement, .category .printStatement, .category .returnStatement,
    .category .whileStatement, .category .block]
  | .expressionStatement => all [.category .expression, sign .semicolon]
  | .forStatement => all [word .forWord, sign .leftParen,
    oneOf (.category .variableDeclaration) [.category .expressionStatement, sign .semicolon],
    .optional (.category .expression), sign .semicolon, .optional (.category .expression),
    sign .rightParen, .category .statement]
  | .ifStatement => all [word .ifWord, sign .leftParen, .category .expression, sign .rightParen,
    .category .statement, .optional (all [word .elseWord, .category .statement])]
  | .printStatement => all [word .printWord, .category .expression, sign .semicolon]
  | .returnStatement => all [word .returnWord, .optional (.category .expression), sign .semicolon]
  | .whileStatement => all [word .whileWord, sign .leftParen, .category .expression,
    sign .rightParen, .category .statement]
  | .block => all [sign .leftBrace, .many (.category .declaration), sign .rightBrace]
  | .parameters => all [name, .upTo 254 (all [sign .comma, name])]
  | .expression => .category .assignment
  | .assignment => .choice (all [.optional (all [.category .call, sign .dot]), name, sign .equal,
    .category .assignment]) (.category .disjunction)
  | .disjunction => separated .conjunction (word .orWord)
  | .conjunction => separated .equality (word .andWord)
  | .equality => separated .comparison (oneOf (sign .bangEqual) [sign .equalEqual])
  | .comparison => separated .term
    (oneOf (sign .greater) [sign .greaterEqual, sign .less, sign .lessEqual])
  | .term => separated .factor (oneOf (sign .minus) [sign .plus])
  | .factor => separated .unary (oneOf (sign .slash) [sign .star])
  | .unary => .choice (all [oneOf (sign .bang) [sign .minus], .category .unary]) (.category .call)
  | .call => all [.category .primary, .many (.choice
    (all [sign .leftParen, .optional (.category .arguments), sign .rightParen])
    (all [sign .dot, name]))]
  | .arguments => all [.category .expression, .upTo 254 (all [sign .comma, .category .expression])]
  | .primary => oneOf (.terminal .number) [.terminal .string, word .trueWord, word .falseWord,
    word .nilWord, word .thisWord, name, all [sign .leftParen, .category .expression,
    sign .rightParen], all [word .superWord, sign .dot, name]]

/-- The tokens that are derived from a phrase. -/
inductive Derives : Phrase → List Token → Prop
  | nothing : Derives .nothing []
  | terminal {x : Terminal} {t : Token} : x.Matches t → Derives (.terminal x) [t]
  | category {c : Category} {w : List Token} : Derives c.rule w → Derives (.category c) w
  | sequence {p q : Phrase} {u w : List Token} : Derives p u → Derives q w →
    Derives (.sequence p q) (u ++ w)
  | first {p q : Phrase} {w : List Token} : Derives p w → Derives (.choice p q) w
  | second {p q : Phrase} {w : List Token} : Derives q w → Derives (.choice p q) w
  | without {p : Phrase} : Derives (.optional p) []
  | present {p : Phrase} {w : List Token} : Derives p w → Derives (.optional p) w
  | none {p : Phrase} : Derives (.many p) []
  | more {p : Phrase} {u w : List Token} : Derives p u → Derives (.many p) w →
    Derives (.many p) (u ++ w)
  | noMore {p : Phrase} {most : Nat} : Derives (.upTo most p) []
  | oneMore {p : Phrase} {most : Nat} {u w : List Token} : Derives p u → Derives (.upTo most p) w →
    Derives (.upTo (most + 1) p) (u ++ w)

/-! ## Languages -/

/-- What a phrase stands for when the categories stand for given sets of token lists. -/
def Phrase.Holds (language : Category → List Token → Prop) : Phrase → List Token → Prop
  | .nothing, w => w = []
  | .terminal x, w => ∃ t, w = [t] ∧ x.Matches t
  | .category c, w => language c w
  | .sequence p q, w => ∃ u v, w = u ++ v ∧ p.Holds language u ∧ q.Holds language v
  | .choice p q, w => p.Holds language w ∨ q.Holds language w
  | .optional p, w => w = [] ∨ p.Holds language w
  | .many p, w => ∃ parts, w = List.flatten parts ∧ ∀ part ∈ parts, p.Holds language part
  | .upTo most p, w => ∃ parts, w = List.flatten parts ∧ parts.length ≤ most ∧
    ∀ part ∈ parts, p.Holds language part

/-- Derivability is contained in every family of languages that is closed under the rules. -/
theorem Derives.holds {language : Category → List Token → Prop}
    (hclosed : ∀ category w, category.rule.Holds language w → language category w)
    {p : Phrase} {w : List Token} (h : Derives p w) : p.Holds language w := by
  induction h with
  | nothing => rfl
  | terminal ht => exact ⟨_, rfl, ht⟩
  | category _ ih => exact hclosed _ _ ih
  | sequence _ _ ih ih' => exact ⟨_, _, rfl, ih, ih'⟩
  | first _ ih => exact Or.inl ih
  | second _ ih => exact Or.inr ih
  | without => exact Or.inl rfl
  | present _ ih => exact Or.inr ih
  | none => exact ⟨[], rfl, nofun⟩
  | more _ _ ih ih' =>
    obtain ⟨parts, rfl, hparts⟩ := ih'
    exact ⟨_ :: parts, rfl, List.forall_mem_cons.mpr ⟨ih, hparts⟩⟩
  | noMore => exact ⟨[], rfl, Nat.zero_le _, nofun⟩
  | oneMore _ _ ih ih' =>
    obtain ⟨parts, rfl, hlength, hparts⟩ := ih'
    exact ⟨_ :: parts, rfl, Nat.succ_le_succ hlength, List.forall_mem_cons.mpr ⟨ih, hparts⟩⟩

abbrev Derived (category : Category) (w : List Token) : Prop :=
  Derives (.category category) w

theorem derives_of_holds (p : Phrase) (w : List Token) (h : p.Holds Derived w) : Derives p w := by
  induction p generalizing w with
  | nothing =>
    cases h
    exact .nothing
  | terminal _ =>
    obtain ⟨t, rfl, ht⟩ := h
    exact .terminal ht
  | category _ => exact h
  | sequence _ _ ih ih' =>
    obtain ⟨u, v, rfl, hu, hv⟩ := h
    exact .sequence (ih u hu) (ih' v hv)
  | choice _ _ ih ih' =>
    rcases h with h | h
    · exact .first (ih w h)
    · exact .second (ih' w h)
  | optional _ ih =>
    rcases h with rfl | h
    · exact .without
    · exact .present (ih w h)
  | many _ ih =>
    obtain ⟨parts, rfl, hparts⟩ := h
    induction parts with
    | nil => exact .none
    | cons part parts ihp =>
      obtain ⟨hpart, hparts⟩ := List.forall_mem_cons.mp hparts
      exact .more (ih part hpart) (ihp hparts)
  | upTo most _ ih =>
    obtain ⟨parts, rfl, hlength, hparts⟩ := h
    induction parts generalizing most with
    | nil => exact .noMore
    | cons part parts ihp =>
      obtain ⟨hpart, hparts⟩ := List.forall_mem_cons.mp hparts
      obtain ⟨most, rfl⟩ := Nat.exists_eq_succ_of_ne_zero (Nat.ne_zero_of_lt hlength)
      exact .oneMore (ih part hpart) (ihp most (Nat.le_of_succ_le_succ hlength) hparts)

/-- What is derived from a category is what its rule stands for. -/
theorem derived_iff (category : Category) (w : List Token) :
    Derived category w ↔ category.rule.Holds Derived w := by
  constructor
  · rintro (_ | _ | h)
    exact h.holds fun category w h => .category (derives_of_holds _ w h)
  · exact fun h => .category (derives_of_holds _ w h)

theorem derived_of_holds {category : Category} {w : List Token}
    (h : category.rule.Holds Derived w) : Derived category w :=
  (derived_iff category w).mpr h

/-! ## Phrases in a row -/

section Rows
variable {language : Category → List Token → Prop} {p : Phrase} {rest : List Phrase} {t : Token}
  {u w : List Token}

theorem holds_sign {s : Symbol} (h : t.kind = .symbol s) : (Phrase.sign s).Holds language [t] :=
  ⟨t, rfl, h⟩

theorem holds_word {k : Keyword} (h : t.kind = .keyword k) : (Phrase.word k).Holds language [t] :=
  ⟨t, rfl, h⟩

theorem holds_name (h : t.kind = .identifier) : Phrase.name.Holds language [t] :=
  ⟨t, rfl, h⟩

theorem holds_last (h : p.Holds language w) : (Phrase.all [p]).Holds language w :=
  ⟨w, [], (List.append_nil w).symm, h, rfl⟩

theorem holds_then (h : p.Holds language u) (h' : (Phrase.all rest).Holds language w) :
    (Phrase.all (p :: rest)).Holds language (u ++ w) :=
  ⟨u, w, rfl, h, h'⟩

theorem holds_one (h : p.Holds language [t]) (h' : (Phrase.all rest).Holds language w) :
    (Phrase.all (p :: rest)).Holds language (t :: w) :=
  ⟨[t], w, rfl, h, h'⟩

/-- A choice stands for what each of its members does. -/
theorem holds_oneOf {q : Phrase} (hq : q ∈ p :: rest) (h : q.Holds language w) :
    (Phrase.oneOf p rest).Holds language w := by
  induction rest generalizing p with
  | nil =>
    obtain rfl := List.mem_singleton.mp hq
    exact h
  | cons next rest ih =>
    obtain rfl | hq := List.mem_cons.mp hq
    · exact Or.inl h
    · exact Or.inr (ih hq)

theorem holds_without (h : (Phrase.all rest).Holds language w) :
    (Phrase.all (.optional p :: rest)).Holds language w :=
  ⟨[], w, rfl, Or.inl rfl, h⟩

end Rows

/-! ## What is followed by any number of the same -/

section Repeated
variable {language : Category → List Token → Prop} {first operand : Category} {p operators : Phrase}
  {u w : List Token}

theorem holds_single (h : language first w) :
    (Phrase.all [.category first, .many p]).Holds language w :=
  ⟨w, [], (List.append_nil w).symm, h, [], [], rfl, ⟨[], rfl, nofun⟩, rfl⟩

theorem holds_more (h : (Phrase.all [.category first, .many p]).Holds language u)
    (hw : p.Holds language w) : (Phrase.all [.category first, .many p]).Holds language (u ++ w) := by
  obtain ⟨u, _, rfl, hu, _, _, rfl, ⟨parts, rfl, hparts⟩, rfl⟩ := h
  refine ⟨u, parts.flatten ++ w, ?_, hu, parts.flatten ++ w, [], (List.append_nil _).symm,
    ⟨parts ++ [w], ?_, ?_⟩, rfl⟩
  · rw [List.append_nil, List.append_assoc]
  · rw [List.flatten_append, List.flatten_singleton]
  · exact List.forall_mem_append.mpr ⟨hparts, List.forall_mem_singleton.mpr hw⟩

theorem holds_separated {operator : Token} (h : (Phrase.separated operand operators).Holds language u)
    (hoperator : operators.Holds language [operator]) (hw : language operand w) :
    (Phrase.separated operand operators).Holds language (u ++ operator :: w) :=
  holds_more h (holds_one hoperator (holds_last hw))

end Repeated

/-! ## Texts are derived -/

/-- The category that stands for a place. -/
def Place.category : Place → Category
  | .primary => .primary
  | .call => .call
  | .unary => .unary
  | .joined levels =>
    match levels.length with
    | 0 => .unary
    | 1 => .factor
    | 2 => .term
    | 3 => .comparison
    | 4 => .equality
    | 5 => .conjunction
    | _ => .disjunction
  | .expression => .expression

section Texts
variable {u w : List Token}

theorem derived_tighter (level : OperatorLevel) {levels : List OperatorLevel}
    (h : Derived (Place.joined levels).category w) :
    Derived (Place.joined (level :: levels)).category w := by
  simp only [Place.category, List.length_cons] at h ⊢
  generalize levels.length = n at h ⊢
  match n with
  | 0 => exact derived_of_holds (holds_single h)
  | 1 => exact derived_of_holds (holds_single h)
  | 2 => exact derived_of_holds (holds_single h)
  | 3 => exact derived_of_holds (holds_single h)
  | 4 => exact derived_of_holds (holds_single h)
  | 5 => exact derived_of_holds (holds_single h)
  | _ + 6 => exact h

theorem derived_operator {level : OperatorLevel} {levels : List OperatorLevel} {operator : Token}
    (hlevels : level :: levels <:+ OperatorLevel.all)
    (hu : Derived (Place.joined (level :: levels)).category u) (hoperator : level.admits operator = true)
    (hw : Derived (Place.joined levels).category w) :
    Derived (Place.joined (level :: levels)).category (u ++ operator :: w) := by
  have hkind := OperatorLevel.mem_operators (hlevels.subset List.mem_cons_self) hoperator
  simp only [OperatorLevel.all, List.suffix_cons_iff, List.cons.injEq, List.suffix_nil,
    reduceCtorEq, or_false] at hlevels
  rcases hlevels with ⟨rfl, rfl⟩ | ⟨rfl, rfl⟩ | ⟨rfl, rfl⟩ | ⟨rfl, rfl⟩ | ⟨rfl, rfl⟩ | ⟨rfl, rfl⟩ <;>
    simp only [List.mem_cons, List.not_mem_nil, or_false] at hkind <;>
    refine derived_of_holds (holds_separated ((derived_iff _ u).mp hu) ?_ hw)
  · exact holds_word hkind
  · exact holds_word hkind
  · exact hkind.imp holds_sign holds_sign
  · exact hkind.imp holds_sign (.imp holds_sign (.imp holds_sign holds_sign))
  · exact hkind.imp holds_sign holds_sign
  · exact hkind.symm.imp holds_sign holds_sign

theorem derived_literal {t : Token} {value : Literal} (h : Literal.ofKind? t.kind = some value) :
    Derived .primary [t] := by
  unfold Literal.ofKind? at h
  split at h
  · rename_i number hkind
    have hnumber : (Phrase.terminal .number).Holds Derived [t] := ⟨t, rfl, number, hkind⟩
    exact derived_of_holds (holds_oneOf (by simp) hnumber)
  · rename_i text hkind
    have hstring : (Phrase.terminal .string).Holds Derived [t] := ⟨t, rfl, text, hkind⟩
    exact derived_of_holds (holds_oneOf (by simp) hstring)
  · rename_i hkind
    exact derived_of_holds (holds_oneOf (by simp) (holds_word hkind))
  · rename_i hkind
    exact derived_of_holds (holds_oneOf (by simp) (holds_word hkind))
  · rename_i hkind
    exact derived_of_holds (holds_oneOf (by simp) (holds_word hkind))
  · cases h

theorem derived_thisObject {t : Token} (h : t.kind = .keyword .thisWord) : Derived .primary [t] :=
  derived_of_holds (holds_oneOf (by simp) (holds_word h))

theorem derived_variable {t : Token} (h : t.kind = .identifier) : Derived .primary [t] :=
  derived_of_holds (holds_oneOf (by simp) (holds_name h))

theorem derived_grouping {left right : Token} (hleft : left.kind = .symbol .leftParen)
    (h : Derived .expression w) (hright : right.kind = .symbol .rightParen) :
    Derived .primary (left :: (w ++ [right])) := by
  have hgroup : (Phrase.all [.sign .leftParen, .category .expression, .sign .rightParen]).Holds
      Derived (left :: (w ++ [right])) :=
    holds_one (holds_sign hleft) (holds_then h (holds_last (holds_sign hright)))
  exact derived_of_holds (holds_oneOf (by simp) hgroup)

theorem derived_superMethod {keyword dot method : Token} (hkeyword : keyword.kind = .keyword .superWord)
    (hdot : dot.kind = .symbol .dot) (hmethod : method.kind = .identifier) :
    Derived .primary [keyword, dot, method] := by
  have hsuper : (Phrase.all [.word .superWord, .sign .dot, .name]).Holds Derived
      [keyword, dot, method] :=
    holds_one (holds_word hkeyword) (holds_one (holds_sign hdot) (holds_last (holds_name hmethod)))
  exact derived_of_holds (holds_oneOf (by simp) hsuper)

theorem derived_call {left paren : Token} (hu : Derived .call u) (hleft : left.kind = .symbol .leftParen)
    (hw : (Phrase.optional (.category .arguments)).Holds Derived w)
    (hparen : paren.kind = .symbol .rightParen) : Derived .call (u ++ left :: (w ++ [paren])) :=
  derived_of_holds (holds_more ((derived_iff _ u).mp hu)
    (Or.inl (holds_one (holds_sign hleft) (holds_then hw (holds_last (holds_sign hparen))))))

theorem derived_get {dot name : Token} (hu : Derived .call u) (hdot : dot.kind = .symbol .dot)
    (hname : name.kind = .identifier) : Derived .call (u ++ [dot, name]) :=
  derived_of_holds (holds_more ((derived_iff _ u).mp hu)
    (Or.inr (holds_one (holds_sign hdot) (holds_last (holds_name hname)))))

theorem derived_unary {operator : Token}
    (hoperator : operator.kind = .symbol .bang ∨ operator.kind = .symbol .minus)
    (hw : Derived .unary w) : Derived .unary (operator :: w) :=
  derived_of_holds
    (Or.inl (holds_one (hoperator.imp holds_sign holds_sign) (holds_last hw)))

theorem derived_assignment (h : Derived .expression w) : Derived .assignment w :=
  (derived_iff .expression w).mp h

theorem derived_assign {name equals : Token} (hname : name.kind = .identifier)
    (hequals : equals.kind = .symbol .equal) (hw : Derived .expression w) :
    Derived .expression (name :: equals :: w) := by
  have hvalue : (Phrase.all [.category .assignment]).Holds Derived w := holds_last (derived_assignment hw)
  exact derived_of_holds (derived_of_holds (Or.inl (holds_without
    (holds_one (holds_name hname) (holds_one (holds_sign hequals) hvalue)))))

theorem derived_set {dot name equals : Token} (hu : Derived .call u) (hdot : dot.kind = .symbol .dot)
    (hname : name.kind = .identifier) (hequals : equals.kind = .symbol .equal)
    (hw : Derived .expression w) : Derived .expression (u ++ dot :: name :: equals :: w) := by
  have hobject : (Phrase.all [.category .call, .sign .dot]).Holds Derived (u ++ [dot]) :=
    holds_then hu (holds_last (holds_sign hdot))
  have hvalue : (Phrase.all [.category .assignment]).Holds Derived w := holds_last (derived_assignment hw)
  have hword : u ++ dot :: name :: equals :: w = (u ++ [dot]) ++ name :: equals :: w := by
    rw [List.append_assoc]
    rfl
  rw [hword]
  exact derived_of_holds (derived_of_holds (Or.inl (holds_then (Or.inr hobject)
    (holds_one (holds_name hname) (holds_one (holds_sign hequals) hvalue)))))

end Texts

/-- Items of one sort with commas between them. -/
theorem holds_commas {α : Type} {item : Nat → List Token → α → Nat → Prop} {p : Phrase}
    (hitem : ∀ lo w a hi, item lo w a hi → p.Holds Derived w) {lo hi : Nat} {w : List Token}
    {as : List α} (h : CommaText item lo w as hi) {most : Nat} (hmost : as.length ≤ most + 1) :
    (Phrase.all [p, .upTo most (.all [.sign .comma, p])]).Holds Derived w := by
  induction h generalizing most with
  | last ha => exact ⟨_, [], (List.append_nil _).symm, hitem _ _ _ _ ha, [], [], rfl,
      ⟨[], rfl, Nat.zero_le _, nofun⟩, rfl⟩
  | @more lo mid hi u w comma a as ha hcomma hrest ih =>
    have hpos : as.length ≠ 0 := fun h => hrest.ne_nil (List.length_eq_zero_iff.mp h)
    rw [List.length_cons] at hmost
    obtain ⟨most, rfl⟩ := Nat.exists_eq_succ_of_ne_zero (by omega : most ≠ 0)
    obtain ⟨v, _, rfl, hv, _, _, rfl, ⟨parts, rfl, hlength, hparts⟩, rfl⟩ :=
      ih (by omega : as.length ≤ most + 1)
    refine ⟨u, comma :: (v ++ parts.flatten), by rw [List.append_nil], hitem _ _ _ _ ha, _, [],
      (List.append_nil _).symm, ⟨(comma :: v) :: parts, rfl, Nat.succ_le_succ hlength, ?_⟩, rfl⟩
    exact List.forall_mem_cons.mpr ⟨holds_one (holds_sign hcomma) (holds_last hv), hparts⟩

theorem derived_arguments {lo hi : Nat} {w : List Token} {es : List Expr}
    (h : CommaText (fun _ w (_ : Expr) _ => Derived .expression w) lo w es hi)
    (hlength : es.length ≤ maxArity) : Derived .arguments w :=
  derived_of_holds (holds_commas (fun _ _ _ _ h => h) h hlength)

mutual

/-- The text of an expression is derived from the category of its place. -/
theorem ExprText.derived {place : Place} {lo hi : Nat} {w : List Token} {e : Expr}
    (h : ExprText place lo w e hi) : Derived place.category w :=
  match h with
  | .literal hvalue => derived_literal hvalue
  | .variable hname => derived_variable hname
  | .thisObject hkeyword => derived_thisObject hkeyword
  | .superMethod hkeyword hdot hmethod => derived_superMethod hkeyword hdot hmethod
  | .grouping hleft hinner hright => derived_grouping hleft hinner.derived hright
  | .operand hprimary => derived_of_holds (holds_single hprimary.derived)
  | .callWithout hcallee hleft hparen => derived_call hcallee.derived hleft (Or.inl rfl) hparen
  | .call hcallee hleft harguments hlength hparen =>
    derived_call hcallee.derived hleft (Or.inr (derived_arguments harguments.derived hlength)) hparen
  | .get hobject hdot hname => derived_get hobject.derived hdot hname
  | .unoperated hcall => derived_of_holds (Or.inr hcall.derived)
  | .unary hoperator hinner => derived_unary hoperator hinner.derived
  | .tightest hunary => hunary.derived
  | .tighter htighter => derived_tighter _ htighter.derived
  | .operator hlevels hleft hoperator hright =>
    derived_operator hlevels hleft.derived hoperator hright.derived
  | .joined hjoined => derived_of_holds (derived_of_holds (Or.inr hjoined.derived))
  | .assign hname hequals hvalue => derived_assign hname hequals hvalue.derived
  | .set hobject hdot hname hequals hvalue =>
    derived_set hobject.derived hdot hname hequals hvalue.derived

theorem CommaText.derived {lo hi : Nat} {w : List Token} {es : List Expr}
    (h : CommaText (ExprText .expression) lo w es hi) :
    CommaText (fun _ w (_ : Expr) _ => Derived .expression w) lo w es hi :=
  match h with
  | .last he => .last he.derived
  | .more he hcomma hrest => .more he.derived hcomma hrest.derived

end

/-! ## Statements -/

section Statements
variable {lo mid hi : Nat} {u w : List Token} {e : Expr} {s : Stmt}

theorem OptionText.holds {e : Option Expr} (h : OptionText (ExprText .expression) lo w e hi) :
    (Phrase.optional (.category .expression)).Holds Derived w := by
  cases h with
  | none => exact Or.inl rfl
  | some he => exact Or.inr he.derived

theorem VariableText.derived {word : Token} (hword : word.kind = .keyword .varWord)
    (h : VariableText lo w s hi) : Derived .variableDeclaration (word :: w) := by
  refine derived_of_holds ?_
  cases h with
  | bare hname hstop =>
    exact holds_one (holds_word hword) (holds_one (holds_name hname)
      (holds_without (holds_last (holds_sign hstop))))
  | @initialized _ name equals stop w e hname hequals he hstop =>
    have hvalue : (Phrase.all [.sign .equal, .category .expression]).Holds Derived (equals :: w) :=
      holds_one (holds_sign hequals) (holds_last he.derived)
    exact holds_one (holds_word hword) (holds_one (holds_name hname)
      (holds_then (u := equals :: w) (Or.inr hvalue) (holds_last (holds_sign hstop))))

theorem ExpressionStatementText.derived (h : ExpressionStatementText lo w s hi) :
    Derived .expressionStatement w := by
  cases h with
  | intro he hstop => exact derived_of_holds (holds_then he.derived (holds_last (holds_sign hstop)))

theorem InitializerText.holds {initializer : Option Stmt} (h : InitializerText lo w initializer hi) :
    (Phrase.oneOf (.category .variableDeclaration)
      [.category .expressionStatement, .sign .semicolon]).Holds Derived w := by
  cases h with
  | none hstop => exact Or.inr (Or.inr (holds_sign hstop))
  | «variable» hword hs => exact Or.inl (hs.derived hword)
  | expression hs => exact Or.inr (Or.inl hs.derived)

theorem holds_parameters {params : List Token} (h : ItemsText NameText lo w params hi) :
    (Phrase.optional (.category .parameters)).Holds Derived w := by
  obtain ⟨rfl, -, -⟩ | ⟨hparams, hlength⟩ := h
  · exact Or.inl rfl
  · refine Or.inr (derived_of_holds (holds_commas ?_ hparams hlength))
    rintro lo w name hi ⟨rfl, hname, -⟩
    exact holds_name hname

theorem holds_many {α : Type} {item : Nat → List Token → α → Nat → Prop} {category : Category}
    {as : List α} (h : ListText item lo w as hi)
    (hitem : ∀ lo w a hi, item lo w a hi → Derived category w) :
    (Phrase.many (.category category)).Holds Derived w := by
  induction h with
  | nil => exact ⟨[], rfl, nofun⟩
  | cons ha _ ih =>
    obtain ⟨parts, rfl, hparts⟩ := ih
    exact ⟨_ :: parts, rfl, List.forall_mem_cons.mpr ⟨hitem _ _ _ _ ha, hparts⟩⟩

theorem derived_block {left right : Token} {body : List Stmt} (hleft : left.kind = .symbol .leftBrace)
    (hbody : ListText (fun _ w (_ : Stmt) _ => Derived .declaration w) lo w body hi)
    (hright : right.kind = .symbol .rightBrace) : Derived .block (left :: (w ++ [right])) :=
  derived_of_holds (holds_one (holds_sign hleft)
    (holds_then (holds_many hbody fun _ _ _ _ h => h) (holds_last (holds_sign hright))))

theorem derived_function {name left right opening closing : Token} {params : List Token}
    {body : List Stmt} (hname : name.kind = .identifier) (hleft : left.kind = .symbol .leftParen)
    (hparams : ItemsText NameText lo u params mid) (hright : right.kind = .symbol .rightParen)
    (hopening : opening.kind = .symbol .leftBrace)
    (hbody : ListText (fun _ w (_ : Stmt) _ => Derived .declaration w) mid w body hi)
    (hclosing : closing.kind = .symbol .rightBrace) :
    Derived .function (name :: left :: (u ++ right :: opening :: (w ++ [closing]))) :=
  derived_of_holds (holds_one (holds_name hname) (holds_one (holds_sign hleft)
    (holds_then (holds_parameters hparams) (holds_one (holds_sign hright)
      (holds_last (derived_block hopening hbody hclosing))))))

theorem derived_class {word name left right : Token} {superclass : Option Expr}
    {methods : List FunctionDeclaration} (hword : word.kind = .keyword .classWord)
    (hname : name.kind = .identifier) (hsuper : SuperclassText lo u superclass mid)
    (hleft : left.kind = .symbol .leftBrace)
    (hmethods : ListText (fun _ w (_ : FunctionDeclaration) _ => Derived .function w) mid w methods hi)
    (hright : right.kind = .symbol .rightBrace) :
    Derived .classDeclaration (word :: name :: (u ++ left :: (w ++ [right]))) := by
  have hbody : (Phrase.all [.sign .leftBrace, .many (.category .function), .sign .rightBrace]).Holds
      Derived (left :: (w ++ [right])) :=
    holds_one (holds_sign hleft)
      (holds_then (holds_many hmethods fun _ _ _ _ h => h) (holds_last (holds_sign hright)))
  refine derived_of_holds (holds_one (holds_word hword) (holds_one (holds_name hname) ?_))
  cases hsuper with
  | none => exact holds_without hbody
  | some hless hparent =>
    exact holds_then (Or.inr (holds_one (holds_sign hless) (holds_last (holds_name hparent)))) hbody

theorem derived_statement {category : Category}
    (hcategory : category ∈ [Category.expressionStatement, .forStatement, .ifStatement,
      .printStatement, .returnStatement, .whileStatement, .block])
    (h : Derived category w) : Derived .statement w :=
  derived_of_holds (holds_oneOf (List.mem_map_of_mem hcategory) h)

theorem derived_declaration {category : Category}
    (hcategory : category ∈ [Category.classDeclaration, .functionDeclaration, .variableDeclaration,
      .statement])
    (h : Derived category w) : Derived .declaration w :=
  derived_of_holds (holds_oneOf (List.mem_map_of_mem hcategory) h)

theorem derived_if {word left right : Token} (hword : word.kind = .keyword .ifWord)
    (hleft : left.kind = .symbol .leftParen) (he : Derived .expression u)
    (hright : right.kind = .symbol .rightParen)
    (hw : (Phrase.all [.category .statement,
      .optional (.all [.word .elseWord, .category .statement])]).Holds Derived w) :
    Derived .statement (word :: left :: (u ++ right :: w)) := by
  have hif : Derived .ifStatement (word :: left :: (u ++ right :: w)) :=
    derived_of_holds (holds_one (holds_word hword) (holds_one (holds_sign hleft)
      (holds_then he (holds_one (holds_sign hright) hw))))
  exact derived_statement (by simp) hif

theorem derived_while {word left right : Token} (hword : word.kind = .keyword .whileWord)
    (hleft : left.kind = .symbol .leftParen) (he : Derived .expression u)
    (hright : right.kind = .symbol .rightParen) (hw : Derived .statement w) :
    Derived .statement (word :: left :: (u ++ right :: w)) := by
  have hloop : Derived .whileStatement (word :: left :: (u ++ right :: w)) :=
    derived_of_holds (holds_one (holds_word hword) (holds_one (holds_sign hleft)
      (holds_then he (holds_one (holds_sign hright) (holds_last hw)))))
  exact derived_statement (by simp) hloop

theorem derived_for {first second third : Nat} {v v' : List Token} {word left stop right : Token}
    {initializer : Option Stmt} {test increment : Option Expr}
    (hword : word.kind = .keyword .forWord) (hleft : left.kind = .symbol .leftParen)
    (hinit : InitializerText lo u initializer first)
    (htest : OptionText (ExprText .expression) first v test second)
    (hstop : stop.kind = .symbol .semicolon)
    (hincrement : OptionText (ExprText .expression) second v' increment third)
    (hright : right.kind = .symbol .rightParen) (hw : Derived .statement w) :
    Derived .statement (word :: left :: (u ++ (v ++ stop :: (v' ++ right :: w)))) := by
  have hfor : Derived .forStatement (word :: left :: (u ++ (v ++ stop :: (v' ++ right :: w)))) :=
    derived_of_holds (holds_one (holds_word hword) (holds_one (holds_sign hleft)
      (holds_then hinit.holds (holds_then htest.holds (holds_one (holds_sign hstop)
        (holds_then hincrement.holds (holds_one (holds_sign hright) (holds_last hw))))))))
  exact derived_statement (by simp) hfor

end Statements

mutual

/-- The text of a statement is derived, whether an `else` could follow it or not. -/
theorem StmtText.derived {dangling : Bool} {lo hi : Nat} {w : List Token} {s : Stmt}
    (h : StmtText dangling lo w s hi) : Derived .statement w :=
  match h with
  | .expression hs => derived_statement (by simp) hs.derived
  | .print hword he hstop =>
    have hprint : Category.printStatement.rule.Holds Derived _ :=
      holds_one (holds_word hword) (holds_then he.derived (holds_last (holds_sign hstop)))
    derived_statement (by simp) (derived_of_holds hprint)
  | .returnWith hword he hstop =>
    have hreturn : Category.returnStatement.rule.Holds Derived _ :=
      holds_one (holds_word hword) (holds_then he.holds (holds_last (holds_sign hstop)))
    derived_statement (by simp) (derived_of_holds hreturn)
  | .block hleft hbody hright => derived_statement (by simp) (derived_block hleft hbody.derived hright)
  | .conditional hword hleft he hright hs =>
    derived_if hword hleft he.derived hright ⟨_, [], (List.append_nil _).symm, hs.derived, [], [],
      rfl, Or.inl rfl, rfl⟩
  | .alternative hword hleft he hright hs hother hs' =>
    derived_if hword hleft he.derived hright (holds_then hs.derived (holds_last
      (Or.inr (holds_one (holds_word hother) (holds_last hs'.derived)))))
  | .loop hword hleft he hright hs => derived_while hword hleft he.derived hright hs.derived
  | .forLoop hword hleft hinit htest hstop hincrement hright hs =>
    derived_for hword hleft hinit htest hstop hincrement hright hs.derived

theorem DeclarationText.derived {lo hi : Nat} {w : List Token} {s : Stmt}
    (h : DeclarationText lo w s hi) : Derived .declaration w :=
  match h with
  | .statement hs => derived_declaration (by simp) hs.derived
  | .variable hword hs => derived_declaration (by simp) (hs.derived hword)
  | .function hword hd =>
    have hfunction : Category.functionDeclaration.rule.Holds Derived _ :=
      holds_one (holds_word hword) (holds_last hd.derived)
    derived_declaration (by simp) (derived_of_holds hfunction)
  | .classDeclaration hword hname hsuper hleft hmethods hright =>
    derived_declaration (by simp)
      (derived_class hword hname hsuper hleft hmethods.derivedMethods hright)

theorem FunctionText.derived {lo hi : Nat} {w : List Token} {d : FunctionDeclaration}
    (h : FunctionText lo w d hi) : Derived .function w :=
  match h with
  | .intro hname hleft hparams hright hopening hbody hclosing =>
    derived_function hname hleft hparams hright hopening hbody.derived hclosing

theorem ListText.derived {lo hi : Nat} {w : List Token} {body : List Stmt}
    (h : ListText DeclarationText lo w body hi) :
    ListText (fun _ w (_ : Stmt) _ => Derived .declaration w) lo w body hi :=
  match h with
  | .nil => .nil
  | .cons hs hbody => .cons hs.derived hbody.derived

theorem ListText.derivedMethods {lo hi : Nat} {w : List Token} {methods : List FunctionDeclaration}
    (h : ListText FunctionText lo w methods hi) :
    ListText (fun _ w (_ : FunctionDeclaration) _ => Derived .function w) lo w methods hi :=
  match h with
  | .nil => .nil
  | .cons hd hmethods => .cons hd.derived hmethods.derivedMethods

end

/-! ## What is derived has a text -/

/-- A text of some sort from every identity on. -/
def Readable {α : Type} (item : Nat → List Token → α → Nat → Prop) (w : List Token) : Prop :=
  ∀ lo, ∃ a hi, item lo w a hi

/-- A statement that may or may not end with a conditional that lacks an `else`. -/
def StatementText (lo : Nat) (w : List Token) (s : Stmt) (hi : Nat) : Prop :=
  ∃ dangling, StmtText dangling lo w s hi

/-- The texts of the categories. -/
def Category.Text : Category → List Token → Prop
  | .program, w => Readable (ListText DeclarationText) w
  | .declaration, w => Readable DeclarationText w
  | .classDeclaration, w => Readable DeclarationText w
  | .functionDeclaration, w => Readable DeclarationText w
  | .function, w => Readable FunctionText w
  | .variableDeclaration, w => ∃ word v, w = word :: v ∧ word.kind = .keyword .varWord ∧
    Readable VariableText v
  | .statement, w => Readable StatementText w
  | .expressionStatement, w => Readable ExpressionStatementText w
  | .forStatement, w => Readable StatementText w
  | .ifStatement, w => Readable StatementText w
  | .printStatement, w => Readable StatementText w
  | .returnStatement, w => Readable StatementText w
  | .whileStatement, w => Readable StatementText w
  | .block, w => ∃ left v right, w = left :: (v ++ [right]) ∧ left.kind = .symbol .leftBrace ∧
    right.kind = .symbol .rightBrace ∧ Readable (ListText DeclarationText) v
  | .parameters, w => Readable
    (fun lo w params hi => CommaText NameText lo w params hi ∧ params.length ≤ maxArity) w
  | .expression, w => Readable (ExprText .expression) w
  | .assignment, w => Readable (ExprText .expression) w
  | .disjunction, w => Readable (ExprText (.joined OperatorLevel.all)) w
  | .conjunction, w => Readable (ExprText (.joined (OperatorLevel.all.drop 1))) w
  | .equality, w => Readable (ExprText (.joined (OperatorLevel.all.drop 2))) w
  | .comparison, w => Readable (ExprText (.joined (OperatorLevel.all.drop 3))) w
  | .term, w => Readable (ExprText (.joined (OperatorLevel.all.drop 4))) w
  | .factor, w => Readable (ExprText (.joined (OperatorLevel.all.drop 5))) w
  | .unary, w => Readable (ExprText .unary) w
  | .call, w => Readable (ExprText .call) w
  | .arguments, w => Readable
    (fun lo w es hi => CommaText (ExprText .expression) lo w es hi ∧ es.length ≤ maxArity) w
  | .primary, w => Readable (ExprText .primary) w

section Closure
variable {α : Type} {item : Nat → List Token → α → Nat → Prop} {u w : List Token}

theorem Readable.list {parts : List (List Token)} (h : ∀ part ∈ parts, Readable item part) :
    Readable (ListText item) parts.flatten := by
  induction parts with
  | nil => exact fun lo => ⟨[], lo, .nil⟩
  | cons part parts ih =>
    intro lo
    obtain ⟨hpart, hparts⟩ := List.forall_mem_cons.mp h
    obtain ⟨a, mid, ha⟩ := hpart lo
    obtain ⟨as, hi, has⟩ := ih hparts mid
    exact ⟨a :: as, hi, .cons ha has⟩

theorem Readable.commas {p : Phrase} (hu : Readable item u)
    (hp : ∀ w, p.Holds Category.Text w → Readable item w) {parts : List (List Token)}
    (h : ∀ part ∈ parts, (Phrase.all [.sign .comma, p]).Holds Category.Text part) :
    Readable (fun lo w as hi => CommaText item lo w as hi ∧ as.length = parts.length + 1)
      (u ++ parts.flatten) := by
  induction parts generalizing u with
  | nil =>
    intro lo
    obtain ⟨a, hi, ha⟩ := hu lo
    exact ⟨[a], hi, by rw [List.flatten_nil, List.append_nil]; exact .last ha, rfl⟩
  | cons part parts ih =>
    intro lo
    obtain ⟨hpart, hparts⟩ := List.forall_mem_cons.mp h
    obtain ⟨_, _, rfl, ⟨comma, rfl, hcomma⟩, v, _, rfl, hv, rfl⟩ := hpart
    obtain ⟨a, mid, ha⟩ := hu lo
    obtain ⟨as, hi, has, hlength⟩ := ih (hp v hv) hparts mid
    refine ⟨a :: as, hi, ?_, by rw [List.length_cons, List.length_cons, hlength]⟩
    rw [List.flatten_cons, List.append_nil]
    exact .more ha hcomma has

/-- The operands of a level and the operators between them. -/
theorem Readable.separated {level : OperatorLevel} {levels : List OperatorLevel}
    {operators : Phrase} (operand : Category) (hlevels : level :: levels <:+ OperatorLevel.all)
    (hoperand : ∀ w, operand.Text w → Readable (ExprText (.joined levels)) w)
    (hoperators : ∀ w, operators.Holds Category.Text w → ∃ t, w = [t] ∧ t.kind ∈ level.operators)
    (h : (Phrase.separated operand operators).Holds Category.Text w) :
    Readable (ExprText (.joined (level :: levels))) w := by
  obtain ⟨first, _, rfl, hfirst, _, _, rfl, ⟨parts, rfl, hparts⟩, rfl⟩ := h
  rw [List.append_nil]
  replace hfirst : Readable (ExprText (.joined (level :: levels))) first := by
    intro lo
    obtain ⟨e, hi, he⟩ := hoperand first hfirst lo
    exact ⟨e, hi, .tighter he⟩
  induction parts generalizing first with
  | nil => rwa [List.flatten_nil, List.append_nil]
  | cons part parts ih =>
    obtain ⟨hpart, hmore⟩ := List.forall_mem_cons.mp hparts
    obtain ⟨_, _, rfl, hoperator, v, _, rfl, hv, rfl⟩ := hpart
    obtain ⟨operator, rfl, hkind⟩ := hoperators _ hoperator
    rw [List.flatten_cons, List.append_nil, ← List.append_assoc]
    refine ih (first ++ ([operator] ++ v)) hmore ?_
    intro lo
    obtain ⟨left, mid, hleft⟩ := hfirst lo
    obtain ⟨right, hi, hright⟩ := hoperand v hv mid
    exact ⟨_, hi, .operator hlevels hleft (OperatorLevel.admits_of_mem hkind) hright⟩

/-- An operand and the calls and property accesses after it. -/
theorem Readable.calls (h : Category.call.rule.Holds Category.Text w) :
    Readable (ExprText .call) w := by
  obtain ⟨first, _, rfl, hfirst, _, _, rfl, ⟨parts, rfl, hparts⟩, rfl⟩ := h
  rw [List.append_nil]
  replace hfirst : Readable (ExprText .call) first := by
    intro lo
    obtain ⟨e, hi, he⟩ := hfirst lo
    exact ⟨e, hi, .operand he⟩
  induction parts generalizing first with
  | nil => rwa [List.flatten_nil, List.append_nil]
  | cons part parts ih =>
    obtain ⟨hpart, hmore⟩ := List.forall_mem_cons.mp hparts
    rw [List.flatten_cons, ← List.append_assoc]
    refine ih (first ++ part) hmore ?_
    intro lo
    obtain ⟨callee, mid, hcallee⟩ := hfirst lo
    obtain ⟨_, _, rfl, ⟨left, rfl, hleft⟩, v, _, rfl, hv, _, _, rfl, ⟨paren, rfl, hparen⟩, rfl⟩ |
      ⟨_, _, rfl, ⟨dot, rfl, hdot⟩, _, _, rfl, ⟨name, rfl, hname⟩, rfl⟩ := hpart
    · rcases hv with rfl | hv
      · exact ⟨_, mid, .callWithout hcallee hleft hparen⟩
      · obtain ⟨es, hi, hes, hlength⟩ := hv mid
        exact ⟨_, hi, .call hcallee hleft hes hlength hparen⟩
    · exact ⟨_, mid, .get hcallee hdot hname⟩

theorem Readable.literal {t : Token} {kind : TokenKind} (value : Literal) (ht : t.kind = kind)
    (h : Literal.ofKind? kind = some value) : Readable (ExprText .primary) [t] := by
  rw [← ht] at h
  exact fun lo => ⟨_, lo, .literal h⟩

theorem Readable.operand (h : Category.primary.rule.Holds Category.Text w) :
    Readable (ExprText .primary) w := by
  intro lo
  obtain ⟨t, rfl, value, ht⟩ | ⟨t, rfl, value, ht⟩ | ⟨t, rfl, ht⟩ | ⟨t, rfl, ht⟩ | ⟨t, rfl, ht⟩ |
    ⟨t, rfl, ht⟩ | ⟨t, rfl, ht⟩ | h | h := h
  · exact Readable.literal (.number value) ht rfl lo
  · exact Readable.literal (.string value) ht rfl lo
  · exact Readable.literal (.bool true) ht rfl lo
  · exact Readable.literal (.bool false) ht rfl lo
  · exact Readable.literal .nil ht rfl lo
  · exact ⟨_, lo + 1, .thisObject ht⟩
  · exact ⟨_, lo + 1, .variable ht⟩
  · obtain ⟨_, _, rfl, ⟨left, rfl, hleft⟩, v, _, rfl, hv, _, _, rfl, ⟨right, rfl, hright⟩, rfl⟩ := h
    obtain ⟨e, hi, he⟩ := hv lo
    exact ⟨_, hi, .grouping hleft he hright⟩
  · obtain ⟨_, _, rfl, ⟨keyword, rfl, hkeyword⟩, _, _, rfl, ⟨dot, rfl, hdot⟩, _, _, rfl,
      ⟨method, rfl, hmethod⟩, rfl⟩ := h
    exact ⟨_, lo + 1, .superMethod hkeyword hdot hmethod⟩

theorem Readable.arguments (h : Category.arguments.rule.Holds Category.Text w) :
    Category.arguments.Text w := by
  obtain ⟨first, _, rfl, hfirst, _, _, rfl, ⟨parts, rfl, hlength, hparts⟩, rfl⟩ := h
  have hfirst : Readable (ExprText .expression) first := hfirst
  intro lo
  obtain ⟨es, hi, hes, hcount⟩ :=
    Readable.commas (p := .category .expression) hfirst (fun _ h => h) hparts lo
  rw [List.append_nil]
  exact ⟨es, hi, hes, by rw [hcount]; exact Nat.succ_le_succ hlength⟩

theorem Readable.assignment (h : Category.assignment.rule.Holds Category.Text w) :
    Readable (ExprText .expression) w := by
  intro lo
  obtain ⟨target, _, rfl, htarget, _, _, rfl, ⟨name, rfl, hname⟩, _, _, rfl,
    ⟨equals, rfl, hequals⟩, v, _, rfl, hv, rfl⟩ | h := h
  · rw [List.append_nil]
    obtain rfl | ⟨u, _, rfl, hu, _, _, rfl, ⟨dot, rfl, hdot⟩, rfl⟩ := htarget
    · obtain ⟨e, hi, he⟩ := hv (lo + 1)
      exact ⟨_, _, .assign hname hequals he⟩
    · obtain ⟨object, mid, hobject⟩ := hu lo
      obtain ⟨e, hi, he⟩ := hv mid
      have htext := ExprText.set hobject hdot hname hequals he
      rw [List.append_assoc]
      exact ⟨_, hi, htext⟩
  · obtain ⟨e, hi, he⟩ := h lo
    exact ⟨e, hi, .joined he⟩

theorem Readable.unary (h : Category.unary.rule.Holds Category.Text w) :
    Readable (ExprText .unary) w := by
  intro lo
  obtain ⟨_, _, rfl, hoperator, v, _, rfl, hv, rfl⟩ | h := h
  · obtain ⟨e, hi, he⟩ := hv lo
    rw [List.append_nil]
    obtain ⟨operator, rfl, hoperator⟩ | ⟨operator, rfl, hoperator⟩ := hoperator
    · exact ⟨_, hi, .unary (Or.inl hoperator) he⟩
    · exact ⟨_, hi, .unary (Or.inr hoperator) he⟩
  · obtain ⟨e, hi, he⟩ := h lo
    exact ⟨e, hi, .unoperated he⟩

end Closure

/-- An `else` that follows a conditional without one becomes part of it. -/
theorem StmtText.absorb {dangling : Bool} {lo hi : Nat} {w v : List Token} {s : Stmt} {other : Token}
    (h : StmtText dangling lo w s hi) (hdangling : dangling = true)
    (hother : other.kind = .keyword .elseWord) (hv : Readable StatementText v) :
    ∃ s' hi', StatementText lo (w ++ other :: v) s' hi' :=
  match h with
  | .expression _ => nomatch hdangling
  | .print _ _ _ => nomatch hdangling
  | .returnWith _ _ _ => nomatch hdangling
  | .block _ _ _ => nomatch hdangling
  -- The `else` goes to the innermost conditional without one.
  | @StmtText.conditional _ mid hi inner _ _ _ u w _ _ hword hleft he hright hs => by
    simp only [List.cons_append, List.append_assoc]
    by_cases hinner : inner = true
    · obtain ⟨s', hi', dangling', hs'⟩ := hs.absorb hinner hother hv
      exact ⟨_, hi', true, StmtText.conditional hword hleft he hright hs'⟩
    · obtain ⟨s', hi', dangling', hs'⟩ := hv hi
      rw [Bool.eq_false_iff.mpr hinner] at hs
      exact ⟨_, hi', dangling', StmtText.alternative hword hleft he hright hs hother hs'⟩
  | .alternative hword hleft he hright hs hother' hs' => by
    obtain ⟨s'', hi', dangling', hs''⟩ := hs'.absorb hdangling hother hv
    simp only [List.cons_append, List.append_assoc]
    exact ⟨_, hi', dangling', StmtText.alternative hword hleft he hright hs hother' hs''⟩
  | .loop hword hleft he hright hs => by
    obtain ⟨s', hi', dangling', hs'⟩ := hs.absorb hdangling hother hv
    simp only [List.cons_append, List.append_assoc]
    exact ⟨_, hi', dangling', StmtText.loop hword hleft he hright hs'⟩
  | .forLoop hword hleft hinit htest hstop hincrement hright hs => by
    obtain ⟨s', hi', dangling', hs'⟩ := hs.absorb hdangling hother hv
    simp only [List.cons_append, List.append_assoc]
    exact ⟨_, hi', dangling', StmtText.forLoop hword hleft hinit htest hstop hincrement hright hs'⟩

section Closure
variable {u w : List Token}

theorem Readable.option (h : (Phrase.optional (.category .expression)).Holds Category.Text w) :
    Readable (OptionText (ExprText .expression)) w := by
  intro lo
  obtain rfl | h := h
  · exact ⟨none, lo, .none⟩
  · obtain ⟨e, hi, he⟩ := h lo
    exact ⟨some e, hi, .some he⟩

theorem Readable.ifStatement (h : Category.ifStatement.rule.Holds Category.Text w) :
    Readable StatementText w := by
  intro lo
  obtain ⟨_, _, rfl, ⟨word, rfl, hword⟩, _, _, rfl, ⟨left, rfl, hleft⟩, u, _, rfl, hu, _, _, rfl,
    ⟨right, rfl, hright⟩, v, _, rfl, hv, alternative, _, rfl, halternative, rfl⟩ := h
  obtain ⟨e, mid, he⟩ := hu lo
  obtain ⟨s, hi, dangling, hs⟩ := hv mid
  obtain rfl | ⟨_, _, rfl, ⟨other, rfl, hother⟩, v', _, rfl, hv', rfl⟩ := halternative
  · rw [List.append_nil, List.append_nil]
    exact ⟨_, hi, true, .conditional hword hleft he hright hs⟩
  · rw [List.append_nil, List.append_nil]
    -- The rule gives the `else` to this conditional; a text gives it to one that ends the statement.
    cases dangling with
    | false =>
      obtain ⟨s', hi', dangling', hs'⟩ := hv' hi
      exact ⟨_, hi', dangling', .alternative hword hleft he hright hs hother hs'⟩
    | true =>
      obtain ⟨s', hi', dangling', hs'⟩ := hs.absorb rfl hother hv'
      exact ⟨_, hi', true, .conditional hword hleft he hright hs'⟩

theorem Readable.whileStatement (h : Category.whileStatement.rule.Holds Category.Text w) :
    Readable StatementText w := by
  intro lo
  obtain ⟨_, _, rfl, ⟨word, rfl, hword⟩, _, _, rfl, ⟨left, rfl, hleft⟩, u, _, rfl, hu, _, _, rfl,
    ⟨right, rfl, hright⟩, v, _, rfl, hv, rfl⟩ := h
  obtain ⟨e, mid, he⟩ := hu lo
  obtain ⟨s, hi, dangling, hs⟩ := hv mid
  rw [List.append_nil]
  exact ⟨_, hi, dangling, .loop hword hleft he hright hs⟩

theorem Readable.forStatement (h : Category.forStatement.rule.Holds Category.Text w) :
    Readable StatementText w := by
  intro lo
  obtain ⟨_, _, rfl, ⟨word, rfl, hword⟩, _, _, rfl, ⟨left, rfl, hleft⟩, u, _, rfl, hu, v, _, rfl, hv,
    _, _, rfl, ⟨stop, rfl, hstop⟩, v', _, rfl, hv', _, _, rfl, ⟨right, rfl, hright⟩, x, _, rfl, hx,
    rfl⟩ := h
  have hinit : ∃ initializer first, InitializerText lo u initializer first := by
    obtain ⟨var, u, rfl, hvar, hu⟩ | hu | ⟨stop, rfl, hstop⟩ := hu
    · obtain ⟨s, first, hs⟩ := hu lo
      exact ⟨_, first, .variable hvar hs⟩
    · obtain ⟨s, first, hs⟩ := hu lo
      exact ⟨_, first, .expression hs⟩
    · exact ⟨none, lo, .none hstop⟩
  obtain ⟨initializer, first, hinit⟩ := hinit
  obtain ⟨test, second, htest⟩ := Readable.option hv first
  obtain ⟨increment, third, hincrement⟩ := Readable.option hv' second
  obtain ⟨s, hi, dangling, hs⟩ := hx third
  rw [List.append_nil]
  exact ⟨_, hi, dangling, .forLoop hword hleft hinit htest hstop hincrement hright hs⟩

theorem Readable.printStatement (h : Category.printStatement.rule.Holds Category.Text w) :
    Readable StatementText w := by
  intro lo
  obtain ⟨_, _, rfl, ⟨word, rfl, hword⟩, v, _, rfl, hv, _, _, rfl, ⟨stop, rfl, hstop⟩, rfl⟩ := h
  obtain ⟨e, hi, he⟩ := hv lo
  exact ⟨_, hi, false, .print hword he hstop⟩

theorem Readable.returnStatement (h : Category.returnStatement.rule.Holds Category.Text w) :
    Readable StatementText w := by
  intro lo
  obtain ⟨_, _, rfl, ⟨word, rfl, hword⟩, v, _, rfl, hv, _, _, rfl, ⟨stop, rfl, hstop⟩, rfl⟩ := h
  obtain ⟨e, hi, he⟩ := Readable.option hv lo
  exact ⟨_, hi, false, .returnWith hword he hstop⟩

theorem Readable.variableDeclaration
    (h : Category.variableDeclaration.rule.Holds Category.Text w) :
    Category.variableDeclaration.Text w := by
  obtain ⟨_, _, rfl, ⟨word, rfl, hword⟩, _, _, rfl, ⟨name, rfl, hname⟩, v, _, rfl, hv, _, _, rfl,
    ⟨stop, rfl, hstop⟩, rfl⟩ := h
  refine ⟨word, _, rfl, hword, fun lo => ?_⟩
  obtain rfl | ⟨_, _, rfl, ⟨equals, rfl, hequals⟩, v, _, rfl, hv, rfl⟩ := hv
  · exact ⟨_, lo, .bare hname hstop⟩
  · obtain ⟨e, hi, he⟩ := hv lo
    rw [List.append_nil]
    exact ⟨_, hi, .initialized hname hequals he hstop⟩

theorem Readable.function (h : Category.function.rule.Holds Category.Text w) :
    Readable FunctionText w := by
  intro lo
  obtain ⟨_, _, rfl, ⟨name, rfl, hname⟩, _, _, rfl, ⟨left, rfl, hleft⟩, v, _, rfl, hv, _, _, rfl,
    ⟨right, rfl, hright⟩, _, _, rfl, ⟨opening, v', closing, rfl, hopening, hclosing, hbody⟩, rfl⟩ := h
  have hparams : ∃ params mid, ItemsText NameText lo v params mid := by
    obtain rfl | hv := hv
    · exact ⟨[], lo, Or.inl ⟨rfl, rfl, rfl⟩⟩
    · obtain ⟨params, mid, hparams⟩ := hv lo
      exact ⟨params, mid, Or.inr hparams⟩
  obtain ⟨params, mid, hparams⟩ := hparams
  obtain ⟨body, hi, hbody⟩ := hbody mid
  rw [List.append_nil]
  exact ⟨_, hi, .intro hname hleft hparams hright hopening hbody hclosing⟩

theorem Readable.classDeclaration (h : Category.classDeclaration.rule.Holds Category.Text w) :
    Readable DeclarationText w := by
  intro lo
  obtain ⟨_, _, rfl, ⟨word, rfl, hword⟩, _, _, rfl, ⟨name, rfl, hname⟩, v, _, rfl, hv, _, _, rfl,
    ⟨left, rfl, hleft⟩, _, _, rfl, ⟨parts, rfl, hparts⟩, _, _, rfl, ⟨right, rfl, hright⟩, rfl⟩ := h
  have hsuper : ∃ superclass mid, SuperclassText lo v superclass mid := by
    obtain rfl | ⟨_, _, rfl, ⟨less, rfl, hless⟩, _, _, rfl, ⟨parent, rfl, hparent⟩, rfl⟩ := hv
    · exact ⟨none, lo, .none⟩
    · exact ⟨_, lo + 1, .some hless hparent⟩
  obtain ⟨superclass, mid, hsuper⟩ := hsuper
  obtain ⟨methods, hi, hmethods⟩ := Readable.list hparts mid
  exact ⟨_, hi, .classDeclaration hword hname hsuper hleft hmethods hright⟩

theorem Readable.functionDeclaration
    (h : Category.functionDeclaration.rule.Holds Category.Text w) : Readable DeclarationText w := by
  obtain ⟨_, _, rfl, ⟨word, rfl, hword⟩, v, _, rfl, hv, rfl⟩ := h
  intro lo
  obtain ⟨d, hi, hd⟩ := hv lo
  rw [List.append_nil]
  exact ⟨_, hi, .function hword hd⟩

theorem Readable.parameters (h : Category.parameters.rule.Holds Category.Text w) :
    Category.parameters.Text w := by
  obtain ⟨_, _, rfl, hfirst, _, _, rfl, ⟨parts, rfl, hlength, hparts⟩, rfl⟩ := h
  have hname : ∀ w, Phrase.name.Holds Category.Text w → Readable NameText w := by
    rintro w ⟨name, rfl, hname⟩ lo
    exact ⟨name, lo, rfl, hname, rfl⟩
  intro lo
  obtain ⟨params, hi, hparams, hcount⟩ := Readable.commas (hname _ hfirst) hname hparts lo
  rw [List.append_nil]
  exact ⟨params, hi, hparams, by rw [hcount]; exact Nat.succ_le_succ hlength⟩

theorem Readable.expressionStatement
    (h : Category.expressionStatement.rule.Holds Category.Text w) :
    Readable ExpressionStatementText w := by
  obtain ⟨v, _, rfl, hv, _, _, rfl, ⟨stop, rfl, hstop⟩, rfl⟩ := h
  intro lo
  obtain ⟨e, hi, he⟩ := hv lo
  exact ⟨_, hi, .intro he hstop⟩

theorem Readable.block (h : Category.block.rule.Holds Category.Text w) : Category.block.Text w := by
  obtain ⟨_, _, rfl, ⟨left, rfl, hleft⟩, _, _, rfl, ⟨parts, rfl, hparts⟩, _, _, rfl,
    ⟨right, rfl, hright⟩, rfl⟩ := h
  exact ⟨left, _, right, rfl, hleft, hright, Readable.list hparts⟩

theorem Readable.statement (h : Category.statement.rule.Holds Category.Text w) :
    Readable StatementText w := by
  obtain h | h | h | h | h | h | ⟨left, v, right, rfl, hleft, hright, h⟩ := h
  · intro lo
    obtain ⟨s, hi, hs⟩ := h lo
    exact ⟨s, hi, false, .expression hs⟩
  · exact h
  · exact h
  · exact h
  · exact h
  · exact h
  · intro lo
    obtain ⟨body, hi, hbody⟩ := h lo
    exact ⟨_, hi, false, .block hleft hbody hright⟩

theorem Readable.declaration (h : Category.declaration.rule.Holds Category.Text w) :
    Readable DeclarationText w := by
  obtain h | h | ⟨word, v, rfl, hword, h⟩ | h := h
  · exact h
  · exact h
  · intro lo
    obtain ⟨s, hi, hs⟩ := h lo
    exact ⟨s, hi, .variable hword hs⟩
  · intro lo
    obtain ⟨s, hi, dangling, hs⟩ := h lo
    exact ⟨s, hi, .statement hs⟩

end Closure

/-- The texts are closed under the rules. -/
theorem Category.text_of_holds (category : Category) (w : List Token)
    (h : category.rule.Holds Category.Text w) : category.Text w := by
  cases category with
  | program =>
    obtain ⟨parts, rfl, hparts⟩ := h
    exact Readable.list hparts
  | declaration => exact Readable.declaration h
  | classDeclaration => exact Readable.classDeclaration h
  | functionDeclaration => exact Readable.functionDeclaration h
  | function => exact Readable.function h
  | variableDeclaration => exact Readable.variableDeclaration h
  | statement => exact Readable.statement h
  | expressionStatement => exact Readable.expressionStatement h
  | forStatement => exact Readable.forStatement h
  | ifStatement => exact Readable.ifStatement h
  | printStatement => exact Readable.printStatement h
  | returnStatement => exact Readable.returnStatement h
  | whileStatement => exact Readable.whileStatement h
  | block => exact Readable.block h
  | parameters => exact Readable.parameters h
  | expression => exact h
  | assignment => exact Readable.assignment h
  -- The operators of a category are those of its level.
  | disjunction =>
    refine Readable.separated .conjunction (List.suffix_refl OperatorLevel.all) (fun _ h => h) ?_ h
    rintro w ⟨t, rfl, ht⟩
    exact ⟨t, rfl, List.mem_singleton.mpr ht⟩
  | conjunction =>
    refine Readable.separated .equality (List.drop_suffix 1 OperatorLevel.all) (fun _ h => h) ?_ h
    rintro w ⟨t, rfl, ht⟩
    exact ⟨t, rfl, List.mem_singleton.mpr ht⟩
  | equality =>
    refine Readable.separated .comparison (List.drop_suffix 2 OperatorLevel.all) (fun _ h => h) ?_ h
    rintro w (⟨t, rfl, ht⟩ | ⟨t, rfl, ht⟩) <;> exact ⟨t, rfl, by rw [ht]; simp⟩
  | comparison =>
    refine Readable.separated .term (List.drop_suffix 3 OperatorLevel.all) (fun _ h => h) ?_ h
    rintro w (⟨t, rfl, ht⟩ | ⟨t, rfl, ht⟩ | ⟨t, rfl, ht⟩ | ⟨t, rfl, ht⟩) <;>
      exact ⟨t, rfl, by rw [ht]; simp⟩
  | term =>
    refine Readable.separated .factor (List.drop_suffix 4 OperatorLevel.all) (fun _ h => h) ?_ h
    rintro w (⟨t, rfl, ht⟩ | ⟨t, rfl, ht⟩) <;> exact ⟨t, rfl, by rw [ht]; simp⟩
  | factor =>
    refine Readable.separated .unary (List.drop_suffix 5 OperatorLevel.all) ?_ ?_ h
    · intro w hw lo
      obtain ⟨e, hi, he⟩ := hw lo
      exact ⟨e, hi, .tightest he⟩
    · rintro w (⟨t, rfl, ht⟩ | ⟨t, rfl, ht⟩) <;> exact ⟨t, rfl, by rw [ht]; simp⟩
  | unary => exact Readable.unary h
  | call => exact Readable.calls h
  | arguments => exact Readable.arguments h
  | primary => exact Readable.operand h

/-- A program is derived exactly from the texts of programs. -/
theorem derived_program_iff (w : List Token) (lo : Nat) :
    Derived .program w ↔ ∃ program hi, ListText DeclarationText lo w program hi := by
  constructor
  · intro h
    have htext : Category.program.Text w := h.holds Category.text_of_holds
    exact htext lo
  · rintro ⟨program, hi, hprogram⟩
    exact derived_of_holds (holds_many hprogram.derived fun _ _ _ _ h => h)

/-- Tokens are read as a program exactly when those before the end are derived as one; in every other
case there is a fault. -/
theorem program_read_iff_derived (tokens : List Token) (nextId : Nat) :
    match programOfItems (programItems tokens nextId).1 with
    | .ok _ => Derives (.category .program) (tokens.takeWhile (!·.isEnd))
    | .error faults =>
      ¬ Derives (.category .program) (tokens.takeWhile (!·.isEnd)) ∧ faults ≠ [] := by
  cases hread : programOfItems (programItems tokens nextId).1 with
  | ok program => exact (derived_program_iff _ nextId).mpr ⟨program, _, program_text hread⟩
  | error faults =>
    refine ⟨fun hderived => ?_, ?_⟩
    · obtain ⟨program, hi, hprogram⟩ := (derived_program_iff _ nextId).mp hderived
      rw [programItems_of_text hprogram, programOfItems_ok] at hread
      cases hread
    · rintro rfl
      unfold programOfItems at hread
      split at hread
      · cases hread
      · rename_i hfaults
        injection hread with hnone
        exact hfaults hnone

end LoxLang
