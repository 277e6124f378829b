import LoxLang.Proofs.Outline.Bare
import LoxLang.Proofs.Outline.Nodes
import LoxLang.Proofs.Outline.Words

/-!
Reading outlines back. A bracketed text has a `Meaning`, which lists what it can be read as: a word, an
expression, a statement or a function. The meaning of a list is that of its head, applied to the
meanings of the rest, so it is known where each part ends before it is known what the part is. A tree
with the right tokens, with no strings in it and with numbers that are told by their texts, is what its
outline means, but for what outlines leave out (`Expr.sexp_yields`, `Stmt.sexp_yields`).
-/
namespace LoxLang
set_option autoImplicit false

namespace Sexp

/-! ## Meanings -/

/-- What a bracketed text can be read as. -/
structure Meaning where
  word : Option String
  words : Option (List String)
  expr : Option Expr
  stmt : Option Stmt
  function : Option FunctionDeclaration

/-- The expression that a word of some kind is. -/
def exprOfKind (word : String) : TokenKind → Expr
  | .keyword .trueWord => .literal (.bool true)
  | .keyword .falseWord => .literal (.bool false)
  | .keyword .nilWord => .literal .nil
  | .keyword .thisWord => .thisObject (Token.ofText word).referenced
  | _ => .variable (Token.ofText word).referenced

/-- The expression that is a single word; the numbers that can occur are given. -/
def exprOfWord (numbers : List Float) (word : String) : Expr :=
  match numbers.find? (Decimal.listed · == word) with
  | some x => .literal (.number x)
  | none => exprOfKind word (.ofText word)

/-- The expression that is a list with a head. -/
def exprOfNode (head : String) (parts : List Meaning) : Option Expr :=
  match parts with
  | [] => none
  | first :: rest =>
    if head = "call" then do
      return .call (← first.expr) .dropped (← rest.mapM Meaning.expr)
    else
      match rest with
      | [] =>
        if head = "group" then .grouping <$> first.expr
        else if head = "super" then do
          return .superMethod (Token.ofText "super").referenced (.ofText (← first.word))
        else .unary (.ofText head) <$> first.expr
      | [second] =>
        if head = "." then do return .get (← first.expr) (.ofText (← second.word))
        else if head = "=" then
          match first.word, first.expr with
          | some name, _ => .assign (Token.ofText name).referenced <$> second.expr
          | none, some (.get object name) => .set object name <$> second.expr
          | none, _ => none
        else if head = "and" ∨ head = "or" then do
          return .logical (← first.expr) (.ofText head) (← second.expr)
        else do return .binary (← first.expr) (.ofText head) (← second.expr)
      | _ => none

/-- The function whose name, parameters and body are given. -/
def functionOfParts : List Meaning → Option FunctionDeclaration
  | name :: params :: body => do
    return ⟨.ofText (← name.word), (← params.words).map .ofText, ← body.mapM Meaning.stmt⟩
  | _ => none

/-- The function that is a list with a head. -/
def functionOfNode (head : String) (parts : List Meaning) : Option FunctionDeclaration :=
  if head = "fun" then functionOfParts parts else none

/-- The superclass in front of methods. -/
def splitSuperclass : List Meaning → Option Expr × List Meaning
  | less :: parent :: methods =>
    if less.word = some "<" then (parent.expr, methods) else (none, less :: parent :: methods)
  | methods => (none, methods)

/-- The statement that is a list with a head. -/
def stmtOfNode (head : String) (parts : List Meaning) : Option Stmt :=
  match head, parts with
  | ";", [value] => .expression <$> value.expr
  | "print", [value] => .print .dropped <$> value.expr
  | "var", [name] => do return .variable (.ofText (← name.word)) none
  | "var", [name, initializer] => do
    return .variable (.ofText (← name.word)) (some (← initializer.expr))
  | "block", body => .block <$> body.mapM Meaning.stmt
  | "if", [condition, thenBranch] => do
    return .conditional (← condition.expr) (← thenBranch.stmt) none
  | "if-else", [condition, thenBranch, elseBranch] => do
    return .conditional (← condition.expr) (← thenBranch.stmt) (some (← elseBranch.stmt))
  | "while", [condition, body] => do return .loop (← condition.expr) (← body.stmt)
  | "fun", parts => .function <$> functionOfParts parts
  | "return", [] => some (.returnWith .dropped none)
  | "return", [value] => do return .returnWith .dropped (some (← value.expr))
  | "class", name :: rest => do
    let (superclass, methods) := splitSuperclass rest
    return .classDeclaration (.ofText (← name.word)) superclass (← methods.mapM Meaning.function)
  | _, _ => none

namespace Meaning

def ofWord (numbers : List Float) (word : String) : Meaning :=
  ⟨some word, none, some (exprOfWord numbers word), none, none⟩

/-- Reads a list by its head. -/
def atHead {α : Type} (read : String → List Meaning → Option α) : List Meaning → Option α
  | [] => none
  | head :: parts => head.word.bind (read · parts)

def ofParts (parts : List Meaning) : Meaning :=
  ⟨none, parts.mapM word, atHead exprOfNode parts, atHead stmtOfNode parts,
    atHead functionOfNode parts⟩

end Meaning

section Numbers
variable (numbers : List Float)

mutual

def meaning : Sexp → Meaning
  | .atom word => .ofWord numbers word
  | .list items => .ofParts (meaningAll items)

def meaningAll : List Sexp → List Meaning
  | [] => []
  | x :: rest => x.meaning :: meaningAll rest

end

/-- A bracketed text can be told from what is around it, and is read as something. -/
structure Yields {α : Type} (read : Meaning → Option α) (x : Sexp) (a : α) : Prop where
  clean : x.Clean
  meaning : read (x.meaning numbers) = some a

structure YieldsAll {α : Type} (read : Meaning → Option α) (xs : List Sexp) (as : List α) :
    Prop where
  clean : CleanAll xs
  meaning : (meaningAll numbers xs).mapM read = some as

end Numbers

/-! ## Nodes -/

/-- The words that an outline has of itself, and the connectives. -/
def heads : List String :=
  ["group", "call", ".", "=", "super", ";", "print", "var", "block", "if", "if-else", "while", "fun",
    "return", "class", "<", "this", "true", "false", "nil", "and", "or"]

theorem isAtom_of_mem_heads {word : String} (h : word ∈ heads) : IsAtom word := by
  have hall : ∀ word ∈ heads, word.toList ≠ [] ∧ ∀ c ∈ word.toList, isDelimiter c = false := by
    simp [heads, isDelimiter]
  exact ⟨(hall word h).1, (hall word h).2⟩

section Rules
variable {numbers : List Float} {α : Type} {read : Meaning → Option α} {x : Sexp} {xs : List Sexp}
  {a : α} {as : List α}

theorem YieldsAll.nil : YieldsAll numbers read [] [] :=
  ⟨trivial, rfl⟩

theorem YieldsAll.cons (h : Yields numbers read x a) (hs : YieldsAll numbers read xs as) :
    YieldsAll numbers read (x :: xs) (a :: as) := by
  refine ⟨⟨h.clean, hs.clean⟩, ?_⟩
  rw [meaningAll, List.mapM_cons, h.meaning, hs.meaning]
  rfl

theorem Yields.operation {head : String} {e : Expr} (hhead : IsAtom head) (hparts : CleanAll xs)
    (h : exprOfNode head (meaningAll numbers xs) = some e) :
    Yields numbers Meaning.expr (.list (.atom head :: xs)) e :=
  ⟨⟨hhead, hparts⟩, h⟩

theorem Yields.expr {head : String} {e : Expr} (hhead : head ∈ heads) (hparts : CleanAll xs)
    (h : exprOfNode head (meaningAll numbers xs) = some e) :
    Yields numbers Meaning.expr (.list (.atom head :: xs)) e :=
  .operation (isAtom_of_mem_heads hhead) hparts h

theorem Yields.stmt {head : String} {s : Stmt} (hhead : head ∈ heads) (hparts : CleanAll xs)
    (h : stmtOfNode head (meaningAll numbers xs) = some s) :
    Yields numbers Meaning.stmt (.list (.atom head :: xs)) s :=
  ⟨⟨isAtom_of_mem_heads hhead, hparts⟩, h⟩

end Rules

end Sexp

/-! ## Words -/

/-- Finite numbers that are told apart by their texts. -/
structure Decimal.Told (numbers : List Float) : Prop where
  finite : ∀ x ∈ numbers, Decimal.IsFinite x
  unique : ∀ x ∈ numbers, ∀ y ∈ numbers, Decimal.listed x = Decimal.listed y → x = y

namespace Sexp
variable {numbers : List Float}

theorem exprOfWord_number (h : Decimal.Told numbers) {x : Float} (hx : x ∈ numbers) :
    exprOfWord numbers (Decimal.listed x) = .literal (.number x) := by
  have hself : (Decimal.listed x == Decimal.listed x) = true := beq_self_eq_true _
  obtain ⟨y, hy⟩ := Option.isSome_iff_exists.mp
    (List.find?_isSome (p := (Decimal.listed · == Decimal.listed x)).mpr ⟨x, hx, hself⟩)
  have hsame := List.find?_some hy
  rw [exprOfWord, hy, h.unique y (List.mem_of_find?_eq_some hy) x hx (eq_of_beq hsame)]

/-- No number looks like a word that starts as a name. -/
theorem exprOfWord_of_start (h : Decimal.Told numbers) {word : String} {c : Char}
    (hc : word.toList.head? = some c) (hstart : startsName c = true) :
    exprOfWord numbers word = exprOfKind word (.ofText word) := by
  have hnone : numbers.find? (Decimal.listed · == word) = none := by
    refine List.find?_eq_none.mpr fun x hx hsame => ?_
    have htext := Decimal.isNumeralText_listed (h.finite x hx)
    rw [eq_of_beq hsame] at htext
    have hnumeric := htext.numeric c (List.mem_of_mem_head? hc)
    rw [not_numeric_of_startsName hstart] at hnumeric
    cases hnumeric
  rw [exprOfWord, hnone]

theorem exprOfWord_name (h : Decimal.Told numbers) {word : String} (hword : IsNameText word) :
    exprOfWord numbers word = .variable (Token.ofText word).referenced := by
  obtain ⟨c, rest, htext, hc, -⟩ := hword.start
  have hhead : word.toList.head? = some c := by rw [htext]; rfl
  rw [exprOfWord_of_start h hhead hc, hword.kind]
  rfl

theorem exprOfWord_keyword (h : Decimal.Told numbers) (k : Keyword) :
    exprOfWord numbers k.spelling = exprOfKind k.spelling (.keyword k) := by
  obtain ⟨c, hhead, hc⟩ := startsName_of_keyword k
  rw [exprOfWord_of_start h hhead hc, TokenKind.ofText_keyword]

end Sexp

/-! ## Trees -/

/-- A literal that is no string, its value being among some numbers if it is one. -/
def Literal.Among (numbers : List Float) : Literal → Prop
  | .number value => value ∈ numbers
  | .string _ => False
  | _ => True

/-- Tokens with texts of their kinds, each taken for itself, and identities too. -/
def Likeness.texted : Likeness :=
  .same Token.Texted Eq @Likeness.unique_of_eq

open Sexp

section Trees
variable {numbers : List Float}

/-- A reserved word that is a literal. -/
theorem yields_word (hnumbers : Decimal.Told numbers) {k : Keyword} {value : Literal}
    (hk : k.spelling ∈ heads) (hvalue : exprOfKind k.spelling (.keyword k) = .literal value) :
    Yields numbers Meaning.expr (.atom k.spelling) (.literal value) :=
  ⟨isAtom_of_mem_heads hk, congrArg some ((exprOfWord_keyword hnumbers k).trans hvalue)⟩

theorem Literal.yields (hnumbers : Decimal.Told numbers) {value : Literal}
    (h : value.Among numbers) :
    Yields numbers Meaning.expr (.atom value.outline) (.literal value) := by
  cases value with
  | number x =>
    have hx : x ∈ numbers := h
    have htext := (Decimal.isNumeralText_listed (hnumbers.finite x hx)).atom
    exact ⟨htext, congrArg some (exprOfWord_number hnumbers hx)⟩
  | string text => exact h.elim
  | bool value =>
    cases value with
    | true => exact yields_word (k := .trueWord) hnumbers (by decide) rfl
    | false => exact yields_word (k := .falseWord) hnumbers (by decide) rfl
  | nil => exact yields_word (k := .nilWord) hnumbers (by decide) rfl

/-- An identifier is an atom that is read as it. -/
theorem Token.Texted.named {name : Token} (h : name.Texted)
    (hkind : name.kind.same .identifier = true) :
    IsAtom name.lexeme ∧ ofText name.lexeme = name.unlined :=
  have hname := TokenKind.same_identifier hkind
  ⟨(h.name hname).atom, h.ofText_name hname⟩

theorem Token.referenced_unlined (name : Token) : name.unlined.referenced = name.referenced :=
  rfl

/-- A name by itself. -/
theorem yields_name (hnumbers : Decimal.Told numbers) {name : Token} (h : name.Texted)
    (hkind : name.kind.same .identifier = true) :
    Yields numbers Meaning.expr (.atom name.lexeme) (.variable name.referenced) := by
  obtain ⟨hatom, htext⟩ := h.named hkind
  refine ⟨hatom, congrArg some ?_⟩
  rw [exprOfWord_name hnumbers (h.name (TokenKind.same_identifier hkind)), htext,
    Token.referenced_unlined]

theorem yields_get {x : Sexp} {object : Expr} (hx : Yields numbers Meaning.expr x object)
    {name : Token} (h : name.Texted) (hkind : name.kind.same .identifier = true) :
    Yields numbers Meaning.expr (.list [.atom ".", x, .atom name.lexeme])
      (.get object name.unlined) := by
  obtain ⟨hatom, htext⟩ := h.named hkind
  refine .expr (by decide) ⟨hx.clean, hatom, trivial⟩ ?_
  rw [← htext]
  simp [meaningAll, meaning, Meaning.ofWord, exprOfNode, hx.meaning]

/-- The heads of the expressions that are no operations. -/
def otherHeads : List String :=
  ["call", "group", "super", ".", "=", "and", "or"]

/-- The text of an operator is an atom and the head of nothing else. -/
theorem Symbol.operator_text {s : Symbol} (h : s ∈ .bang :: Symbol.binary) :
    IsAtom s.text ∧ s.text ∉ otherHeads := by
  simp only [Symbol.binary, List.mem_cons, List.not_mem_nil, or_false] at h
  rcases h with rfl | rfl | rfl | rfl | rfl | rfl | rfl | rfl | rfl | rfl | rfl <;>
    exact ⟨⟨by simp [Symbol.text], by simp [Symbol.text, isDelimiter]⟩,
      by simp [Symbol.text, otherHeads]⟩

theorem Token.Texted.operator {t : Token} (h : t.Texted) {s : Symbol}
    (hs : s ∈ .bang :: Symbol.binary) (hkind : t.isSymbol s = true) :
    IsAtom t.lexeme ∧ t.lexeme ∉ otherHeads ∧ ofText t.lexeme = t.unlined := by
  have hkind := (Token.isSymbol_iff t s).mp hkind
  obtain ⟨hatom, hother⟩ := s.operator_text hs
  rw [← h.symbol s hkind] at hatom hother
  exact ⟨hatom, hother, h.ofText_symbol hkind⟩

theorem exprOfNode_unary {operator : String} {m : Meaning} {e : Expr} (h : operator ∉ otherHeads)
    (he : m.expr = some e) : exprOfNode operator [m] = some (.unary (.ofText operator) e) := by
  simp only [otherHeads, List.mem_cons, List.not_mem_nil, or_false, not_or] at h
  simp [exprOfNode, h, he]

theorem exprOfNode_binary {operator : String} {m n : Meaning} {e f : Expr}
    (h : operator ∉ otherHeads) (he : m.expr = some e) (hf : n.expr = some f) :
    exprOfNode operator [m, n] = some (.binary e (.ofText operator) f) := by
  simp only [otherHeads, List.mem_cons, List.not_mem_nil, or_false, not_or] at h
  simp [exprOfNode, h, he, hf]

/-- The reserved word that is written in a node. -/
theorem Token.Texted.reserved {t : Token} (h : t.Texted) {k : Keyword}
    (hkind : t.isKeyword k = true) : t.lexeme = k.spelling ∧ ofText k.spelling = t.unlined := by
  have hkind := (Token.isKeyword_iff t k).mp hkind
  have htext := h.keyword k hkind
  exact ⟨htext, htext ▸ h.ofText_keyword hkind⟩

theorem exprOfNode_logical {operator : String} {m n : Meaning} {e f : Expr}
    (h : operator = "and" ∨ operator = "or") (he : m.expr = some e) (hf : n.expr = some f) :
    exprOfNode operator [m, n] = some (.logical e (.ofText operator) f) := by
  rcases h with rfl | rfl <;> simp [exprOfNode, he, hf]

/-- The text of a connective. -/
theorem Token.Texted.connective {t : Token} (h : t.Texted)
    (hkind : t.isKeyword .orWord = true ∨ t.isKeyword .andWord = true) :
    (t.lexeme = "and" ∨ t.lexeme = "or") ∧ ofText t.lexeme = t.unlined := by
  rcases hkind with hkind | hkind
  · obtain ⟨hlexeme, htext⟩ := h.reserved hkind
    exact ⟨.inr hlexeme, hlexeme ▸ htext⟩
  · obtain ⟨hlexeme, htext⟩ := h.reserved hkind
    exact ⟨.inl hlexeme, hlexeme ▸ htext⟩

mutual

/-- What outlines leave out aside, an expression is read back from its outline. -/
theorem Expr.sexp_yields (hnumbers : Decimal.Told numbers) (e : Expr)
    (hwell : e.WellFormed fun _ => True) (htexts : e.Alike .texted e)
    (hliterals : ∀ value ∈ e.literals, value.Among numbers) :
    Yields numbers Meaning.expr e.sexp e.bare := by
  cases e with
  | literal value => exact value.yields hnumbers (hliterals value List.mem_cons_self)
  | unary operator operand =>
    cases htexts with
    | unary hoperator hoperand =>
      have he := operand.sexp_yields hnumbers hwell.2 hoperand hliterals
      have hsymbol : ∃ s ∈ .bang :: Symbol.binary, operator.isSymbol s = true := by
        rcases hwell.1 with h | h
        · exact ⟨.bang, by decide, h⟩
        · exact ⟨.minus, by decide, h⟩
      obtain ⟨s, hs, hkind⟩ := hsymbol
      obtain ⟨hatom, hother, htext⟩ := hoperator.1.operator hs hkind
      refine .operation hatom ⟨he.clean, trivial⟩ ?_
      rw [meaningAll, meaningAll, exprOfNode_unary hother he.meaning, htext, Expr.bare]
  | binary left operator right =>
    cases htexts with
    | binary hleft hoperator hright =>
      obtain ⟨hsleft, hsright⟩ := List.forall_mem_append.mp hliterals
      have hl := left.sexp_yields hnumbers hwell.2.1 hleft hsleft
      have hr := right.sexp_yields hnumbers hwell.2.2 hright hsright
      obtain ⟨s, hs, hkind⟩ := hwell.1
      obtain ⟨hatom, hother, htext⟩ := hoperator.1.operator (List.mem_cons_of_mem _ hs) hkind
      refine .operation hatom ⟨hl.clean, hr.clean, trivial⟩ ?_
      rw [meaningAll, meaningAll, meaningAll, exprOfNode_binary hother hl.meaning hr.meaning, htext,
        Expr.bare]
  | logical left operator right =>
    cases htexts with
    | logical hleft hoperator hright =>
      obtain ⟨hsleft, hsright⟩ := List.forall_mem_append.mp hliterals
      have hl := left.sexp_yields hnumbers hwell.2.1 hleft hsleft
      have hr := right.sexp_yields hnumbers hwell.2.2 hright hsright
      obtain ⟨hlexeme, htext⟩ := hoperator.1.connective hwell.1
      have hatom : IsAtom operator.lexeme := by
        rcases hlexeme with h | h <;> rw [h] <;> exact isAtom_of_mem_heads (by decide)
      refine .operation hatom ⟨hl.clean, hr.clean, trivial⟩ ?_
      rw [meaningAll, meaningAll, meaningAll, exprOfNode_logical hlexeme hl.meaning hr.meaning, htext,
        Expr.bare]
  | grouping inner =>
    cases htexts with
    | grouping hinner =>
      have he := inner.sexp_yields hnumbers hwell hinner hliterals
      refine .expr (by decide) ⟨he.clean, trivial⟩ ?_
      simp [meaningAll, exprOfNode, he.meaning, Expr.bare]
  | «variable» target =>
    cases htexts with
    | «variable» htarget =>
      exact yields_name hnumbers htarget.name.1 hwell.2
  | assign target value =>
    cases htexts with
    | assign htarget hvalue =>
      obtain ⟨hatom, htext⟩ := htarget.name.1.named hwell.1.2
      have he := value.sexp_yields hnumbers hwell.2 hvalue hliterals
      refine .expr (by decide) ⟨hatom, he.clean, trivial⟩ ?_
      simp [meaningAll, meaning, Meaning.ofWord, exprOfNode, he.meaning, htext, Expr.bare,
        Token.referenced_unlined]
  | call callee paren arguments =>
    cases htexts with
    | call hcallee hparen harguments =>
      obtain ⟨hscallee, hsarguments⟩ := List.forall_mem_append.mp hliterals
      have hc := callee.sexp_yields hnumbers hwell.1 hcallee hscallee
      have ha := Expr.sexpAll_yields hnumbers arguments hwell.2 harguments hsarguments
      refine .expr (by decide) ⟨hc.clean, ha.clean⟩ ?_
      simp [meaningAll, exprOfNode, hc.meaning, ha.meaning, Expr.bare]
  | get object name =>
    cases htexts with
    | get hobject hname =>
      exact yields_get (object.sexp_yields hnumbers hwell.1 hobject hliterals) hname.1 hwell.2.2
  | set object name value =>
    cases htexts with
    | set hobject hname hvalue =>
      obtain ⟨hsobject, hsvalue⟩ := List.forall_mem_append.mp hliterals
      have ho := object.sexp_yields hnumbers hwell.1 hobject hsobject
      have hg := yields_get ho hname.1 hwell.2.1.2
      have he := value.sexp_yields hnumbers hwell.2.2 hvalue hsvalue
      refine .expr (by decide) ⟨hg.clean, he.clean, trivial⟩ ?_
      have hword : ∀ xs, ((Sexp.list xs).meaning numbers).word = none := fun _ => rfl
      simp [meaningAll, exprOfNode, hword, hg.meaning, he.meaning, Expr.bare]
  | thisObject keyword =>
    cases htexts with
    | thisObject hkeyword =>
      obtain ⟨-, htext⟩ := hkeyword.name.1.reserved hwell.2
      refine ⟨isAtom_of_mem_heads (by decide), congrArg some ?_⟩
      rw [Expr.bare, ← Token.referenced_unlined, ← htext]
      exact exprOfWord_keyword hnumbers .thisWord
  | superMethod keyword method =>
    cases htexts with
    | superMethod hkeyword hmethod =>
      obtain ⟨-, hsuper⟩ := hkeyword.name.1.reserved hwell.1.2
      obtain ⟨hatom, htext⟩ := hmethod.1.named hwell.2.2
      refine .expr (by decide) ⟨hatom, trivial⟩ ?_
      rw [Expr.bare, ← Token.referenced_unlined keyword.name, ← hsuper, ← htext]
      rfl

theorem Expr.sexpAll_yields (hnumbers : Decimal.Told numbers) (es : List Expr)
    (hwell : Expr.AllWellFormed (fun _ => True) es)
    (htexts : List.Forall₂ (Expr.Alike .texted) es es)
    (hliterals : ∀ value ∈ Expr.literalsAll es, value.Among numbers) :
    YieldsAll numbers Meaning.expr (Expr.sexpAll es) (Expr.bareAll es) := by
  cases es with
  | nil => exact .nil
  | cons e rest =>
    cases htexts with
    | cons he hrest =>
      obtain ⟨hs, hsrest⟩ := List.forall_mem_append.mp hliterals
      exact .cons (e.sexp_yields hnumbers hwell.1 he hs)
        (Expr.sexpAll_yields hnumbers rest hwell.2 hrest hsrest)

end

/-! ## Statements -/

theorem words_atoms (params : List Token) :
    ((Sexp.list (Token.atoms params)).meaning numbers).words = some (params.map Token.lexeme) := by
  change (meaningAll numbers (Token.atoms params)).mapM Meaning.word = _
  induction params with
  | nil => rfl
  | cons param rest ih =>
    change (meaningAll numbers (.atom param.lexeme :: Token.atoms rest)).mapM Meaning.word = _
    rw [meaningAll, List.mapM_cons, ih]
    rfl

/-- Parameters are read back from their texts. -/
theorem params_named {params : List Token} (hwell : ∀ param ∈ params, param.IsName fun _ => True)
    (htexts : List.Forall₂ Likeness.texted.token params params) :
    CleanAll (Token.atoms params) ∧
      (params.map Token.lexeme).map Token.ofText = params.map Token.unlined := by
  induction params with
  | nil => exact ⟨trivial, rfl⟩
  | cons param rest ih =>
    obtain ⟨hfirst, hwell⟩ := List.forall_mem_cons.mp hwell
    cases htexts with
    | cons hparam hrest =>
      obtain ⟨hatom, htext⟩ := hparam.1.named hfirst.2
      obtain ⟨hclean, hmap⟩ := ih hwell hrest
      refine ⟨⟨hatom, hclean⟩, ?_⟩
      rw [List.map_cons, List.map_cons, List.map_cons, htext, hmap]

/-- A declared function is a statement. -/
theorem yields_function {d : FunctionDeclaration} {e : FunctionDeclaration}
    (h : Yields numbers Meaning.function d.sexp e) :
    Yields numbers Meaning.stmt d.sexp (.function e) := by
  obtain ⟨name, params, body⟩ := d
  refine ⟨h.clean, ?_⟩
  have hmeaning := h.meaning
  change functionOfNode "fun" (meaningAll numbers (.atom name.lexeme :: .list (Token.atoms params) ::
    Stmt.sexpAll body)) = some e at hmeaning
  rw [functionOfNode, if_pos rfl] at hmeaning
  change Stmt.function <$> functionOfParts (meaningAll numbers (.atom name.lexeme ::
    .list (Token.atoms params) :: Stmt.sexpAll body)) = _
  rw [hmeaning]
  rfl

/-- Methods are lists, so none is taken for the sign in front of a superclass. -/
theorem splitSuperclass_methods (methods : List FunctionDeclaration) :
    splitSuperclass (meaningAll numbers (FunctionDeclaration.sexpAll methods)) =
      (none, meaningAll numbers (FunctionDeclaration.sexpAll methods)) := by
  cases methods with
  | nil => rfl
  | cons d rest =>
    obtain ⟨name, params, body⟩ := d
    cases rest with
    | nil => rfl
    | cons d rest => rfl

theorem Expr.sexp_yields_option (hnumbers : Decimal.Told numbers) {e : Expr}
    (hwell : Expr.OptionWellFormed (fun _ => True) (some e))
    (htexts : Option.Rel (Expr.Alike .texted) (some e) (some e))
    (hliterals : ∀ value ∈ Expr.literalsOption (some e), value.Among numbers) :
    Yields numbers Meaning.expr e.sexp e.bare := by
  cases htexts with
  | some he => exact e.sexp_yields hnumbers hwell he hliterals

mutual

/-- What outlines leave out aside, a statement is read back from its outline. -/
theorem Stmt.sexp_yields (hnumbers : Decimal.Told numbers) (s : Stmt)
    (hwell : s.WellFormed fun _ => True) (htexts : s.Alike .texted s)
    (hliterals : ∀ value ∈ s.literals, value.Among numbers) :
    Yields numbers Meaning.stmt s.sexp s.bare := by
  cases s with
  | expression value =>
    cases htexts with
    | expression hvalue =>
      have he := value.sexp_yields hnumbers hwell hvalue hliterals
      refine .stmt (by decide) ⟨he.clean, trivial⟩ ?_
      simp [meaningAll, stmtOfNode, he.meaning, Stmt.bare]
  | print keyword value =>
    cases htexts with
    | print hkeyword hvalue =>
      have he := value.sexp_yields hnumbers hwell hvalue hliterals
      refine .stmt (by decide) ⟨he.clean, trivial⟩ ?_
      simp [meaningAll, stmtOfNode, he.meaning, Stmt.bare]
  | «variable» name initializer =>
    cases htexts with
    | «variable» hname hinitializer =>
      obtain ⟨hatom, htext⟩ := hname.1.named hwell.1.2
      cases initializer with
      | none =>
        refine .stmt (by decide) ⟨hatom, trivial⟩ ?_
        simp [meaningAll, meaning, Meaning.ofWord, stmtOfNode, htext, Stmt.bare]
      | some e =>
        have he := Expr.sexp_yields_option hnumbers hwell.2 hinitializer hliterals
        refine .stmt (by decide) ⟨hatom, he.clean, trivial⟩ ?_
        simp [meaningAll, meaning, Meaning.ofWord, stmtOfNode, htext, he.meaning, Stmt.bare]
  | block body =>
    cases htexts with
    | block hbody =>
      have hs := Stmt.sexpAll_yields hnumbers body hwell hbody hliterals
      refine .stmt (by decide) hs.clean ?_
      simp [stmtOfNode, hs.meaning, Stmt.bare]
  | conditional condition thenBranch elseBranch =>
    cases htexts with
    | conditional hcondition hthen helse =>
      cases elseBranch with
      | none =>
        obtain ⟨hscondition, hsthen⟩ := List.forall_mem_append.mp hliterals
        have hc := condition.sexp_yields hnumbers hwell.1 hcondition hscondition
        have ht := thenBranch.sexp_yields hnumbers hwell.2.2 hthen hsthen
        refine .stmt (by decide) ⟨hc.clean, ht.clean, trivial⟩ ?_
        simp [meaningAll, stmtOfNode, hc.meaning, ht.meaning, Stmt.bare]
      | some elseBranch =>
        cases helse with
        | some helse =>
          obtain ⟨hscondition, hsbranches⟩ := List.forall_mem_append.mp hliterals
          obtain ⟨hsthen, hselse⟩ := List.forall_mem_append.mp hsbranches
          have hc := condition.sexp_yields hnumbers hwell.1 hcondition hscondition
          have ht := thenBranch.sexp_yields hnumbers hwell.2.1.2 hthen hsthen
          have he := elseBranch.sexp_yields hnumbers hwell.2.2.2 helse hselse
          refine .stmt (by decide) ⟨hc.clean, ht.clean, he.clean, trivial⟩ ?_
          simp [meaningAll, stmtOfNode, hc.meaning, ht.meaning, he.meaning, Stmt.bare]
  | loop condition body =>
    cases htexts with
    | loop hcondition hbody =>
      obtain ⟨hscondition, hsbody⟩ := List.forall_mem_append.mp hliterals
      have hc := condition.sexp_yields hnumbers hwell.1 hcondition hscondition
      have hb := body.sexp_yields hnumbers hwell.2.2 hbody hsbody
      refine .stmt (by decide) ⟨hc.clean, hb.clean, trivial⟩ ?_
      simp [meaningAll, stmtOfNode, hc.meaning, hb.meaning, Stmt.bare]
  | function declaration =>
    cases htexts with
    | function hdeclaration =>
      exact yields_function (declaration.sexp_yields hnumbers hwell hdeclaration hliterals)
  | returnWith keyword value =>
    cases htexts with
    | returnWith hkeyword hvalue =>
      cases value with
      | none => exact .stmt (by decide) trivial rfl
      | some e =>
        have he := Expr.sexp_yields_option hnumbers hwell hvalue hliterals
        refine .stmt (by decide) ⟨he.clean, trivial⟩ ?_
        simp [meaningAll, stmtOfNode, he.meaning, Stmt.bare]
  | classDeclaration name superclass methods =>
    cases htexts with
    | classDeclaration hname hsuperclass hmethods =>
      obtain ⟨hatom, htext⟩ := hname.1.named hwell.1.2
      obtain ⟨hsparent, hsmethods⟩ := List.forall_mem_append.mp hliterals
      have hm := FunctionDeclaration.sexpAll_yields hnumbers methods hwell.2.2 hmethods hsmethods
      cases superclass with
      | none =>
        refine .stmt (by decide) ⟨hatom, hm.clean⟩ ?_
        simp [meaningAll, meaning, Meaning.ofWord, stmtOfNode, splitSuperclass_methods, htext,
          hm.meaning, Stmt.bare]
      | some parent =>
        have hp := Expr.sexp_yields_option hnumbers (hwell.2.1 parent rfl).wellFormed hsuperclass
          hsparent
        refine .stmt (by decide) ⟨hatom, isAtom_of_mem_heads (by decide), hp.clean, hm.clean⟩ ?_
        simp [meaningAll, meaning, Meaning.ofWord, stmtOfNode, splitSuperclass, htext, hp.meaning,
          hm.meaning, Stmt.bare]

theorem Stmt.sexpAll_yields (hnumbers : Decimal.Told numbers) (body : List Stmt)
    (hwell : Stmt.AllWellFormed (fun _ => True) body)
    (htexts : List.Forall₂ (Stmt.Alike .texted) body body)
    (hliterals : ∀ value ∈ Stmt.literalsAll body, value.Among numbers) :
    YieldsAll numbers Meaning.stmt (Stmt.sexpAll body) (Stmt.bareAll body) := by
  cases body with
  | nil => exact .nil
  | cons s rest =>
    cases htexts with
    | cons hs hrest =>
      obtain ⟨hsfirst, hsrest⟩ := List.forall_mem_append.mp hliterals
      exact .cons (s.sexp_yields hnumbers hwell.1 hs hsfirst)
        (Stmt.sexpAll_yields hnumbers rest hwell.2 hrest hsrest)

theorem FunctionDeclaration.sexp_yields (hnumbers : Decimal.Told numbers) (d : FunctionDeclaration)
    (hwell : d.WellFormed fun _ => True) (htexts : d.Alike .texted d)
    (hliterals : ∀ value ∈ d.literals, value.Among numbers) :
    Yields numbers Meaning.function d.sexp d.bare := by
  cases d with
  | mk name params body =>
    cases htexts with
    | intro hname hparams hbody =>
      obtain ⟨hatom, htext⟩ := hname.1.named hwell.1.2
      obtain ⟨hclean, hmap⟩ := params_named hwell.2.1 hparams
      have hs := Stmt.sexpAll_yields hnumbers body hwell.2.2 hbody hliterals
      refine ⟨⟨isAtom_of_mem_heads (by decide), hatom, hclean, hs.clean⟩, ?_⟩
      change functionOfParts (.ofWord numbers name.lexeme ::
        (Sexp.list (Token.atoms params)).meaning numbers ::
          meaningAll numbers (Stmt.sexpAll body)) = _
      simp [functionOfParts, Meaning.ofWord, words_atoms, htext, ← hmap, hs.meaning,
        FunctionDeclaration.bare]

theorem FunctionDeclaration.sexpAll_yields (hnumbers : Decimal.Told numbers)
    (ds : List FunctionDeclaration)
    (hwell : FunctionDeclaration.AllWellFormed (fun _ => True) ds)
    (htexts : List.Forall₂ (FunctionDeclaration.Alike .texted) ds ds)
    (hliterals : ∀ value ∈ FunctionDeclaration.literalsAll ds, value.Among numbers) :
    YieldsAll numbers Meaning.function (FunctionDeclaration.sexpAll ds)
      (FunctionDeclaration.bareAll ds) := by
  cases ds with
  | nil => exact .nil
  | cons d rest =>
    cases htexts with
    | cons hd hrest =>
      obtain ⟨hsfirst, hsrest⟩ := List.forall_mem_append.mp hliterals
      exact .cons (d.sexp_yields hnumbers hwell.1 hd hsfirst)
        (FunctionDeclaration.sexpAll_yields hnumbers rest hwell.2 hrest hsrest)

end

end Trees

end LoxLang
