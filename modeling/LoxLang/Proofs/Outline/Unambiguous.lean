import LoxLang.Proofs.Alike.Reading
import LoxLang.Proofs.Outline.Inverse
import LoxLang.Proofs.Syntax.Arity

/-!
Outlines are unambiguous. What is read of a scanned source has tokens of the right kinds, which have the
texts of their kinds, and so has all that is inside it (`Stmt.OfSource.legible`,
`Expr.OfSource.legible`). Where it holds no strings, and its numbers are finite and have different texts,
two such trees have one outline just when they are the same but for what outlines leave out
(`outline_eq_iff_bare_eq`).
-/
namespace LoxLang
set_option autoImplicit false

/-! ## Legible trees -/

/-- The tokens of an expression are of the right kinds, and have the texts of their kinds. -/
structure Expr.Legible (e : Expr) : Prop where
  wellFormed : e.WellFormed fun _ => True
  texted : e.Alike .texted e

/-- The tokens of a statement are of the right kinds, and have the texts of their kinds. -/
structure Stmt.Legible (s : Stmt) : Prop where
  wellFormed : s.WellFormed fun _ => True
  texted : s.Alike .texted s

section Inside
variable {L : Likeness}

theorem Expr.Alike.children {e : Expr} (h : e.Alike L e) : ∀ x ∈ e.children, x.Alike L x := by
  cases h with
  | unary _ hoperand => exact List.forall_mem_singleton.mpr hoperand
  | binary hleft _ hright =>
    exact List.forall_mem_cons.mpr ⟨hleft, List.forall_mem_singleton.mpr hright⟩
  | logical hleft _ hright =>
    exact List.forall_mem_cons.mpr ⟨hleft, List.forall_mem_singleton.mpr hright⟩
  | grouping hinner => exact List.forall_mem_singleton.mpr hinner
  | assign _ hvalue => exact List.forall_mem_singleton.mpr hvalue
  | call hcallee _ harguments =>
    exact List.forall_mem_cons.mpr ⟨hcallee, List.forall₂_same.mp harguments⟩
  | get hobject _ => exact List.forall_mem_singleton.mpr hobject
  | set hobject _ hvalue =>
    exact List.forall_mem_cons.mpr ⟨hobject, List.forall_mem_singleton.mpr hvalue⟩
  | _ => exact List.forall_mem_nil _

theorem FunctionDeclaration.Alike.body {d : FunctionDeclaration} (h : d.Alike L d) :
    ∀ s ∈ d.body, s.Alike L s := by
  cases h with
  | intro _ _ hbody => exact List.forall₂_same.mp hbody

theorem Stmt.Alike.children {s : Stmt} (h : s.Alike L s) : ∀ t ∈ s.children, t.Alike L t := by
  cases h with
  | block hbody => exact List.forall₂_same.mp hbody
  | conditional _ hthen helse =>
    cases helse with
    | none => exact List.forall_mem_singleton.mpr hthen
    | some helse => exact List.forall_mem_cons.mpr ⟨hthen, List.forall_mem_singleton.mpr helse⟩
  | loop _ hbody => exact List.forall_mem_singleton.mpr hbody
  | function hdeclaration => exact hdeclaration.body
  | classDeclaration _ _ hmethods =>
    intro t ht
    obtain ⟨d, hd, ht⟩ := List.mem_flatMap.mp ht
    exact (List.forall₂_same.mp hmethods d hd).body t ht
  | _ => exact List.forall_mem_nil _

theorem Stmt.Alike.expressions {s : Stmt} (h : s.Alike L s) :
    ∀ e ∈ s.expressions, e.Alike L e := by
  have hoption : ∀ e : Option Expr, Option.Rel (Expr.Alike L) e e →
      ∀ x ∈ e.toList, x.Alike L x := by
    intro e he
    cases he with
    | none => exact List.forall_mem_nil _
    | some he => exact List.forall_mem_singleton.mpr he
  cases h with
  | expression hvalue => exact List.forall_mem_singleton.mpr hvalue
  | print _ hvalue => exact List.forall_mem_singleton.mpr hvalue
  | «variable» _ hinitializer => exact hoption _ hinitializer
  | conditional hcondition _ _ => exact List.forall_mem_singleton.mpr hcondition
  | loop hcondition _ => exact List.forall_mem_singleton.mpr hcondition
  | returnWith _ hvalue => exact hoption _ hvalue
  | classDeclaration _ hsuperclass _ => exact hoption _ hsuperclass
  | _ => exact List.forall_mem_nil _

variable {admits : Token → Prop}

theorem Expr.wellFormed_of_mem {e : Expr} {es : List Expr} (h : Expr.AllWellFormed admits es)
    (he : e ∈ es) : e.WellFormed admits := by
  induction he with
  | head => exact h.1
  | tail _ _ ih => exact ih h.2

theorem Expr.wellFormed_of_mem_children {e : Expr} (h : e.WellFormed admits) :
    ∀ x ∈ e.children, x.WellFormed admits := by
  cases e with
  | unary operator operand => exact List.forall_mem_singleton.mpr h.2
  | binary left operator right =>
    exact List.forall_mem_cons.mpr ⟨h.2.1, List.forall_mem_singleton.mpr h.2.2⟩
  | logical left operator right =>
    exact List.forall_mem_cons.mpr ⟨h.2.1, List.forall_mem_singleton.mpr h.2.2⟩
  | grouping inner => exact List.forall_mem_singleton.mpr h
  | assign target value => exact List.forall_mem_singleton.mpr h.2
  | call callee paren arguments =>
    exact List.forall_mem_cons.mpr ⟨h.1, fun x => Expr.wellFormed_of_mem h.2⟩
  | get object name => exact List.forall_mem_singleton.mpr h.1
  | set object name value =>
    exact List.forall_mem_cons.mpr ⟨h.1, List.forall_mem_singleton.mpr h.2.2⟩
  | _ => exact List.forall_mem_nil _

theorem Stmt.wellFormed_of_mem_expressions {s : Stmt} (h : s.WellFormed admits) :
    ∀ e ∈ s.expressions, e.WellFormed admits := by
  have hoption : ∀ e : Option Expr, Expr.OptionWellFormed admits e →
      ∀ x ∈ e.toList, x.WellFormed admits := by
    intro e he
    cases e with
    | none => exact List.forall_mem_nil _
    | some e => exact List.forall_mem_singleton.mpr he
  cases s with
  | expression value => exact List.forall_mem_singleton.mpr h
  | print keyword value => exact List.forall_mem_singleton.mpr h
  | «variable» name initializer => exact hoption initializer h.2
  | conditional condition thenBranch elseBranch =>
    cases elseBranch <;> exact List.forall_mem_singleton.mpr h.1
  | loop condition body => exact List.forall_mem_singleton.mpr h.1
  | returnWith keyword value => exact hoption value h
  | classDeclaration name superclass methods =>
    exact hoption superclass (Expr.optionWellFormed_of_isVariable h.2.1)
  | _ => exact List.forall_mem_nil _

end Inside

theorem Expr.Legible.parts {e : Expr} (h : e.Legible) : ∀ x ∈ e.parts, x.Legible :=
  e.forall_mem_parts (fun _ he x hx => ⟨Expr.wellFormed_of_mem_children he.wellFormed x hx,
    he.texted.children x hx⟩) h

theorem Stmt.Legible.parts {s : Stmt} (h : s.Legible) : ∀ t ∈ s.parts, t.Legible :=
  s.forall_mem_parts (fun s hs t ht => ⟨s.wellFormed_of_mem_children hs.wellFormed t ht,
    hs.texted.children t ht⟩) h

theorem Stmt.Legible.expressions {s : Stmt} (h : s.Legible) : ∀ e ∈ s.expressions, e.Legible :=
  fun e he => ⟨Stmt.wellFormed_of_mem_expressions h.wellFormed e he,
    h.texted.expressions e he⟩

/-! ## Trees of sources -/

/-- A statement stands in what some source is read as, next to faults or not. -/
def Stmt.OfSource (s : Stmt) : Prop :=
  ∃ (source : List UInt8) (nextId : Nat) (root : Stmt),
    .ok root ∈ (programItems (tokenize source).1 nextId).1 ∧ s ∈ root.parts

/-- An expression stands in what some source is read as, be it by itself or in a statement. -/
def Expr.OfSource (e : Expr) : Prop :=
  ∃ root : Expr, e ∈ root.parts ∧
    ((∃ (source : List UInt8) (nextId : Nat),
        (expressionOfTokens (tokenize source).1 nextId).1 = .ok root) ∨
      ∃ s : Stmt, s.OfSource ∧ root ∈ s.expressions)

section Sources
variable (source : List UInt8) (nextId : Nat)

theorem texted_tokens :
    List.Forall₂ Likeness.texted.token (tokenize source).1 (tokenize source).1 :=
  List.forall₂_same.mpr fun _ ht => ⟨Token.Scanned.texted ⟨source, ht⟩, rfl⟩

theorem texted_end :
    Likeness.texted.token (.endOn (Cursor.start (tokenize source).1 nextId).endLine)
      (.endOn (Cursor.start (tokenize source).1 nextId).endLine) :=
  ⟨Token.texted_endOn _, rfl⟩

variable {source nextId}

theorem legible_of_programItems {s : Stmt}
    (hs : .ok s ∈ (programItems (tokenize source).1 nextId).1) : s.Legible := by
  refine ⟨programItems_wellFormed (fun _ _ => trivial) hs, ?_⟩
  have hitems := (programItems_alike (texted_tokens source) (texted_end source nextId)
    fun _ => rfl).1
  cases List.forall₂_same.mp hitems (.ok s) hs with
  | ok h => exact h

theorem legible_of_expressionOfTokens {e : Expr}
    (he : (expressionOfTokens (tokenize source).1 nextId).1 = .ok e) : e.Legible := by
  refine ⟨expressionOfTokens_wellFormed (fun _ _ => trivial) he, ?_⟩
  have hstart : Cursor.Alike .texted (.start (tokenize source).1 nextId) (.start _ nextId) :=
    Cursor.start_alike (texted_tokens source) (texted_end source nextId) fun _ => rfl
  have hread := Reading.wholeExpression_alike (depthBound (tokenize source).1) _ _ hstart
  unfold expressionOfTokens at he
  cases hr : Reading.wholeExpression (depthBound (tokenize source).1)
      (.start (tokenize source).1 nextId) with
  | ok e' place =>
    rw [hr] at hread he
    cases he
    cases hread with
    | ok h _ => exact h
  | error stop place =>
    rw [hr] at he
    cases he

end Sources

theorem Stmt.OfSource.legible {s : Stmt} (h : s.OfSource) : s.Legible := by
  obtain ⟨source, nextId, root, hroot, hs⟩ := h
  exact (legible_of_programItems hroot).parts s hs

theorem Expr.OfSource.legible {e : Expr} (h : e.OfSource) : e.Legible := by
  obtain ⟨root, he, ⟨source, nextId, hroot⟩ | ⟨s, hs, hroot⟩⟩ := h
  · exact (legible_of_expressionOfTokens hroot).parts e he
  · exact (hs.legible.expressions root hroot).parts e he

/-! ## Literals told by their texts -/

/-- A literal that is no string, and finite if it is a number. -/
def Literal.Plain : Literal → Prop
  | .number value => Decimal.IsFinite value
  | .string _ => False
  | _ => True

def Literal.number? : Literal → Option Float
  | .number value => some value
  | _ => none

/-- No strings, and finite numbers whose texts determine them. -/
structure Literal.Told (literals : List Literal) : Prop where
  plain : ∀ value ∈ literals, value.Plain
  unique : ∀ x y, .number x ∈ literals → .number y ∈ literals →
    Decimal.listed x = Decimal.listed y → x = y

section Literals
variable {literals : List Literal}

theorem Literal.mem_numbers {x : Float} :
    x ∈ literals.filterMap Literal.number? ↔ .number x ∈ literals := by
  refine ⟨fun h => ?_, fun h => List.mem_filterMap.mpr ⟨.number x, h, rfl⟩⟩
  obtain ⟨value, hmem, hvalue⟩ := List.mem_filterMap.mp h
  cases value with
  | number y =>
    cases hvalue
    exact hmem
  | _ => cases hvalue

theorem Literal.told_iff : Literal.Told literals ↔ (∀ value ∈ literals, value.Plain) ∧
    Decimal.Told (literals.filterMap Literal.number?) := by
  refine ⟨fun h => ⟨h.plain, fun x hx => ?_, fun x hx y hy => ?_⟩,
    fun ⟨hplain, hnumbers⟩ => ⟨hplain, fun x y hx hy => ?_⟩⟩
  · exact h.plain (.number x) (Literal.mem_numbers.mp hx)
  · exact h.unique x y (Literal.mem_numbers.mp hx) (Literal.mem_numbers.mp hy)
  · exact hnumbers.unique x (Literal.mem_numbers.mpr hx) y (Literal.mem_numbers.mpr hy)

theorem Literal.Told.numbers (h : Literal.Told literals) :
    Decimal.Told (literals.filterMap Literal.number?) :=
  (Literal.told_iff.mp h).2

theorem Literal.Told.among (h : Literal.Told literals) {value : Literal} (hvalue : value ∈ literals) :
    value.Among (literals.filterMap Literal.number?) := by
  have hplain := h.plain value hvalue
  cases value with
  | number x => exact Literal.mem_numbers.mpr hvalue
  | string text => exact hplain.elim
  | _ => trivial

end Literals

instance : DecidablePred Decimal.IsFinite := fun x =>
  match h : Decimal.Binary.ofBits x.toBits with
  | .finite negative magnitude => isTrue ⟨negative, magnitude, h⟩
  | .infinite _ => isFalse fun ⟨_, _, hfinite⟩ => by cases h.symm.trans hfinite
  | .notANumber => isFalse fun ⟨_, _, hfinite⟩ => by cases h.symm.trans hfinite

instance : DecidablePred Literal.Plain
  | .number value => inferInstanceAs (Decidable (Decimal.IsFinite value))
  | .string _ => instDecidableFalse
  | .bool _ => instDecidableTrue
  | .nil => instDecidableTrue

instance : DecidablePred Decimal.Told := fun numbers =>
  decidable_of_iff ((∀ x ∈ numbers, Decimal.IsFinite x) ∧
      ∀ x ∈ numbers, ∀ y ∈ numbers, Decimal.listed x = Decimal.listed y → x = y)
    ⟨fun h => ⟨h.1, h.2⟩, fun h => ⟨h.finite, h.unique⟩⟩

instance : DecidablePred Literal.Told := fun _ =>
  decidable_of_iff' _ Literal.told_iff

/-! ## Outlines -/

/-- Bracketed texts that can be told from what is around them have one meaning for one text. -/
theorem Sexp.Yields.unique {numbers : List Float} {α : Type} {read : Sexp.Meaning → Option α}
    {x y : Sexp} {a b : α} (hx : Sexp.Yields numbers read x a) (hy : Sexp.Yields numbers read y b)
    (h : x.text = y.text) : a = b := by
  have hsame := hx.meaning
  rw [Sexp.eq_of_text hx.clean hy.clean h, hy.meaning] at hsame
  exact (Option.some.inj hsame).symm

theorem Stmt.Legible.bare_eq {s t : Stmt} (hs : s.Legible) (ht : t.Legible)
    (htold : Literal.Told (s.literals ++ t.literals)) (h : s.outline = t.outline) :
    s.bare = t.bare := by
  have hleft := s.sexp_yields htold.numbers hs.wellFormed hs.texted
    fun value hvalue => htold.among (List.mem_append_left _ hvalue)
  have hright := t.sexp_yields htold.numbers ht.wellFormed ht.texted
    fun value hvalue => htold.among (List.mem_append_right _ hvalue)
  refine hleft.unique hright ?_
  rw [← s.toList_outline, ← t.toList_outline, h]

theorem Expr.Legible.bare_eq {e f : Expr} (he : e.Legible) (hf : f.Legible)
    (htold : Literal.Told (e.literals ++ f.literals)) (h : e.outline = f.outline) :
    e.bare = f.bare := by
  have hleft := e.sexp_yields htold.numbers he.wellFormed he.texted
    fun value hvalue => htold.among (List.mem_append_left _ hvalue)
  have hright := f.sexp_yields htold.numbers hf.wellFormed hf.texted
    fun value hvalue => htold.among (List.mem_append_right _ hvalue)
  refine hleft.unique hright ?_
  rw [← e.toList_outline, ← f.toList_outline, h]

/-- Two statements or two expressions of sources, whose literals are no strings and are told by their
texts, have one outline just when they are the same but for what outlines leave out. -/
theorem outline_eq_iff_bare_eq :
    (∀ s t : Stmt, s.OfSource → t.OfSource → Literal.Told (s.literals ++ t.literals) →
      (s.outline = t.outline ↔ s.bare = t.bare)) ∧
      ∀ e f : Expr, e.OfSource → f.OfSource → Literal.Told (e.literals ++ f.literals) →
        (e.outline = f.outline ↔ e.bare = f.bare) := by
  refine ⟨fun s t hs ht htold => ⟨hs.legible.bare_eq ht.legible htold, fun h => ?_⟩,
    fun e f he hf htold => ⟨he.legible.bare_eq hf.legible htold, fun h => ?_⟩⟩
  · rw [← s.outline_bare, h, t.outline_bare]
  · rw [← e.outline_bare, h, f.outline_bare]

/-- `var x = -a - 1.5;` on one line and on two, and `f(2).a = 0` with different identities. -/
theorem outline_eq_iff_bare_eq_of_lines :
    (∃ s t : Stmt, s.OfSource ∧ t.OfSource ∧ Literal.Told (s.literals ++ t.literals) ∧
      s.outline = "(var x (- (- a) 1.5))" ∧ s.references.map (·.name.line) = [1] ∧
      t.references.map (·.name.line) = [2] ∧ s.bare = t.bare) ∧
    ∃ e f : Expr, e.OfSource ∧ f.OfSource ∧ Literal.Told (e.literals ++ f.literals) ∧
      e.outline = "(= (. (call f 2.0) a) 0.0)" ∧ referenceIds e.references = [0] ∧
      referenceIds f.references = [7] ∧ e.bare = f.bare := by
  let declarations (source : String) : List Stmt :=
    (programItems (tokenize source.toUTF8.toList).1 0).1.filterMap ProgramItem.declaration?
  let expression? (source : String) (nextId : Nat) : Option Expr :=
    (expressionOfTokens (tokenize source.toUTF8.toList).1 nextId).1.toOption
  have hstatements : (declarations "var x = -a - 1.5;").any (fun s =>
      (declarations "var x =\n-a - 1.5;").any fun t => decide (
        Literal.Told (s.literals ++ t.literals) ∧ s.outline = "(var x (- (- a) 1.5))" ∧
          t.outline = s.outline ∧ s.references.map (·.name.line) = [1] ∧
          t.references.map (·.name.line) = [2])) = true := by
    decide +kernel
  have hexpressions : (expression? "f(2).a = 0" 0).any (fun e =>
      (expression? "f(2).a = 0" 7).any fun f => decide (
        Literal.Told (e.literals ++ f.literals) ∧ e.outline = "(= (. (call f 2.0) a) 0.0)" ∧
          f.outline = e.outline ∧ referenceIds e.references = [0] ∧
          referenceIds f.references = [7])) = true := by
    decide +kernel
  have hdeclared : ∀ source, ∀ s ∈ declarations source, s.OfSource := by
    intro source s hs
    obtain ⟨item, hitem, hdeclaration⟩ := List.mem_filterMap.mp hs
    cases item with
    | error f => cases hdeclaration
    | ok s' =>
      cases hdeclaration
      exact ⟨_, 0, s, hitem, s.mem_parts_self⟩
  have hread : ∀ source nextId e, expression? source nextId = some e → e.OfSource := by
    intro source nextId e he
    refine ⟨e, e.mem_parts_self, .inl ⟨source.toUTF8.toList, nextId, ?_⟩⟩
    cases hresult : (expressionOfTokens (tokenize source.toUTF8.toList).1 nextId).1 with
    | error f => cases (congrArg Except.toOption hresult).symm.trans he
    | ok e' =>
      cases (congrArg Except.toOption hresult).symm.trans he
      rfl
  obtain ⟨s, hs, hrest⟩ := List.any_eq_true.mp hstatements
  obtain ⟨t, ht, hrest⟩ := List.any_eq_true.mp hrest
  obtain ⟨htold, houtline, hsame, hfirst, hsecond⟩ := of_decide_eq_true hrest
  obtain ⟨e, he, hrest⟩ := (Option.any_eq_true _ _).mp hexpressions
  obtain ⟨f, hf, hrest⟩ := (Option.any_eq_true _ _).mp hrest
  obtain ⟨htold', houtline', hsame', hfirst', hsecond'⟩ := of_decide_eq_true hrest
  have hbare := (outline_eq_iff_bare_eq.1 s t (hdeclared _ s hs) (hdeclared _ t ht) htold).mp
    hsame.symm
  have hbare' := (outline_eq_iff_bare_eq.2 e f (hread _ _ e he) (hread _ _ f hf) htold').mp
    hsame'.symm
  exact ⟨⟨s, t, hdeclared _ s hs, hdeclared _ t ht, htold, houtline, hfirst, hsecond, hbare⟩,
    e, f, hread _ _ e he, hread _ _ f hf, htold', houtline', hfirst', hsecond', hbare'⟩

end LoxLang
