import LoxLang.Decimal.Layout
import LoxLang.Proofs.Grammar.Text
import LoxLang.Proofs.Outline.Brackets
import LoxLang.Proofs.Session.Lines
import LoxLang.Proofs.Token.Layout

/-!
The words of outlines. The kind of a scanned token that is no literal can be told from its text
(`Token.ofText_lexeme`), and its text, like that of a finite number, can stand as an atom. A name starts
with a letter or an underscore, a number never does, so that one is not taken for the other.
-/
namespace LoxLang
set_option autoImplicit false

/-! ## Kinds of texts -/

/-- The text of a symbol. -/
def Symbol.text : Symbol → String
  | .leftParen => "("
  | .rightParen => ")"
  | .leftBrace => "\x7b"
  | .rightBrace => "\x7d"
  | .comma => ","
  | .dot => "."
  | .minus => "-"
  | .plus => "+"
  | .semicolon => ";"
  | .slash => "/"
  | .star => "*"
  | .bang => "!"
  | .bangEqual => "!="
  | .equal => "="
  | .equalEqual => "=="
  | .greater => ">"
  | .greaterEqual => ">="
  | .less => "<"
  | .lessEqual => "<="

theorem Symbol.decodeLossy_bytes (s : Symbol) : Utf8.decodeLossy s.bytes = s.text := by
  cases s <;> rfl

/-- The kind of the token with a text, which is no literal. -/
def TokenKind.ofText (text : String) : TokenKind :=
  match Symbol.all.find? (·.text == text) with
  | some s => .symbol s
  | none =>
    match Keyword.ofSpelling? text with
    | some k => .keyword k
    | none => .identifier

/-- The token with a text, on no line. -/
def Token.ofText (text : String) : Token :=
  ⟨.ofText text, text, 0⟩

/-- Whether a name can start with a character. -/
def startsName (c : Char) : Bool :=
  c.isAlpha || c == '_'

/-- Whether a name can go on with a character. -/
def continuesName (c : Char) : Bool :=
  startsName c || c.isDigit

/-- The text of an identifier: a word that is not reserved. -/
structure IsNameText (text : String) : Prop where
  start : ∃ c rest, text.toList = c :: rest ∧ startsName c = true ∧
    ∀ d ∈ rest, continuesName d = true
  free : Keyword.ofSpelling? text = none

/-- The text of a token is the one of its kind, literals aside. -/
structure Token.Texted (t : Token) : Prop where
  symbol : ∀ s, t.kind = .symbol s → t.lexeme = s.text
  keyword : ∀ k, t.kind = .keyword k → t.lexeme = k.spelling
  name : t.kind = .identifier → IsNameText t.lexeme

theorem Token.texted_endOn (line : Nat) : (Token.endOn line).Texted :=
  ⟨nofun, nofun, nofun⟩

/-! ## Scanned tokens -/

theorem char_of_isWordStart {b : UInt8} (h : Lexing.isWordStart b = true) :
    startsName (Char.ofNat b.toNat) = true := by
  have hall : ∀ n : Fin 256, Lexing.isWordStart (.ofFin n) = true →
      startsName (Char.ofNat (UInt8.ofFin n).toNat) = true := by
    decide +kernel
  exact hall b.toFin h

theorem char_of_isWordPart {b : UInt8} (h : Lexing.isWordPart b = true) :
    continuesName (Char.ofNat b.toNat) = true := by
  have hall : ∀ n : Fin 256, Lexing.isWordPart (.ofFin n) = true →
      continuesName (Char.ofNat (UInt8.ofFin n).toNat) = true := by
    decide +kernel
  exact hall b.toFin h

/-- Scanned tokens have the texts of their kinds. -/
theorem Token.Scanned.texted {t : Token} (h : t.Scanned) : t.Texted := by
  have hspelled := h.spelled
  obtain ⟨source, hmem⟩ := h
  rw [tokenize_tokens] at hmem
  rcases List.mem_append.mp hmem with hword | hend
  · obtain ⟨bytes, hclass, hlexeme⟩ := Lexing.class_of_mem_words hword
    refine ⟨fun s hs => ?_, fun k hk => ?_, fun hname => ?_⟩
    · rw [hs] at hclass
      cases hclass
      rw [hlexeme, s.decodeLossy_bytes]
    · exact hspelled.keyword k ((TokenKind.same_keyword_iff t.kind k).mpr hk)
    · refine ⟨?_, hspelled.name ((TokenKind.same_identifier_iff t.kind).mpr hname)⟩
      rw [hname] at hclass
      cases hclass with
      | @identifier b tail hstart htail hfree =>
        have hword : ∀ c ∈ b :: tail, Lexing.isWordPart c = true :=
          List.forall_mem_cons.mpr ⟨Lexing.isWordPart_of_isWordStart hstart, htail⟩
        rw [hlexeme, Lexing.decodeLossy_ascii fun c hc => Lexing.lt_of_isWordPart (hword c hc),
          String.toList_ofList, List.map_cons]
        exact ⟨_, _, rfl, char_of_isWordStart hstart,
          List.forall_mem_map.mpr fun c hc => char_of_isWordPart (htail c hc)⟩
  · obtain rfl := List.mem_singleton.mp hend
    exact Token.texted_endOn _

/-! ## Names -/

theorem startsName_of_symbol (s : Symbol) : ∀ c ∈ s.text.toList.head?, startsName c = false := by
  cases s <;> simp only [Symbol.text, String.reduceToList, List.head?_cons, Option.mem_some,
    forall_eq'] <;> decide

theorem startsName_of_keyword (k : Keyword) :
    ∃ c, k.spelling.toList.head? = some c ∧ startsName c = true := by
  cases k <;> simp only [Keyword.spelling, String.reduceToList, List.head?_cons] <;>
    exact ⟨_, rfl, by decide⟩

theorem IsNameText.no_symbol {text : String} (h : IsNameText text) :
    Symbol.all.find? (·.text == text) = none := by
  refine List.find?_eq_none.mpr fun s _ hs => ?_
  obtain ⟨c, rest, htext, hc, -⟩ := h.start
  have hhead := startsName_of_symbol s c
  rw [eq_of_beq hs, htext] at hhead
  have hno := hhead rfl
  rw [hc] at hno
  cases hno

theorem IsNameText.kind {text : String} (h : IsNameText text) : .ofText text = TokenKind.identifier := by
  rw [TokenKind.ofText, h.no_symbol]
  dsimp only
  rw [h.free]

theorem TokenKind.ofText_symbol (s : Symbol) : .ofText s.text = TokenKind.symbol s := by
  cases s <;> simp [TokenKind.ofText, Symbol.all, Symbol.text]

theorem TokenKind.ofText_keyword (k : Keyword) : .ofText k.spelling = TokenKind.keyword k := by
  cases k <;> simp [TokenKind.ofText, Symbol.all, Symbol.text, Keyword.ofSpelling?, Keyword.all,
    Keyword.spelling]

namespace Token.Texted
variable {t : Token}

/-- A token that is no literal is told by its text. -/
theorem ofText_symbol (h : t.Texted) {s : Symbol} (hs : t.kind = .symbol s) :
    ofText t.lexeme = t.unlined := by
  rw [Token.unlined, hs, ← TokenKind.ofText_symbol s, ← h.symbol s hs]
  rfl

@[inherit_doc ofText_symbol]
theorem ofText_keyword (h : t.Texted) {k : Keyword} (hk : t.kind = .keyword k) :
    ofText t.lexeme = t.unlined := by
  rw [Token.unlined, hk, ← TokenKind.ofText_keyword k, ← h.keyword k hk]
  rfl

@[inherit_doc ofText_symbol]
theorem ofText_name (h : t.Texted) (hname : t.kind = .identifier) : ofText t.lexeme = t.unlined := by
  rw [Token.unlined, hname, ← (h.name hname).kind]
  rfl

end Token.Texted

/-- A delimiter is no part of a name. -/
theorem not_delimiter_of_continuesName {c : Char} (h : continuesName c = true) :
    Sexp.isDelimiter c = false := by
  refine Bool.eq_false_iff.mpr fun hdelimiter => ?_
  simp only [Sexp.isDelimiter, Bool.or_eq_true, beq_iff_eq] at hdelimiter
  rcases hdelimiter with (rfl | rfl) | rfl <;> cases h

theorem IsNameText.atom {text : String} (h : IsNameText text) : Sexp.IsAtom text := by
  obtain ⟨c, rest, htext, hc, hrest⟩ := h.start
  refine ⟨htext ▸ List.cons_ne_nil c rest, ?_⟩
  rw [htext]
  have hstart : continuesName c = true := by rw [continuesName, hc, Bool.true_or]
  exact List.forall_mem_cons.mpr ⟨not_delimiter_of_continuesName hstart,
    fun d hd => not_delimiter_of_continuesName (hrest d hd)⟩

/-! ## Numbers -/

namespace Decimal

/-- A number that is neither infinite nor none at all. -/
def IsFinite (x : Float) : Prop :=
  ∃ negative magnitude, Binary.ofBits x.toBits = .finite negative magnitude

/-- Whether a finite number can be written with a character. -/
def isNumeric (c : Char) : Bool :=
  c.isDigit || c == '.' || c == '-'

/-- The text of a number: there is something, and all of it is numeric. -/
structure IsNumeralText (text : String) : Prop where
  nonempty : text.toList ≠ []
  numeric : ∀ c ∈ text.toList, isNumeric c = true

theorem isNumeric_of_mem_toDigits {n : Nat} {c : Char} (h : c ∈ Nat.toDigits 10 n) :
    isNumeric c = true := by
  rw [isNumeric, Nat.isDigit_of_mem_toDigits (by decide) (by decide) h]
  rfl

theorem isNumeric_of_mem_zeros {n : Nat} {c : Char} (h : c ∈ List.replicate n '0') :
    isNumeric c = true := by
  rw [List.eq_of_mem_replicate h]
  rfl

theorem numeric_sign (negative : Bool) : ∀ c ∈ (sign negative).toList, isNumeric c = true := by
  cases negative <;> simp [sign, isNumeric]

theorem IsNumeralText.append {first second : String}
    (hfirst : ∀ c ∈ first.toList, isNumeric c = true) (hsecond : IsNumeralText second) :
    IsNumeralText (first ++ second) := by
  refine ⟨?_, ?_⟩
  · rw [String.toList_append]
    exact List.append_ne_nil_of_right_ne_nil _ hsecond.nonempty
  · rw [String.toList_append]
    exact List.forall_mem_append.mpr ⟨hfirst, hsecond.numeric⟩

theorem IsNumeralText.of_list {chars : List Char} (hsome : chars ≠ [])
    (h : ∀ c ∈ chars, isNumeric c = true) : IsNumeralText (String.ofList chars) := by
  refine ⟨?_, ?_⟩
  · rwa [String.toList_ofList]
  · rwa [String.toList_ofList]

theorem isNumeralText_positional (d : Digits) : IsNumeralText d.positional := by
  have hsome : Nat.toDigits 10 d.significand ≠ [] := Nat.toDigits_ne_nil
  have hdigits : ∀ c ∈ Nat.toDigits 10 d.significand, isNumeric c = true :=
    fun c => isNumeric_of_mem_toDigits
  have hzeros : ∀ n, ∀ c ∈ List.replicate n '0', isNumeric c = true :=
    fun n c => isNumeric_of_mem_zeros
  have hpoint : ∀ c ∈ ".".toList, isNumeric c = true := by simp [isNumeric]
  have hzeroPoint : ∀ c ∈ "0.".toList, isNumeric c = true := by simp [isNumeric]
  unfold Digits.positional
  dsimp only
  split
  · refine .of_list (List.append_ne_nil_of_left_ne_nil hsome _) ?_
    exact List.forall_mem_append.mpr ⟨hdigits, hzeros _⟩
  · split
    · refine .append hzeroPoint (.of_list (List.append_ne_nil_of_right_ne_nil _ hsome) ?_)
      exact List.forall_mem_append.mpr ⟨hzeros _, hdigits⟩
    · rename_i k hplaces
      refine .append ?_ (.of_list ?_ fun c hc => hdigits c (List.mem_of_mem_drop hc))
      · rw [String.toList_append, String.toList_ofList]
        exact List.forall_mem_append.mpr ⟨fun c hc => hdigits c (List.mem_of_mem_take hc), hpoint⟩
      · rw [ne_eq, List.drop_eq_nil_iff]
        omega

/-- The text of a finite number. -/
theorem isNumeralText_listed {x : Float} (h : IsFinite x) : IsNumeralText (listed x) := by
  obtain ⟨negative, m, hx⟩ := h
  unfold listed
  rw [hx]
  dsimp only
  split
  · refine .append ?_ ⟨by simp, by simp [isNumeric]⟩
    rw [String.toList_append, Nat.toString_eq_ofList_toDigits, String.toList_ofList]
    exact List.forall_mem_append.mpr ⟨numeric_sign negative, fun c => isNumeric_of_mem_toDigits⟩
  · exact .append (numeric_sign negative) (isNumeralText_positional _)

/-- A delimiter is no part of a number. -/
theorem not_delimiter_of_isNumeric {c : Char} (h : isNumeric c = true) :
    Sexp.isDelimiter c = false := by
  refine Bool.eq_false_iff.mpr fun hdelimiter => ?_
  simp only [Sexp.isDelimiter, Bool.or_eq_true, beq_iff_eq] at hdelimiter
  rcases hdelimiter with (rfl | rfl) | rfl <;> cases h

theorem IsNumeralText.atom {text : String} (h : IsNumeralText text) : Sexp.IsAtom text :=
  ⟨h.nonempty, fun c hc => not_delimiter_of_isNumeric (h.numeric c hc)⟩

end Decimal

/-- A letter or an underscore is no part of a number. -/
theorem not_numeric_of_startsName {c : Char} (h : startsName c = true) :
    Decimal.isNumeric c = false := by
  refine Bool.eq_false_iff.mpr fun hnumeric => ?_
  simp only [Decimal.isNumeric, Bool.or_eq_true, beq_iff_eq] at hnumeric
  rcases hnumeric with (hdigit | rfl) | rfl
  · -- Digits come before all letters, and before the underscore.
    have hlast : c.toNat ≤ 57 := (Char.isDigit_iff_toNat.mp hdigit).2
    simp only [startsName, Char.isAlpha, Char.isUpper, Char.isLower, Bool.or_eq_true,
      Bool.and_eq_true, decide_eq_true_eq, beq_iff_eq, ge_iff_le, UInt32.le_iff_toNat_le] at h
    rcases h with (⟨hupper, -⟩ | ⟨hlower, -⟩) | rfl
    · exact absurd (Nat.le_trans hupper hlast) (by decide)
    · exact absurd (Nat.le_trans hlower hlast) (by decide)
    · exact absurd hlast (by decide)
  · cases h
  · cases h

end LoxLang
