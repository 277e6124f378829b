import LoxLang.Token.Lexing

/-!
How scanned tokens are spelled. A reserved word stands in the text as it is spelled, and an identifier
is none of the reserved words (`Token.Scanned.spelled`): both are cut from the text as whole words,
and the kind of a word is decided by its text alone.
-/
namespace LoxLang
set_option autoImplicit false

/-- A token whose text says which word it is. -/
structure Token.Spelled (t : Token) : Prop where
  keyword : ∀ k, t.isKeyword k = true → t.lexeme = k.spelling
  name : t.kind.same .identifier = true → Keyword.ofSpelling? t.lexeme = none

/-- A token of some source. -/
def Token.Scanned (t : Token) : Prop :=
  ∃ source, t ∈ (tokenize source).1

theorem TokenKind.same_identifier {kind : TokenKind} (h : kind.same .identifier = true) :
    kind = .identifier := by
  cases kind <;> first | rfl | cases h

theorem TokenKind.same_keyword {kind : TokenKind} {k : Keyword} (h : kind.same (.keyword k) = true) :
    kind = .keyword k := by
  cases kind with
  | keyword other => exact congrArg TokenKind.keyword (eq_of_beq h)
  | _ => cases h

theorem Keyword.spelling_of_ofSpelling? {text : String} {k : Keyword}
    (h : Keyword.ofSpelling? text = some k) : k.spelling = text :=
  eq_of_beq (List.find?_some (p := fun k : Keyword => k.spelling == text) h)

namespace Lexing

theorem spelling_of_wordKind {word : List UInt8} {k : Keyword} (h : wordKind word = .keyword k) :
    Utf8.decodeLossy word = k.spelling := by
  unfold wordKind at h
  split at h
  · rename_i other hspelled
    cases h
    exact (Keyword.spelling_of_ofSpelling? hspelled).symm
  · cases h

theorem unreserved_of_wordKind {word : List UInt8} (h : wordKind word = .identifier) :
    Keyword.ofSpelling? (Utf8.decodeLossy word) = none := by
  unfold wordKind at h
  split at h
  · cases h
  · assumption

/-- The kinds of words. -/
def IsWord (kind : TokenKind) : Prop :=
  kind = .identifier ∨ ∃ k, kind = .keyword k

theorem not_word_munchString {rest : List UInt8} {kind : TokenKind}
    (h : (munchString rest).meaning = .token kind) : ¬ IsWord kind := by
  dsimp only [munchString] at h
  split at h
  · cases h
    rintro (hname | ⟨k, hk⟩)
    · cases hname
    · cases hk
  · cases h

theorem not_word_munchSymbol {b : UInt8} {rest : List UInt8} {kind : TokenKind}
    (h : (munchSymbol b rest).meaning = .token kind) : ¬ IsWord kind := by
  have hsymbol : ∀ s, ¬ IsWord (.symbol s) := by
    rintro s (hname | ⟨k, hk⟩)
    · cases hname
    · cases hk
  unfold munchSymbol at h
  split at h
  · cases h
    exact hsymbol _
  · split at h
    · cases h
      exact hsymbol _
    · cases h

/-- A word at the head of the input is cut off whole, and its kind is that of its text. -/
theorem kind_of_munch {b : UInt8} {rest : List UInt8} {kind : TokenKind}
    (h : (munch b rest).meaning = .token kind) (hword : IsWord kind) :
    kind = wordKind (b :: rest.take (munch b rest).extra) := by
  unfold munch at h ⊢
  split at h
  · cases h
  · rename_i hblank
    rw [if_neg hblank]
    split at h
    · cases h
    · rename_i hcomment
      rw [if_neg hcomment]
      split at h
      · exact absurd hword (not_word_munchString h)
      · rename_i hquote
        rw [if_neg hquote]
        split at h
        · cases h
          rcases hword with hname | ⟨k, hk⟩
          · cases hname
          · cases hk
        · rename_i hdigit
          rw [if_neg hdigit]
          split at h
          · rename_i hstart
            cases h
            rw [if_pos hstart]
            rw [← List.prefix_iff_eq_take.mp (List.takeWhile_prefix isWordPart)]
          · exact absurd hword (not_word_munchSymbol h)

/-- Every lexeme is what is cut off at some place of the input. -/
theorem munch_of_mem_lexemes {skip : Nat} {bytes : List UInt8} {lexeme : Lexeme}
    (h : lexeme ∈ lexemesFrom skip bytes) : ∃ b rest,
      lexeme = ⟨(munch b rest).meaning, b :: rest.take (munch b rest).extra⟩ := by
  induction bytes generalizing skip with
  | nil => cases skip <;> cases h
  | cons b rest ih =>
    cases skip with
    | succ skip => exact ih h
    | zero =>
      rcases List.mem_cons.mp h with rfl | htail
      · exact ⟨b, rest, rfl⟩
      · exact ih htail

/-- An item is that of a lexeme, or the end of input. -/
theorem lexeme_of_mem_items {line : Nat} {lexemes : List Lexeme} {item : LexicalItem}
    (h : item ∈ itemsFrom line lexemes) :
    (∃ last, item = .token (.endOn last)) ∨
      ∃ lexeme ∈ lexemes, ∃ last, lexeme.item? last = some item := by
  induction lexemes generalizing line with
  | nil => exact .inl ⟨line, List.mem_singleton.mp h⟩
  | cons lexeme rest ih =>
    rcases List.mem_append.mp h with hfirst | hrest
    · exact .inr ⟨lexeme, List.mem_cons_self, _, Option.mem_toList.mp hfirst⟩
    · rcases ih hrest with hend | ⟨other, hother, hitem⟩
      · exact .inl hend
      · exact .inr ⟨other, List.mem_cons_of_mem _ hother, hitem⟩

end Lexing

/-- The text of a scanned token says which word it is. -/
theorem Token.Scanned.spelled {t : Token} (h : t.Scanned) : t.Spelled := by
  obtain ⟨source, hmem⟩ := h
  obtain ⟨item, hitem, htoken⟩ := List.mem_filterMap.mp hmem
  cases item with
  | fault fault => cases htoken
  | token token =>
    cases htoken
    rcases Lexing.lexeme_of_mem_items hitem with ⟨last, hend⟩ | ⟨lexeme, hlexeme, last, hmeaning⟩
    · cases hend
      exact ⟨nofun, nofun⟩
    · obtain ⟨b, rest, rfl⟩ := Lexing.munch_of_mem_lexemes hlexeme
      unfold Lexing.Lexeme.item? at hmeaning
      split at hmeaning
      · cases hmeaning
      · rename_i kind hkind
        cases hmeaning
        refine ⟨fun k hk => ?_, fun hname => ?_⟩
        · obtain rfl := TokenKind.same_keyword hk
          exact Lexing.spelling_of_wordKind (Lexing.kind_of_munch hkind (.inr ⟨k, rfl⟩)).symm
        · obtain rfl := TokenKind.same_identifier hname
          exact Lexing.unreserved_of_wordKind (Lexing.kind_of_munch hkind (.inl rfl)).symm
      · cases hmeaning

end LoxLang
