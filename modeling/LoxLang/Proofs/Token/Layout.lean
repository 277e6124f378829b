import LoxLang.Proofs.Token.Encoding
import LoxLang.Proofs.Token.Tiling

/-!
Layout between tokens. The texts of the tokens of a source can be written in order with any blanks and
comments between them (`LaidOut`): what is written is scanned without a fault to tokens of the same kinds
and texts (`layout_irrelevant`). It comes down to what the classes of tokens look like: past its first
byte no token but a string holds a blank or a slash, so no token reaches over a separator
(`cut_token`), and the text of a token, encoded again, is in the class of the token
(`TokenClass.encoded`).
-/
namespace LoxLang
set_option autoImplicit false

namespace Lexing

/-! ## Texts with layout -/

/-- Blanks and comments. A comment goes on to the end of its line, and only the last one can be left
open. -/
inductive Spacing (last : Bool) : List UInt8 → Prop
  | nil : Spacing last []
  | blank {b : UInt8} {rest : List UInt8} :
    isBlank b = true → Spacing last rest → Spacing last (b :: rest)
  | comment {body rest : List UInt8} :
    lineFeed ∉ body → Spacing last rest → Spacing last (47 :: 47 :: body ++ lineFeed :: rest)
  | openComment {body : List UInt8} :
    last = true → lineFeed ∉ body → Spacing last (47 :: 47 :: body)

/-- Texts in order, with a separator between neighbours and layout after the last. A separator starts
with a blank. At the end there can be nothing, or a comment can follow at once, unless it would make
three slashes in a row. -/
inductive Separated : List String → List UInt8 → Prop
  | last {text : String} {layout : List UInt8} :
    Spacing true layout → (∀ b ∈ layout.head?, isBlank b = true ∨ text ≠ "/") →
    Separated [text] (Utf8.encode text ++ layout)
  | next {text : String} {b : UInt8} {layout rest : List UInt8} {texts : List String} :
    isBlank b = true → Spacing false layout → Separated texts rest →
    Separated (text :: texts) (Utf8.encode text ++ b :: layout ++ rest)

/-- Texts in order, with layout between neighbours and at both ends. -/
inductive LaidOut : List String → List UInt8 → Prop
  | nothing {layout : List UInt8} : Spacing true layout → LaidOut [] layout
  | texts {layout rest : List UInt8} {texts : List String} :
    Spacing false layout → Separated texts rest → LaidOut texts (layout ++ rest)

/-! ## What tokens look like -/

/-- Whether a byte can stand in a token after its first, strings left aside. -/
def isInner (b : UInt8) : Bool :=
  isWordPart b || b == 46 || b == 61

/-- Bytes like those of a token that is no string. -/
structure Compact (bytes : List UInt8) : Prop where
  nonempty : bytes ≠ []
  ascii : ∀ b ∈ bytes, b < 0x80
  head : ∀ b ∈ bytes.head?, b ≠ quote
  slash : bytes.head? = some 47 → bytes = [47]
  tail : ∀ b ∈ bytes.tail, isInner b = true

theorem inner_of_isWordPart {b : UInt8} (h : isWordPart b = true) : isInner b = true := by
  simp [isInner, h]

theorem isWordPart_of_isDigit {b : UInt8} (h : Decimal.isDigit b = true) : isWordPart b = true := by
  simp [isWordPart, h]

theorem lt_of_isInner {b : UInt8} (h : isInner b = true) : b < 0x80 := by
  have hall : ∀ n : Fin 256, isInner (.ofFin n) = true → UInt8.ofFin n < 0x80 := by
    decide +kernel
  exact hall b.toFin h

/-- No blank and no slash stands in a token after its first byte, strings left aside. -/
theorem inner_not_separator {b : UInt8} (h : isInner b = true) : isBlank b = false ∧ b ≠ 47 := by
  have hall : ∀ n : Fin 256, isInner (.ofFin n) = true →
      isBlank (.ofFin n) = false ∧ UInt8.ofFin n ≠ 47 := by
    decide +kernel
  exact hall b.toFin h

theorem compact_cons {b : UInt8} {tail : List UInt8} (hascii : b < 0x80) (hquote : (b == quote) = false)
    (hslash : (b == 47) = false) (htail : ∀ c ∈ tail, isInner c = true) : Compact (b :: tail) where
  nonempty := nofun
  ascii := List.forall_mem_cons.mpr ⟨hascii, fun c hc => lt_of_isInner (htail c hc)⟩
  head := by
    intro c hc
    cases hc
    exact ne_of_beq_false hquote
  slash h := absurd (Option.some.inj h) (ne_of_beq_false hslash)
  tail := htail

theorem compact_symbol (s : Symbol) : Compact s.bytes := by
  cases s <;> constructor <;> decide +kernel

theorem compact_word {b : UInt8} {tail : List UInt8} (hb : isWordStart b = true)
    (htail : ∀ c ∈ tail, isWordPart c = true) : Compact (b :: tail) := by
  obtain ⟨-, hslash, hquote, -⟩ := starts_of_isWordStart hb
  exact compact_cons (lt_of_isWordPart (isWordPart_of_isWordStart hb)) hquote hslash
    fun c hc => inner_of_isWordPart (htail c hc)

theorem compact_number {b : UInt8} {tail : List UInt8} (hb : Decimal.isDigit b = true)
    (htail : ∀ c ∈ tail, Decimal.isDigit c = true ∨ c = 46) : Compact (b :: tail) := by
  obtain ⟨-, hslash, hquote⟩ := starts_of_isDigit hb
  refine compact_cons (lt_of_isWordPart (isWordPart_of_isDigit hb)) hquote hslash fun c hc => ?_
  rcases htail c hc with hdigit | rfl
  · exact inner_of_isWordPart (isWordPart_of_isDigit hdigit)
  · rfl

/-- A token is a string or its bytes are compact. -/
theorem TokenClass.string_or_compact {kind : TokenKind} {bytes : List UInt8}
    (h : TokenClass kind bytes) :
    (∃ body, quote ∉ body ∧ kind = .string (Utf8.decodeLossy body) ∧
        bytes = quote :: (body ++ [quote])) ∨ Compact bytes := by
  cases h with
  | symbol s => exact .inr (compact_symbol s)
  | keyword k =>
    obtain ⟨b, tail, hbytes, hb, htail⟩ := keyword_bytes k
    rw [hbytes]
    exact .inr (compact_word hb htail)
  | identifier hb htail _ => exact .inr (compact_word hb htail)
  | integer hsome hdigits =>
    cases bytes with
    | nil => exact absurd rfl hsome
    | cons b tail =>
      obtain ⟨hb, htail⟩ := List.forall_mem_cons.mp hdigits
      exact .inr (compact_number hb fun c hc => .inl (htail c hc))
  | @fraction whole fraction hsome hdigits _ hfraction =>
    cases whole with
    | nil => exact absurd rfl hsome
    | cons b whole =>
      obtain ⟨hb, hwhole⟩ := List.forall_mem_cons.mp hdigits
      refine .inr (compact_number hb fun c hc => ?_)
      rcases List.mem_append.mp hc with hc | hc
      · exact .inl (hwhole c hc)
      · rcases List.mem_cons.mp hc with rfl | hc
        · exact .inr rfl
        · exact .inl (hfraction c hc)
  | @string body hbody => exact .inl ⟨body, hbody, rfl, rfl⟩

/-! ## Texts of tokens -/

/-- The text of a string is its value between two quotes. -/
theorem decodeLossy_string (body : List UInt8) :
    Utf8.decodeLossy (quote :: (body ++ [quote])) = "\"" ++ Utf8.decodeLossy body ++ "\"" := by
  have hquote : quote < 0x80 := by decide
  rw [Utf8.decodeLossy_cons hquote, Utf8.decodeLossy_append hquote, ← String.append_assoc]
  rfl

theorem encode_string (value : String) :
    Utf8.encode ("\"" ++ value ++ "\"") = quote :: (Utf8.encode value ++ [quote]) := by
  rw [Utf8.encode_append, Utf8.encode_append]
  rfl

/-- The text of a token, encoded again, is a token of the same kind. -/
theorem TokenClass.encoded {kind : TokenKind} {bytes : List UInt8} (h : TokenClass kind bytes) :
    TokenClass kind (Utf8.encode (Utf8.decodeLossy bytes)) := by
  rcases h.string_or_compact with ⟨body, hbody, rfl, rfl⟩ | hcompact
  · have hvalue : quote ∉ Utf8.encode (Utf8.decodeLossy body) := fun hmem =>
      hbody (Utf8.quote_of_decoded (Utf8.quote_of_encoded hmem))
    rw [decodeLossy_string, encode_string]
    have hclass := TokenClass.string hvalue
    rwa [Utf8.decodeLossy_encode] at hclass
  · rwa [Utf8.encode_decoded hcompact.ascii]

/-! ## Separators -/

/-- A byte that a token leaves for what follows it: a blank, or a slash that makes no comment with it. -/
def Parts (bytes : List UInt8) (b : UInt8) : Prop :=
  isBlank b = true ∨ b = 47 ∧ bytes ≠ [47]

/-- A string ends with its first quote. -/
theorem string_unique {inside body more : List UInt8} (hinside : quote ∉ inside)
    (hbody : quote ∉ body) (h : inside ++ quote :: more = body ++ [quote]) : more = [] := by
  have hshort := munchString_closed hinside more
  have hlong := munchString_closed hbody []
  rw [h, hlong] at hshort
  have hlength := congrArg List.length h
  have hextra : body.length + 1 = inside.length + 1 := congrArg Munch.extra hshort
  simp only [List.length_append, List.length_cons, List.length_nil] at hlength
  exact List.length_eq_zero_iff.mp (by omega)

/-- No token is longer by a separator and more than another. -/
theorem not_class_of_parts {kind other : TokenKind} {bytes more : List UInt8} {b : UInt8}
    (h : TokenClass kind bytes) (hb : Parts bytes b) : ¬ TokenClass other (bytes ++ b :: more) := by
  intro hlonger
  cases bytes with
  | nil => exact h.ne_nil rfl
  | cons c tail =>
    rcases hlonger.string_or_compact with ⟨body, hbody, -, hbytes⟩ | hcompact
    · -- The longer token is a string, so the shorter one is one too and holds the quote that closes it.
      obtain ⟨rfl, htail⟩ := List.cons.inj hbytes
      rcases h.string_or_compact with ⟨inside, hinside, -, hshort⟩ | hcompact
      · obtain ⟨-, rfl⟩ := List.cons.inj hshort
        have hclosed : inside ++ quote :: b :: more = body ++ [quote] := by
          rw [← htail]
          exact List.append_cons inside quote (b :: more)
        exact List.cons_ne_nil b more (string_unique hinside hbody hclosed)
      · exact hcompact.head quote rfl rfl
    · have hinner := hcompact.tail b (by simp)
      obtain ⟨hblank, hslash⟩ := inner_not_separator hinner
      rcases hb with hb | ⟨hb, -⟩
      · exact Bool.false_ne_true (hblank.symm.trans hb)
      · exact hslash hb

theorem not_opens_of_parts {kind : TokenKind} {bytes rest : List UInt8} (h : TokenClass kind bytes)
    (hrest : ∀ b ∈ rest.head?, Parts bytes b) : ¬ [47, 47] <+: bytes ++ rest := by
  intro hopen
  rcases h.string_or_compact with ⟨body, -, -, rfl⟩ | hcompact
  · exact absurd (List.cons_prefix_cons.mp hopen).1 (by decide)
  · cases bytes with
    | nil => exact hcompact.nonempty rfl
    | cons c tail =>
      obtain ⟨rfl, hsecond⟩ := List.cons_prefix_cons.mp hopen
      obtain ⟨-, rfl⟩ := List.cons.inj (hcompact.slash rfl)
      obtain ⟨more, rfl⟩ := hsecond
      rcases hrest 47 rfl with hblank | ⟨-, hslash⟩
      · exact absurd hblank (by decide)
      · exact hslash rfl

/-- A token does not reach over a separator. -/
theorem cut_token {kind : TokenKind} {bytes rest : List UInt8} (h : TokenClass kind bytes)
    (hrest : ∀ b ∈ rest.head?, Parts bytes b) : Cut ⟨.token kind, bytes⟩ rest := by
  refine .token h (not_opens_of_parts h hrest) fun other longer hlonger hfront => ?_
  by_contra hlength
  have hbytes : bytes <+: longer :=
    List.prefix_of_prefix_length_le (List.prefix_append _ _) hfront (by omega)
  obtain ⟨more, rfl⟩ := hbytes
  cases more with
  | nil => simp at hlength
  | cons b more =>
    obtain ⟨after, rfl⟩ := (List.prefix_append_right_inj bytes).mp hfront
    exact not_class_of_parts h (hrest b rfl) hlonger

/-! ## Pieces of a laid out text -/

/-- The kind and the text of the token that a piece is. -/
def Lexeme.word? (lexeme : Lexeme) : Option (TokenKind × String) :=
  match lexeme.meaning with
  | .token kind => some (kind, Utf8.decodeLossy lexeme.bytes)
  | _ => none

/-- A source is cut into some words, and nothing in it is a fault. -/
def Shows (source : List UInt8) (shown : List (TokenKind × String)) : Prop :=
  ∃ pieces, Lexed source pieces ∧ (∀ piece ∈ pieces, ∀ cause, piece.meaning ≠ .fault cause) ∧
    pieces.filterMap Lexeme.word? = shown

namespace Shows
variable {rest : List UInt8} {shown : List (TokenKind × String)}

theorem nil : Shows [] [] :=
  ⟨[], .nil, nofun, rfl⟩

theorem blank {bytes : List UInt8} (hcut : Cut ⟨.blank, bytes⟩ rest) (h : Shows rest shown) :
    Shows (bytes ++ rest) shown := by
  obtain ⟨pieces, hlexed, hclean, hwords⟩ := h
  refine ⟨⟨.blank, bytes⟩ :: pieces, .cons hcut hlexed, ?_, hwords⟩
  exact List.forall_mem_cons.mpr ⟨nofun, hclean⟩

theorem space {b : UInt8} (hb : isBlank b = true) (h : Shows rest shown) : Shows (b :: rest) shown :=
  h.blank (.space rest hb)

theorem token {kind : TokenKind} {bytes : List UInt8} (hclass : TokenClass kind bytes)
    (hrest : ∀ b ∈ rest.head?, Parts bytes b) (h : Shows rest shown) :
    Shows (bytes ++ rest) ((kind, Utf8.decodeLossy bytes) :: shown) := by
  obtain ⟨pieces, hlexed, hclean, hwords⟩ := h
  refine ⟨⟨.token kind, bytes⟩ :: pieces, .cons (cut_token hclass hrest) hlexed, ?_, ?_⟩
  · exact List.forall_mem_cons.mpr ⟨nofun, hclean⟩
  · rw [← hwords]
    rfl

/-- Spacing adds no words to what follows it. -/
theorem layout {last : Bool} {bytes : List UInt8} (hlayout : Spacing last bytes)
    (hlast : last = true → rest = []) (h : Shows rest shown) : Shows (bytes ++ rest) shown := by
  induction hlayout with
  | nil => exact h
  | blank hb _ ih => exact ih.space hb
  | @comment body more hbody _ ih =>
    have hline : ∀ b ∈ (lineFeed :: (more ++ rest)).head?, b = lineFeed := by
      intro b hb
      cases hb
      rfl
    rw [List.append_assoc]
    exact (ih.space rfl).blank (.comment hbody hline)
  | openComment hopen hbody =>
    obtain rfl := hlast hopen
    exact h.blank (.comment hbody nofun)

end Shows

theorem encode_slash {text : String} (h : Utf8.encode text = [47]) : text = "/" := by
  rw [← Utf8.decodeLossy_encode text, h]
  rfl

/-- A token in front of something that is shown, its text being encoded. -/
theorem Shows.word {rest : List UInt8} {shown : List (TokenKind × String)} {t : Token}
    (ht : TokenClass t.kind (Utf8.encode t.lexeme))
    (hrest : ∀ b ∈ rest.head?, Parts (Utf8.encode t.lexeme) b) (h : Shows rest shown) :
    Shows (Utf8.encode t.lexeme ++ rest) ((t.kind, t.lexeme) :: shown) := by
  have htoken := h.token ht hrest
  rwa [Utf8.decodeLossy_encode] at htoken

/-- Spacing begins with a blank or with the slash of a comment. -/
theorem Spacing.head {last : Bool} {layout : List UInt8} (h : Spacing last layout) :
    ∀ b ∈ layout.head?, isBlank b = true ∨ b = 47 := by
  intro b hb
  cases h with
  | nil => cases hb
  | blank hblank _ =>
    cases hb
    exact .inl hblank
  | comment _ _ =>
    cases hb
    exact .inr rfl
  | openComment _ _ =>
    cases hb
    exact .inr rfl

/-- Tokens whose texts are written with separators between them are shown again. -/
theorem Separated.shows {texts : List String} {written : List UInt8} (h : Separated texts written)
    {tokens : List Token} (htexts : tokens.map Token.lexeme = texts)
    (hclasses : ∀ t ∈ tokens, TokenClass t.kind (Utf8.encode t.lexeme)) :
    Shows written (tokens.map fun t => (t.kind, t.lexeme)) := by
  induction h generalizing tokens with
  | @last text layout hlayout hnext =>
    obtain ⟨t, rfl, rfl⟩ := List.map_eq_singleton_iff.mp htexts
    have hend := Shows.nil.layout hlayout fun _ => rfl
    rw [List.append_nil] at hend
    refine hend.word (hclasses t List.mem_cons_self) fun b hb => ?_
    rcases hlayout.head b hb with hblank | hslash
    · exact .inl hblank
    · exact (hnext b hb).imp_right fun htext => ⟨hslash, mt encode_slash htext⟩
  | @next text b layout rest texts hb hlayout _ ih =>
    obtain ⟨t, tokens, rfl, rfl, hrest⟩ := List.map_eq_cons_iff.mp htexts
    obtain ⟨ht, htokens⟩ := List.forall_mem_cons.mp hclasses
    have hlater := ((ih hrest htokens).layout hlayout nofun).space hb
    rw [List.append_assoc]
    refine hlater.word ht fun c hc => ?_
    cases hc
    exact .inl hb

theorem LaidOut.shows {tokens : List Token} {written : List UInt8}
    (h : LaidOut (tokens.map Token.lexeme) written)
    (hclasses : ∀ t ∈ tokens, TokenClass t.kind (Utf8.encode t.lexeme)) :
    Shows written (tokens.map fun t => (t.kind, t.lexeme)) := by
  generalize htexts : tokens.map Token.lexeme = texts at h
  cases h with
  | nothing hlayout =>
    obtain rfl := List.map_eq_nil_iff.mp htexts
    have hend := Shows.nil.layout hlayout fun _ => rfl
    rwa [List.append_nil] at hend
  | texts hlayout hrest => exact (hrest.shows htexts hclasses).layout hlayout nofun

/-! ## Tokens of a source -/

/-- A token of a source is in the class of its kind. -/
theorem class_of_mem_words {source : List UInt8} {t : Token} (h : t ∈ words source) :
    ∃ bytes, TokenClass t.kind bytes ∧ t.lexeme = Utf8.decodeLossy bytes := by
  have hend := isEnd_of_mem_words h
  obtain ⟨item, hitem, htoken⟩ := List.mem_filterMap.mp h
  cases item with
  | fault f => cases htoken
  | token t' =>
    cases htoken
    have hmem : .token t ∈ lexicalItems source := by
      rw [lexicalItems_eq]
      exact List.mem_append_left _ hitem
    rcases lexeme_of_mem_items hmem with ⟨last, hlast⟩ | ⟨lexeme, hlexeme, last, hmeaning⟩
    · cases hlast
      cases hend
    · obtain ⟨b, rest, rfl⟩ := munch_of_mem_lexemes hlexeme
      unfold Lexeme.item? at hmeaning
      split at hmeaning
      · cases hmeaning
      · rename_i kind hkind
        cases hmeaning
        exact ⟨_, class_of_munch hkind, rfl⟩
      · cases hmeaning

theorem words_wordsFrom (line : Nat) (pieces : List Lexeme) :
    ((wordsFrom line pieces).filterMap LexicalItem.token?).map (fun t => (t.kind, t.lexeme)) =
      pieces.filterMap Lexeme.word? := by
  induction pieces generalizing line with
  | nil => rfl
  | cons piece rest ih =>
    rw [wordsFrom, List.filterMap_append, List.map_append, ih, List.filterMap_cons]
    obtain ⟨meaning, bytes⟩ := piece
    cases meaning <;> rfl

theorem faults_wordsFrom {pieces : List Lexeme}
    (h : ∀ piece ∈ pieces, ∀ cause, piece.meaning ≠ .fault cause) (line : Nat) :
    (wordsFrom line pieces).filterMap LexicalItem.fault? = [] := by
  induction pieces generalizing line with
  | nil => rfl
  | cons piece rest ih =>
    obtain ⟨hpiece, hrest⟩ := List.forall_mem_cons.mp h
    rw [wordsFrom, List.filterMap_append, ih hrest, List.append_nil]
    obtain ⟨meaning, bytes⟩ := piece
    cases meaning with
    | blank => rfl
    | token kind => rfl
    | fault cause => exact absurd rfl (hpiece cause)

/-- What is shown by a source are its tokens, and there is no fault. -/
theorem Shows.tokenize {source : List UInt8} {shown : List (TokenKind × String)}
    (h : Shows source shown) :
    (words source).map (fun t => (t.kind, t.lexeme)) = shown ∧ (tokenize source).2 = [] := by
  obtain ⟨pieces, hlexed, hclean, hwords⟩ := h
  obtain rfl := lexed_iff.mp hlexed
  refine ⟨(words_wordsFrom 1 _).trans hwords, ?_⟩
  unfold LoxLang.tokenize
  dsimp only
  rw [lexicalItems_eq, List.filterMap_append, faults_wordsFrom hclean]
  rfl

end Lexing

open Lexing

/-- The text of a string token is its value between two quotes, whatever the bytes between them. And when
the texts of the tokens of a source are written in order with any layout between them and at both ends,
what is written is scanned without a fault to tokens of the same kinds, values and texts, followed by one
end of input. -/
theorem layout_irrelevant (source : List UInt8) :
    (∀ t ∈ (tokenize source).1, ∀ value, t.kind = .string value →
        t.lexeme = "\"" ++ value ++ "\"") ∧
      ∀ written, LaidOut ((words source).map Token.lexeme) written →
        (tokenize written).2 = [] ∧ ∃ tokens last, (tokenize written).1 = tokens ++ [.endOn last] ∧
          (∀ t ∈ tokens, t.isEnd = false) ∧
          tokens.map (fun t => (t.kind, t.lexeme)) =
            (words source).map fun t => (t.kind, t.lexeme) := by
  refine ⟨fun t ht value hvalue => ?_, fun written hwritten => ?_⟩
  · rw [tokenize_tokens] at ht
    rcases List.mem_append.mp ht with hword | hend
    · obtain ⟨bytes, hclass, htext⟩ := class_of_mem_words hword
      rw [hvalue] at hclass
      cases hclass with
      | string _ => rw [htext, decodeLossy_string]
    · obtain rfl := List.mem_singleton.mp hend
      cases hvalue
  · have hclasses : ∀ t ∈ words source, TokenClass t.kind (Utf8.encode t.lexeme) := by
      intro t ht
      obtain ⟨bytes, hclass, htext⟩ := class_of_mem_words ht
      rw [htext]
      exact hclass.encoded
    obtain ⟨hwords, hclean⟩ := (hwritten.shows hclasses).tokenize
    exact ⟨hclean, words written, _, tokenize_tokens written, fun t => isEnd_of_mem_words, hwords⟩

/-- A string with nothing but the first byte of a character in it, and a slash: with comments around
them they are scanned again, the replacement character now standing in the string. -/
theorem layout_irrelevant_around_slash :
    (words [34, 0xC3, 34, 47]).map Token.lexeme = ["\"\uFFFD\"", "/"] ∧
      LaidOut ["\"\uFFFD\"", "/"]
        [47, 47, 97, 10, 34, 0xEF, 0xBF, 0xBD, 34, 9, 47, 47, 34, 10, 47, 32, 47, 47] ∧
      (tokenize [47, 47, 97, 10, 34, 0xEF, 0xBF, 0xBD, 34, 9, 47, 47, 34, 10, 47, 32, 47, 47]).2 = [] ∧
      ∃ tokens last,
        (tokenize [47, 47, 97, 10, 34, 0xEF, 0xBF, 0xBD, 34, 9, 47, 47, 34, 10, 47, 32, 47, 47]).1 =
          tokens ++ [.endOn last] ∧
        tokens.map (fun t => (t.kind, t.lexeme)) =
          [(.string "\uFFFD", "\"\uFFFD\""), (.symbol .slash, "/")] := by
  have hshown : (words [34, 0xC3, 34, 47]).map (fun t => (t.kind, t.lexeme)) =
      [(.string "\uFFFD", "\"\uFFFD\""), (.symbol .slash, "/")] := by
    cbv
  have htexts : (words [34, 0xC3, 34, 47]).map Token.lexeme = ["\"\uFFFD\"", "/"] := by
    decide +kernel
  have hstring : Utf8.encode "\"\uFFFD\"" = [34, 0xEF, 0xBF, 0xBD, 34] := by
    decide +kernel
  have hslash : Utf8.encode "/" = [47] := by
    decide +kernel
  have hfirst : Spacing false [47, 47, 97, 10] := @Spacing.comment false [97] [] (by decide) .nil
  have hsecond : Spacing false [47, 47, 34, 10] := @Spacing.comment false [34] [] (by decide) .nil
  have hlast : Spacing true [32, 47, 47] := .blank rfl (.openComment rfl (by decide))
  have hend : Separated ["/"] (Utf8.encode "/" ++ [32, 47, 47]) :=
    .last hlast (by decide +kernel)
  rw [hslash] at hend
  have hseparated : Separated ["\"\uFFFD\"", "/"]
      (Utf8.encode "\"\uFFFD\"" ++ 9 :: [47, 47, 34, 10] ++ [47, 32, 47, 47]) :=
    .next rfl hsecond hend
  rw [hstring] at hseparated
  have hwritten := LaidOut.texts hfirst hseparated
  refine ⟨htexts, hwritten, ?_⟩
  rw [← htexts] at hwritten
  obtain ⟨hclean, tokens, last, htokens, -, hsame⟩ :=
    (layout_irrelevant [34, 0xC3, 34, 47]).2 _ hwritten
  exact ⟨hclean, tokens, last, htokens, hsame.trans hshown⟩

end LoxLang
