import LoxLang.Proofs.Token.Joining
import LoxLang.Proofs.Token.Spelling

/-!
The classes of tokens. `TokenClass` says which bytes are a token of which kind. What is cut off the head
of the input is in a class if it is a token (`class_of_munch`), and it is the longest prefix of the
input that is in one (`covers_of_class`), unless two slashes open a comment.
-/
namespace LoxLang
set_option autoImplicit false

/-! ## Classes -/

/-- The bytes of a symbol. -/
def Symbol.bytes : Symbol → List UInt8
  | .leftParen => [40]
  | .rightParen => [41]
  | .leftBrace => [123]
  | .rightBrace => [125]
  | .comma => [44]
  | .dot => [46]
  | .minus => [45]
  | .plus => [43]
  | .semicolon => [59]
  | .slash => [47]
  | .star => [42]
  | .bang => [33]
  | .bangEqual => [33, 61]
  | .equal => [61]
  | .equalEqual => [61, 61]
  | .greater => [62]
  | .greaterEqual => [62, 61]
  | .less => [60]
  | .lessEqual => [60, 61]

/-- The bytes of a reserved word. -/
def Keyword.bytes (k : Keyword) : List UInt8 :=
  k.spelling.toList.map fun c => .ofNat c.toNat

namespace Lexing

/-- The bytes that are tokens of a kind. -/
inductive TokenClass : TokenKind → List UInt8 → Prop
  | symbol (s : Symbol) : TokenClass (.symbol s) s.bytes
  | keyword (k : Keyword) : TokenClass (.keyword k) k.bytes
  | identifier {b : UInt8} {tail : List UInt8} :
    isWordStart b = true → (∀ c ∈ tail, isWordPart c = true) → (∀ k, b :: tail ≠ Keyword.bytes k) →
    TokenClass .identifier (b :: tail)
  | integer {digits : List UInt8} :
    digits ≠ [] → (∀ d ∈ digits, Decimal.isDigit d = true) →
    TokenClass (.number (Decimal.floatOfNumeral digits)) digits
  /-- A point between digits. -/
  | fraction {whole fraction : List UInt8} :
    whole ≠ [] → (∀ d ∈ whole, Decimal.isDigit d = true) →
    fraction ≠ [] → (∀ d ∈ fraction, Decimal.isDigit d = true) →
    TokenClass (.number (Decimal.floatOfNumeral (whole ++ 46 :: fraction))) (whole ++ 46 :: fraction)
  | string {body : List UInt8} :
    quote ∉ body → TokenClass (.string (Utf8.decodeLossy body)) (quote :: (body ++ [quote]))

/-! ## Runs of bytes -/

/-- The run of bytes with some property at the head of the input, and what stops it. -/
theorem exists_run (p : UInt8 → Bool) (input : List UInt8) :
    ∃ run rest, input = run ++ rest ∧ input.takeWhile p = run ∧ (∀ b ∈ run, p b = true) ∧
      ∀ b ∈ rest.head?, p b = false := by
  refine ⟨input.takeWhile p, input.dropWhile p, List.takeWhile_append_dropWhile.symm, rfl, ?_, ?_⟩
  · exact List.all_eq_true.mp List.all_takeWhile
  · intro b hb
    have hstops := List.head?_dropWhile_not p input
    rw [Option.mem_def.mp hb] at hstops
    exact hstops

/-- A run goes on to at least where it is known to go. -/
theorem takeWhile_run {p : UInt8 → Bool} {run : List UInt8} (h : ∀ b ∈ run, p b = true)
    (rest : List UInt8) : (run ++ rest).takeWhile p = run ++ rest.takeWhile p :=
  List.takeWhile_append_of_pos h

/-! ## First bytes -/

theorem starts_of_isDigit {b : UInt8} (h : Decimal.isDigit b = true) :
    isBlank b = false ∧ (b == 47) = false ∧ (b == quote) = false := by
  have hall : ∀ n : Fin 256, Decimal.isDigit (.ofFin n) = true → isBlank (.ofFin n) = false ∧
      (UInt8.ofFin n == 47) = false ∧ (UInt8.ofFin n == quote) = false := by
    decide +kernel
  exact hall b.toFin h

theorem starts_of_isWordStart {b : UInt8} (h : isWordStart b = true) :
    isBlank b = false ∧ (b == 47) = false ∧ (b == quote) = false ∧ Decimal.isDigit b = false := by
  have hall : ∀ n : Fin 256, isWordStart (.ofFin n) = true → isBlank (.ofFin n) = false ∧
      (UInt8.ofFin n == 47) = false ∧ (UInt8.ofFin n == quote) = false ∧
      Decimal.isDigit (.ofFin n) = false := by
    decide +kernel
  exact hall b.toFin h

/-- A byte that starts neither a blank, a literal nor a word. -/
structure IsPlain (b : UInt8) : Prop where
  blank : isBlank b = false
  quote : (b == quote) = false
  digit : Decimal.isDigit b = false
  word : isWordStart b = false

/-- A symbol is a byte of its own or such a byte and an equals sign. -/
theorem symbol_bytes (s : Symbol) : ∃ b, IsPlain b ∧
    ((s.bytes = [b] ∧ symbolOf? b = some s) ∨
      (s.bytes = [b, 61] ∧ symbolWithEqual? b = some s ∧ (b == 47) = false)) := by
  cases s with
  | bangEqual => exact ⟨33, ⟨rfl, rfl, rfl, rfl⟩, .inr ⟨rfl, rfl, rfl⟩⟩
  | equalEqual => exact ⟨61, ⟨rfl, rfl, rfl, rfl⟩, .inr ⟨rfl, rfl, rfl⟩⟩
  | greaterEqual => exact ⟨62, ⟨rfl, rfl, rfl, rfl⟩, .inr ⟨rfl, rfl, rfl⟩⟩
  | lessEqual => exact ⟨60, ⟨rfl, rfl, rfl, rfl⟩, .inr ⟨rfl, rfl, rfl⟩⟩
  | _ => exact ⟨_, ⟨rfl, rfl, rfl, rfl⟩, .inl ⟨rfl, rfl⟩⟩

theorem bytes_of_symbolOf? {b : UInt8} {s : Symbol} (h : symbolOf? b = some s) : s.bytes = [b] := by
  have hall : ∀ n : Fin 256, (symbolOf? (.ofFin n)).all fun s => s.bytes == [.ofFin n] := by
    decide +kernel
  have hb : (symbolOf? b).all fun s => s.bytes == [b] := hall b.toFin
  rw [h] at hb
  exact eq_of_beq hb

theorem bytes_of_symbolWithEqual? {b : UInt8} {s : Symbol} (h : symbolWithEqual? b = some s) :
    s.bytes = [b, 61] ∧ (symbolOf? b).isSome = true := by
  have hall : ∀ n : Fin 256, (symbolWithEqual? (.ofFin n)).all fun s =>
      s.bytes == [.ofFin n, 61] && (symbolOf? (.ofFin n)).isSome := by
    decide +kernel
  have hb : (symbolWithEqual? b).all fun s => s.bytes == [b, 61] && (symbolOf? b).isSome :=
    hall b.toFin
  rw [h] at hb
  obtain ⟨hbytes, hsome⟩ := Bool.and_eq_true_iff.mp hb
  exact ⟨eq_of_beq hbytes, hsome⟩

/-! ## Words -/

theorem lt_of_isWordPart {b : UInt8} (h : isWordPart b = true) : b < 128 := by
  have hall : ∀ n : Fin 256, isWordPart (.ofFin n) = true → UInt8.ofFin n < 128 := by
    decide +kernel
  exact hall b.toFin h

theorem isWordPart_of_isWordStart {b : UInt8} (h : isWordStart b = true) : isWordPart b = true := by
  rw [isWordPart, h]
  rfl

/-- Bytes below 128 are characters of their own. -/
theorem decodeLossy_ascii {bytes : List UInt8} (h : ∀ b ∈ bytes, b < 128) :
    Utf8.decodeLossy bytes = String.ofList (bytes.map fun b => Char.ofNat b.toNat) := by
  have hpieces : Utf8.piecesFrom none bytes =
      bytes.map fun b => .character (Char.ofNat b.toNat) := by
    induction bytes with
    | nil => rfl
    | cons b rest ih =>
      obtain ⟨hb, hrest⟩ := List.forall_mem_cons.mp h
      have hstart : Utf8.start b = .inl (.character (Char.ofNat b.toNat)) := if_pos hb
      rw [Utf8.piecesFrom, hstart, List.map_cons, ← ih hrest]
  rw [Utf8.decodeLossy, Utf8.pieces, hpieces, List.map_map]
  rfl

theorem byte_of_char {b : UInt8} (h : b < 128) : UInt8.ofNat (Char.ofNat b.toNat).toNat = b := by
  have hall : ∀ n : Fin 256, UInt8.ofFin n < 128 →
      UInt8.ofNat (Char.ofNat (UInt8.ofFin n).toNat).toNat = UInt8.ofFin n := by
    decide +kernel
  exact hall b.toFin h

/-- A word of such bytes reads as a reserved word only if it is that word. -/
theorem eq_bytes_of_decodeLossy {word : List UInt8} (hword : ∀ b ∈ word, isWordPart b = true)
    {k : Keyword} (h : Utf8.decodeLossy word = k.spelling) : word = k.bytes := by
  have hascii : ∀ b ∈ word, b < 128 := fun b hb => lt_of_isWordPart (hword b hb)
  rw [decodeLossy_ascii hascii] at h
  rw [Keyword.bytes, ← h, String.toList_ofList, List.map_map]
  calc word = word.map id := (List.map_id word).symm
    _ = _ := List.map_congr_left fun b hb => (byte_of_char (hascii b hb)).symm

theorem wordKind_bytes (k : Keyword) : wordKind k.bytes = .keyword k := by
  cases k <;> rfl

/-- A reserved word is a word. -/
theorem keyword_bytes (k : Keyword) : ∃ b tail, k.bytes = b :: tail ∧
    isWordStart b = true ∧ ∀ c ∈ tail, isWordPart c = true := by
  have hwords : ∀ k : Keyword, (match k.bytes with
      | [] => false
      | b :: tail => isWordStart b && tail.all isWordPart) = true := by
    intro k
    cases k <;> rfl
  have hk := hwords k
  split at hk
  · cases hk
  · rename_i b tail hbytes
    obtain ⟨hb, htail⟩ := Bool.and_eq_true_iff.mp hk
    exact ⟨b, tail, hbytes, hb, List.all_eq_true.mp htail⟩

theorem wordKind_of_ne {b : UInt8} {tail : List UInt8} (hb : isWordStart b = true)
    (htail : ∀ c ∈ tail, isWordPart c = true) (hk : ∀ k, b :: tail ≠ Keyword.bytes k) :
    wordKind (b :: tail) = .identifier := by
  have hword : ∀ c ∈ b :: tail, isWordPart c = true :=
    List.forall_mem_cons.mpr ⟨isWordPart_of_isWordStart hb, htail⟩
  unfold wordKind
  split
  · rename_i k hspelled
    have hspelling := (Keyword.spelling_of_ofSpelling? hspelled).symm
    exact absurd (eq_bytes_of_decodeLossy hword hspelling) (hk k)
  · rfl

theorem class_wordKind {b : UInt8} {tail : List UInt8} (hb : isWordStart b = true)
    (htail : ∀ c ∈ tail, isWordPart c = true) : TokenClass (wordKind (b :: tail)) (b :: tail) := by
  by_cases hk : ∃ k, b :: tail = Keyword.bytes k
  · obtain ⟨k, hbytes⟩ := hk
    rw [hbytes, wordKind_bytes]
    exact .keyword k
  · have hk := not_exists.mp hk
    rw [wordKind_of_ne hb htail hk]
    exact .identifier hb htail hk

/-! ## What is cut off -/

/-- What is cut off, for each way in which the input can start. -/
inductive Munched (b : UInt8) (rest : List UInt8) : Munch → Prop
  | space : isBlank b = true → Munched b rest ⟨.blank, 0⟩
  | comment {more : List UInt8} :
    b = 47 → rest = 47 :: more → Munched b rest ⟨.blank, (rest.takeWhile (· != lineFeed)).length⟩
  | string : b = quote → Munched b rest (munchString rest)
  | number :
    Decimal.isDigit b = true → Munched b rest
      ⟨.token (.number (Decimal.floatOfNumeral (b :: rest.take (numeralExtra rest)))),
        numeralExtra rest⟩
  | word :
    isWordStart b = true → Munched b rest
      ⟨.token (wordKind (b :: rest.takeWhile isWordPart)), (rest.takeWhile isWordPart).length⟩
  | symbol : IsPlain b → ¬ [47, 47] <+: b :: rest → Munched b rest (munchSymbol b rest)

section Heads
variable {b : UInt8} {rest : List UInt8}

theorem opensComment_iff : (b == 47 && rest.head? == some 47) = true ↔ [47, 47] <+: b :: rest := by
  rw [Bool.and_eq_true, beq_iff_eq, beq_iff_eq, List.cons_prefix_cons]
  refine and_congr eq_comm ?_
  cases rest with
  | nil => exact ⟨nofun, fun h => absurd (List.prefix_nil.mp h) (List.cons_ne_nil _ _)⟩
  | cons c rest =>
    rw [List.cons_prefix_cons, List.head?_cons, Option.some_inj, eq_comm]
    exact (and_iff_left List.nil_prefix).symm

theorem munched (b : UInt8) (rest : List UInt8) : Munched b rest (munch b rest) := by
  unfold munch
  split
  · rename_i hblank
    exact .space hblank
  · rename_i hblank
    split
    · rename_i hcomment
      obtain ⟨hb, more, hmore⟩ := List.cons_prefix_cons.mp (opensComment_iff.mp hcomment)
      exact .comment hb.symm hmore.symm
    · rename_i hcomment
      split
      · rename_i hquote
        exact .string (eq_of_beq hquote)
      · rename_i hquote
        split
        · rename_i hdigit
          exact .number hdigit
        · rename_i hdigit
          split
          · rename_i hword
            exact .word hword
          · rename_i hword
            rw [Bool.not_eq_true] at hblank hquote hdigit hword
            exact .symbol ⟨hblank, hquote, hdigit, hword⟩ (mt opensComment_iff.mpr hcomment)

theorem munch_number (h : Decimal.isDigit b = true) :
    munch b rest = ⟨.token (.number (Decimal.floatOfNumeral (b :: rest.take (numeralExtra rest)))),
      numeralExtra rest⟩ := by
  obtain ⟨hblank, hslash, hquote⟩ := starts_of_isDigit h
  simp [munch, hblank, hslash, hquote, h]

theorem munch_word (h : isWordStart b = true) :
    munch b rest = ⟨.token (wordKind (b :: rest.takeWhile isWordPart)),
      (rest.takeWhile isWordPart).length⟩ := by
  obtain ⟨hblank, hslash, hquote, hdigit⟩ := starts_of_isWordStart h
  simp [munch, hblank, hslash, hquote, hdigit, h]

theorem munch_symbol (h : IsPlain b) (hopen : ¬ [47, 47] <+: b :: rest) :
    munch b rest = munchSymbol b rest := by
  have hcomment := mt opensComment_iff.mp hopen
  simp [munch, h.blank, h.quote, h.digit, h.word, hcomment]

end Heads

/-! ## Numerals and strings -/

theorem length_takeWhile_le_numeralExtra (rest : List UInt8) :
    (rest.takeWhile Decimal.isDigit).length ≤ numeralExtra rest := by
  unfold numeralExtra
  dsimp only
  split
  · split
    · omega
    · exact Nat.le_refl _
  · exact Nat.le_refl _

theorem takeWhile_whole {whole : List UInt8} (h : ∀ d ∈ whole, Decimal.isDigit d = true)
    (more : List UInt8) : (whole ++ 46 :: more).takeWhile Decimal.isDigit = whole := by
  rw [takeWhile_run h, List.takeWhile_cons_of_neg (by decide), List.append_nil]

theorem numeralExtra_fraction {whole : List UInt8} {d : UInt8}
    (hwhole : ∀ d ∈ whole, Decimal.isDigit d = true) (hd : Decimal.isDigit d = true)
    (more : List UInt8) :
    numeralExtra (whole ++ 46 :: d :: more) =
      whole.length + 2 + (more.takeWhile Decimal.isDigit).length := by
  unfold numeralExtra
  dsimp only
  rw [takeWhile_whole hwhole, List.drop_left]
  exact if_pos hd

/-- The bytes of a numeral after its first digit, whole or with a fraction. -/
theorem numeralExtra_cases (rest : List UInt8) : ∃ whole after, rest = whole ++ after ∧
    (∀ d ∈ whole, Decimal.isDigit d = true) ∧
    (numeralExtra rest = whole.length ∨ ∃ d fraction more, after = 46 :: d :: fraction ++ more ∧
      (∀ c ∈ d :: fraction, Decimal.isDigit c = true) ∧
      numeralExtra rest = (whole ++ 46 :: d :: fraction).length) := by
  obtain ⟨whole, after, rfl, htake, hwhole, -⟩ := exists_run Decimal.isDigit rest
  refine ⟨whole, after, rfl, hwhole, ?_⟩
  by_cases hpoint : ∃ d more, after = 46 :: d :: more ∧ Decimal.isDigit d = true
  · obtain ⟨d, more, rfl, hd⟩ := hpoint
    obtain ⟨fraction, last, rfl, hfraction, hdigits, -⟩ := exists_run Decimal.isDigit more
    refine .inr ⟨d, fraction, last, rfl, List.forall_mem_cons.mpr ⟨hd, hdigits⟩, ?_⟩
    rw [numeralExtra_fraction hwhole hd, hfraction]
    simp only [List.length_append, List.length_cons]
    omega
  · left
    unfold numeralExtra
    dsimp only
    rw [htake, List.drop_left]
    split
    · rename_i d more
      exact if_neg fun hd => hpoint ⟨d, more, rfl, hd⟩
    · rfl

theorem ne_quote_of_not_mem {body : List UInt8} (h : quote ∉ body) :
    ∀ b ∈ body, (b != quote) = true := by
  intro b hb
  rw [bne_iff_ne]
  rintro rfl
  exact h hb

theorem munchString_closed {body : List UInt8} (h : quote ∉ body) (more : List UInt8) :
    munchString (body ++ quote :: more) =
      ⟨.token (.string (Utf8.decodeLossy body)), body.length + 1⟩ := by
  have hbody : (body ++ quote :: more).takeWhile (· != quote) = body := by
    rw [takeWhile_run (ne_quote_of_not_mem h), List.takeWhile_cons_of_neg (by decide), List.append_nil]
  unfold munchString
  dsimp only
  rw [hbody, if_pos]
  rw [List.length_append, List.length_cons]
  omega

theorem munchString_open {body : List UInt8} (h : quote ∉ body) :
    munchString body = ⟨.fault .unterminatedString, body.length⟩ := by
  have hbody : body.takeWhile (· != quote) = body := by
    have hrun := takeWhile_run (ne_quote_of_not_mem h) []
    rwa [List.append_nil, List.takeWhile_nil, List.append_nil] at hrun
  unfold munchString
  dsimp only
  rw [hbody, if_neg (Nat.lt_irrefl _)]

/-- A string is closed by the first quote, and open if there is none. -/
theorem closed_or_open (rest : List UInt8) :
    quote ∉ rest ∨ ∃ body more, rest = body ++ quote :: more ∧ quote ∉ body := by
  obtain ⟨body, after, rfl, -, hbody, hstops⟩ := exists_run (· != quote) rest
  have hnone : quote ∉ body := fun hmem => absurd (hbody quote hmem) nofun
  cases after with
  | nil =>
    rw [List.append_nil]
    exact .inl hnone
  | cons b more =>
    have hb := hstops b rfl
    rw [bne_eq_false_iff_eq] at hb
    exact .inr ⟨body, more, by rw [hb], hnone⟩

/-! ## Symbols -/

theorem munchSymbol_cases (b : UInt8) (rest : List UInt8) :
    (∃ s more, symbolWithEqual? b = some s ∧ rest = 61 :: more ∧
        munchSymbol b rest = ⟨.token (.symbol s), 1⟩) ∨
      (∃ s, symbolOf? b = some s ∧ munchSymbol b rest = ⟨.token (.symbol s), 0⟩) ∨
      symbolOf? b = none ∧ munchSymbol b rest = ⟨.fault .unexpectedCharacter, 0⟩ := by
  unfold munchSymbol
  split
  · rename_i s more hs
    exact .inl ⟨s, more, hs, rfl, rfl⟩
  · right
    cases hs : symbolOf? b with
    | some s => exact .inl ⟨s, rfl, rfl⟩
    | none => exact .inr ⟨rfl, rfl⟩

/-! ## Longest tokens -/

section Longest
variable {b : UInt8} {rest : List UInt8} {kind : TokenKind} {bytes : List UInt8}

/-- What is cut off is a token of its class. -/
theorem class_of_munch (h : (munch b rest).meaning = .token kind) :
    TokenClass kind (b :: rest.take (munch b rest).extra) := by
  have hmunched := munched b rest
  generalize munch b rest = m at h hmunched ⊢
  cases hmunched with
  | space hblank => cases h
  | comment hb hrest => cases h
  | string hb =>
    subst hb
    rcases closed_or_open rest with hopen | ⟨body, more, rfl, hbody⟩
    · rw [munchString_open hopen] at h
      cases h
    · rw [munchString_closed hbody] at h ⊢
      cases h
      have htake : (body ++ quote :: more).take (body.length + 1) = body ++ [quote] :=
        List.take_length_add_append 1
      dsimp only
      rw [htake]
      exact .string hbody
  | number hdigit =>
    cases h
    obtain ⟨whole, after, rfl, hwhole, hextra⟩ := numeralExtra_cases rest
    have hdigits : ∀ c ∈ b :: whole, Decimal.isDigit c = true :=
      List.forall_mem_cons.mpr ⟨hdigit, hwhole⟩
    rcases hextra with hextra | ⟨d, fraction, more, rfl, hfraction, hextra⟩
    · rw [hextra, List.take_left]
      exact .integer (List.cons_ne_nil b whole) hdigits
    · rw [hextra, ← List.append_assoc, List.take_left, ← List.cons_append]
      exact .fraction (List.cons_ne_nil b whole) hdigits (List.cons_ne_nil d fraction) hfraction
  | word hword =>
    cases h
    obtain ⟨tail, after, rfl, htake, htail, -⟩ := exists_run isWordPart rest
    rw [htake, List.take_left]
    exact class_wordKind hword htail
  | symbol hplain hopen =>
    rcases munchSymbol_cases b rest with ⟨s, more, hs, rfl, hm⟩ | ⟨s, hs, hm⟩ | ⟨-, hm⟩
    · rw [hm] at h ⊢
      cases h
      have hbytes := (bytes_of_symbolWithEqual? hs).1
      exact hbytes ▸ .symbol s
    · rw [hm] at h ⊢
      cases h
      have hbytes := bytes_of_symbolOf? hs
      exact hbytes ▸ .symbol s
    · rw [hm] at h
      cases h

/-- What is cut off is a token at least as long as some bytes, and of their kind if it is as long. -/
def Munch.Covers (m : Munch) (kind : TokenKind) (bytes : List UInt8) : Prop :=
  ∃ other, m.meaning = .token other ∧ bytes.length ≤ m.extra + 1 ∧
    (bytes.length = m.extra + 1 → other = kind)

theorem covers_word {tail : List UInt8} (hb : isWordStart b = true)
    (htail : ∀ c ∈ tail, isWordPart c = true) (hfront : tail <+: rest) :
    (munch b rest).Covers (wordKind (b :: tail)) (b :: tail) := by
  obtain ⟨more, rfl⟩ := hfront
  rw [munch_word hb, takeWhile_run htail]
  refine ⟨_, rfl, ?_, fun hlength => ?_⟩
  · simp only [List.length_cons, List.length_append]
    omega
  · simp only [List.length_cons, List.length_append] at hlength
    have hnone : more.takeWhile isWordPart = [] := List.length_eq_zero_iff.mp (by omega)
    rw [hnone, List.append_nil]

theorem covers_number {tail : List UInt8} (hb : Decimal.isDigit b = true) (hfront : tail <+: rest)
    (hlength : tail.length ≤ numeralExtra rest) :
    (munch b rest).Covers (.number (Decimal.floatOfNumeral (b :: tail))) (b :: tail) := by
  rw [munch_number hb]
  refine ⟨_, rfl, Nat.succ_le_succ hlength, fun hsame => ?_⟩
  have hextra : tail.length = numeralExtra rest := Nat.succ.inj hsame
  rw [← hextra, ← List.prefix_iff_eq_take.mp hfront]

theorem covers_symbol {s : Symbol} (hfront : s.bytes <+: b :: rest)
    (hopen : ¬ [47, 47] <+: b :: rest) : (munch b rest).Covers (.symbol s) s.bytes := by
  obtain ⟨c, hplain, hcases⟩ := symbol_bytes s
  have hc : c = b := by
    rcases hcases with ⟨hbytes, -⟩ | ⟨hbytes, -⟩
    · rw [hbytes] at hfront
      exact (List.cons_prefix_cons.mp hfront).1
    · rw [hbytes] at hfront
      exact (List.cons_prefix_cons.mp hfront).1
  subst hc
  rw [munch_symbol hplain hopen]
  rcases hcases with ⟨hbytes, hs⟩ | ⟨hbytes, hs, -⟩
  · rw [hbytes]
    rcases munchSymbol_cases c rest with ⟨t, more, -, -, hm⟩ | ⟨t, ht, hm⟩ | ⟨hnone, -⟩
    · rw [hm]
      exact ⟨_, rfl, Nat.le_add_left 1 1, nofun⟩
    · rw [hm]
      refine ⟨_, rfl, Nat.le_refl 1, fun _ => ?_⟩
      rw [Option.some.inj (ht.symm.trans hs)]
    · cases hnone.symm.trans hs
  · rw [hbytes] at hfront ⊢
    obtain ⟨more, rfl⟩ := (List.cons_prefix_cons.mp hfront).2
    have hm : munchSymbol c (61 :: more) = ⟨.token (.symbol s), 1⟩ := by
      unfold munchSymbol
      rw [hs]
      rfl
    exact ⟨_, congrArg Munch.meaning hm, by rw [List.singleton_append, hm]; exact Nat.le_refl 2,
      fun _ => rfl⟩

/-- No prefix of the input in a class is longer than what is cut off, unless two slashes open a
comment. -/
theorem covers_of_class (hclass : TokenClass kind bytes) (hfront : bytes <+: b :: rest)
    (hopen : ¬ [47, 47] <+: b :: rest) : (munch b rest).Covers kind bytes := by
  cases hclass with
  | symbol s => exact covers_symbol hfront hopen
  | keyword k =>
    obtain ⟨c, tail, hbytes, hc, htail⟩ := keyword_bytes k
    rw [← wordKind_bytes k, hbytes]
    rw [hbytes] at hfront
    obtain ⟨rfl, htails⟩ := List.cons_prefix_cons.mp hfront
    exact covers_word hc htail htails
  | @identifier c tail hc htail hk =>
    obtain ⟨rfl, htails⟩ := List.cons_prefix_cons.mp hfront
    rw [← wordKind_of_ne hc htail hk]
    exact covers_word hc htail htails
  | integer hsome hdigits =>
    cases bytes with
    | nil => exact absurd rfl hsome
    | cons c digits =>
      obtain ⟨hc, hdigits⟩ := List.forall_mem_cons.mp hdigits
      obtain ⟨rfl, hdigitsPrefix⟩ := List.cons_prefix_cons.mp hfront
      refine covers_number hc hdigitsPrefix (Nat.le_trans ?_ (length_takeWhile_le_numeralExtra rest))
      obtain ⟨more, rfl⟩ := hdigitsPrefix
      rw [takeWhile_run hdigits, List.length_append]
      exact Nat.le_add_right _ _
  | @fraction whole fraction hwhole hdigits hfraction hfractionDigits =>
    cases whole with
    | nil => exact absurd rfl hwhole
    | cons c whole =>
      cases fraction with
      | nil => exact absurd rfl hfraction
      | cons d fraction =>
        obtain ⟨hc, hdigits⟩ := List.forall_mem_cons.mp hdigits
        obtain ⟨hd, hfractionDigits⟩ := List.forall_mem_cons.mp hfractionDigits
        rw [List.cons_append] at hfront ⊢
        obtain ⟨rfl, htail⟩ := List.cons_prefix_cons.mp hfront
        refine covers_number hc htail ?_
        obtain ⟨more, rfl⟩ := htail
        rw [List.append_assoc, List.cons_append, List.cons_append,
          numeralExtra_fraction hdigits hd, takeWhile_run hfractionDigits]
        simp only [List.length_append, List.length_cons]
        omega
  | @string body hbody =>
    obtain ⟨rfl, more, rfl⟩ := List.cons_prefix_cons.mp hfront
    have hm : munch quote (body ++ [quote] ++ more) =
        ⟨.token (.string (Utf8.decodeLossy body)), body.length + 1⟩ := by
      rw [List.append_assoc]
      exact munchString_closed hbody more
    rw [hm]
    refine ⟨_, rfl, ?_, fun _ => rfl⟩
    simp only [List.length_append, List.length_cons, List.length_nil]
    omega

end Longest

end Lexing
end LoxLang
