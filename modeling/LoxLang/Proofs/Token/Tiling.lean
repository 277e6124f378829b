import LoxLang.Proofs.Token.Classes
import LoxLang.Token.Scanner

/-!
How a source is cut into pieces. `Cut` says which piece comes first in the classes of tokens alone: the
longest token, or one space, a comment, an open string or a byte that starts no token. A source is cut
in one way only (`lexed_iff`), its pieces tile it, and a scanner gives the items of these pieces, then
the end of input, and then nothing (`scanner_stream`).
-/
namespace LoxLang
set_option autoImplicit false

namespace Lexing

/-! ## Pieces -/

/-- The piece that comes first in the input, and what follows it. -/
inductive Cut : Lexeme → List UInt8 → Prop
  | space {b : UInt8} (rest : List UInt8) : isBlank b = true → Cut ⟨.blank, [b]⟩ rest
  /-- A comment goes on to the end of the line. -/
  | comment {body rest : List UInt8} :
    lineFeed ∉ body → (∀ b ∈ rest.head?, b = lineFeed) → Cut ⟨.blank, 47 :: 47 :: body⟩ rest
  /-- The longest token, unless two slashes open a comment. -/
  | token {kind : TokenKind} {bytes rest : List UInt8} :
    TokenClass kind bytes → ¬ [47, 47] <+: bytes ++ rest →
    (∀ other longer, TokenClass other longer → longer <+: bytes ++ rest →
      longer.length ≤ bytes.length) →
    Cut ⟨.token kind, bytes⟩ rest
  /-- A string that is not closed covers all that is left. -/
  | openString {body : List UInt8} :
    quote ∉ body → Cut ⟨.fault .unterminatedString, quote :: body⟩ []
  | stray {b : UInt8} {rest : List UInt8} :
    isBlank b = false → b ≠ quote →
    (∀ kind bytes, TokenClass kind bytes → ¬ bytes <+: b :: rest) →
    Cut ⟨.fault .unexpectedCharacter, [b]⟩ rest

/-- A source is cut into pieces from first to last. -/
inductive Lexed : List UInt8 → List Lexeme → Prop
  | nil : Lexed [] []
  | cons {lexeme : Lexeme} {rest : List UInt8} {pieces : List Lexeme} :
    Cut lexeme rest → Lexed rest pieces → Lexed (lexeme.bytes ++ rest) (lexeme :: pieces)

theorem TokenClass.ne_nil {kind : TokenKind} {bytes : List UInt8} (h : TokenClass kind bytes) :
    bytes ≠ [] := by
  cases h with
  | symbol s => cases s <;> nofun
  | keyword k =>
    obtain ⟨b, tail, hbytes, -⟩ := keyword_bytes k
    rw [hbytes]
    nofun
  | identifier _ _ _ => nofun
  | integer hsome _ => exact hsome
  | fraction hsome _ _ _ => exact List.append_ne_nil_of_left_ne_nil hsome _
  | string _ => nofun

theorem ne_lineFeed_of_not_mem {body : List UInt8} (h : lineFeed ∉ body) :
    ∀ b ∈ body, (b != lineFeed) = true := by
  intro b hb
  rw [bne_iff_ne]
  rintro rfl
  exact h hb

section Cuts
variable {b : UInt8} {rest : List UInt8} {lexeme : Lexeme}

theorem Munch.eq_mk {m : Munch} {meaning : Meaning} {extra : Nat} (hmeaning : m.meaning = meaning)
    (hextra : m.extra = extra) : m = ⟨meaning, extra⟩ := by
  subst hmeaning hextra
  rfl

theorem munch_space (h : isBlank b = true) (rest : List UInt8) : munch b rest = ⟨.blank, 0⟩ :=
  if_pos h

theorem munch_comment {body : List UInt8} (hbody : lineFeed ∉ body)
    (hstops : ∀ b ∈ rest.head?, b = lineFeed) :
    munch 47 (47 :: body ++ rest) = ⟨.blank, (47 :: body).length⟩ := by
  have hrun : ∀ b ∈ 47 :: body, (b != lineFeed) = true :=
    List.forall_mem_cons.mpr ⟨by decide, ne_lineFeed_of_not_mem hbody⟩
  have hlast : rest.takeWhile (· != lineFeed) = [] := by
    cases rest with
    | nil => rfl
    | cons b more =>
      rw [hstops b rfl]
      exact List.takeWhile_cons_of_neg (by decide)
  have hmunch : munch 47 (47 :: body ++ rest) =
      ⟨.blank, ((47 :: body ++ rest).takeWhile (· != lineFeed)).length⟩ := rfl
  rw [hmunch, takeWhile_run hrun, hlast, List.append_nil]

/-- Something blank that is cut off is a space or a comment. -/
theorem blank_of_munch (h : (munch b rest).meaning = .blank) :
    (isBlank b = true ∧ (munch b rest).extra = 0) ∨
      ∃ body more, b = 47 ∧ rest = 47 :: body ++ more ∧ lineFeed ∉ body ∧
        (∀ c ∈ more.head?, c = lineFeed) ∧ (munch b rest).extra = (47 :: body).length := by
  have hmunched := munched b rest
  generalize munch b rest = m at h hmunched ⊢
  cases hmunched with
  | space hblank => exact .inl ⟨hblank, rfl⟩
  | @comment more hb hrest =>
    obtain ⟨body, last, rfl, htake, hbody, hstops⟩ := exists_run (· != lineFeed) more
    refine .inr ⟨body, last, hb, hrest, fun hmem => absurd (hbody lineFeed hmem) (by decide),
      fun c hc => ?_, ?_⟩
    · exact bne_eq_false_iff_eq.mp (hstops c hc)
    · rw [hrest, List.takeWhile_cons_of_pos (by decide), htake]
  | string hb =>
    rcases closed_or_open rest with hopen | ⟨body, more, rfl, hbody⟩
    · rw [munchString_open hopen] at h
      cases h
    · rw [munchString_closed hbody] at h
      cases h
  | number hdigit => cases h
  | word hword => cases h
  | symbol hplain hopen =>
    rcases munchSymbol_cases b rest with ⟨s, more, -, -, hm⟩ | ⟨s, -, hm⟩ | ⟨-, hm⟩
    · rw [hm] at h
      cases h
    · rw [hm] at h
      cases h
    · rw [hm] at h
      cases h

/-- A fault that is cut off is an open string or a single byte. -/
theorem fault_of_munch {cause : LexicalCause} (h : (munch b rest).meaning = .fault cause) :
    (b = quote ∧ quote ∉ rest ∧ cause = .unterminatedString ∧
        (munch b rest).extra = rest.length) ∨
      (IsPlain b ∧ ¬ [47, 47] <+: b :: rest ∧ cause = .unexpectedCharacter ∧
        (munch b rest).extra = 0) := by
  have hmunched := munched b rest
  generalize munch b rest = m at h hmunched ⊢
  cases hmunched with
  | space hblank => cases h
  | comment hb hrest => cases h
  | string hb =>
    rcases closed_or_open rest with hopen | ⟨body, more, rfl, hbody⟩
    · rw [munchString_open hopen] at h ⊢
      cases h
      exact .inl ⟨hb, hopen, rfl, rfl⟩
    · rw [munchString_closed hbody] at h
      cases h
  | number hdigit => cases h
  | word hword => cases h
  | symbol hplain hopen =>
    rcases munchSymbol_cases b rest with ⟨s, more, -, -, hm⟩ | ⟨s, -, hm⟩ | ⟨-, hm⟩
    · rw [hm] at h
      cases h
    · rw [hm] at h
      cases h
    · rw [hm] at h ⊢
      cases h
      exact .inr ⟨hplain, hopen, rfl, rfl⟩

theorem not_opens_of_munch {kind : TokenKind} (h : (munch b rest).meaning = .token kind) :
    ¬ [47, 47] <+: b :: rest := by
  rintro ⟨more, hmore⟩
  cases hmore
  cases h

/-- What is cut off the head of the input comes first in it. -/
theorem cut_munch (b : UInt8) (rest : List UInt8) :
    Cut ⟨(munch b rest).meaning, b :: rest.take (munch b rest).extra⟩
      (rest.drop (munch b rest).extra) := by
  have hinput : b :: rest.take (munch b rest).extra ++ rest.drop (munch b rest).extra =
      b :: rest := congrArg (b :: ·) (List.take_append_drop _ rest)
  cases hmeaning : (munch b rest).meaning with
  | blank =>
    rcases blank_of_munch hmeaning with ⟨hblank, hextra⟩ | ⟨body, more, rfl, rfl, hbody, hstops, hextra⟩
    · rw [hextra]
      exact .space rest hblank
    · rw [hextra, List.take_left, List.drop_left]
      exact .comment hbody hstops
  | token kind =>
    have hopen := not_opens_of_munch hmeaning
    refine .token (class_of_munch hmeaning) (by rwa [hinput]) fun other longer hclass hfront => ?_
    rw [hinput] at hfront
    obtain ⟨-, -, hlength, -⟩ := covers_of_class hclass hfront hopen
    rwa [List.length_cons, List.length_take_of_le (munch_extra_le b rest)]
  | fault cause =>
    rcases fault_of_munch hmeaning with ⟨rfl, hbody, rfl, hextra⟩ | ⟨hplain, hopen, rfl, hextra⟩
    · rw [hextra, List.take_length, List.drop_length]
      exact .openString hbody
    · rw [hextra]
      refine .stray hplain.blank (ne_of_beq_false hplain.quote) fun kind bytes hclass hfront => ?_
      obtain ⟨other, htoken, -⟩ := covers_of_class hclass hfront hopen
      cases htoken.symm.trans hmeaning

/-- What comes first in the input is what is cut off its head. -/
theorem Cut.munch_eq (h : Cut lexeme rest) : ∃ b tail, lexeme.bytes = b :: tail ∧
    munch b (tail ++ rest) = ⟨lexeme.meaning, tail.length⟩ := by
  cases h with
  | @space b _ hblank => exact ⟨b, [], rfl, munch_space hblank rest⟩
  | @comment body _ hbody hstops => exact ⟨47, 47 :: body, rfl, munch_comment hbody hstops⟩
  | @token kind bytes _ hclass hopen hlongest =>
    cases bytes with
    | nil => exact absurd rfl hclass.ne_nil
    | cons b tail =>
      refine ⟨b, tail, rfl, ?_⟩
      obtain ⟨other, hother, hle, hsame⟩ :=
        covers_of_class hclass (List.prefix_append _ _) hopen
      have hcut := class_of_munch hother
      have hfront : b :: (tail ++ rest).take (munch b (tail ++ rest)).extra <+:
          b :: (tail ++ rest) := List.cons_prefix_cons.mpr ⟨rfl, List.take_prefix _ _⟩
      have hge := hlongest other _ hcut hfront
      rw [List.length_cons, List.length_take_of_le (munch_extra_le b _)] at hge
      have hlength := Nat.le_antisymm hle hge
      obtain rfl := hsame hlength
      exact Munch.eq_mk hother (Nat.succ.inj hlength).symm
  | @openString body hbody =>
    refine ⟨quote, body, rfl, ?_⟩
    rw [List.append_nil]
    exact munchString_open hbody
  | @stray b _ hblank hquote hnone =>
    refine ⟨b, [], rfl, ?_⟩
    rw [List.nil_append]
    cases hmeaning : (munch b rest).meaning with
    | blank =>
      rcases blank_of_munch hmeaning with ⟨hspace, -⟩ | ⟨body, more, rfl, -⟩
      · cases hblank.symm.trans hspace
      · exact absurd (List.cons_prefix_cons.mpr ⟨rfl, List.nil_prefix⟩)
          (hnone _ _ (.symbol .slash))
    | token kind =>
      refine absurd ?_ (hnone kind _ (class_of_munch hmeaning))
      exact List.cons_prefix_cons.mpr ⟨rfl, List.take_prefix _ _⟩
    | fault cause =>
      rcases fault_of_munch hmeaning with ⟨hopens, -⟩ | ⟨-, -, rfl, hextra⟩
      · exact absurd hopens hquote
      · exact Munch.eq_mk hmeaning hextra

end Cuts

/-! ## Sources -/

theorem lexemesFrom_eq (skip : Nat) (source : List UInt8) :
    lexemesFrom skip source = lexemes (source.drop skip) := by
  induction source generalizing skip with
  | nil =>
    rw [List.drop_nil]
    cases skip <;> rfl
  | cons b rest ih =>
    cases skip with
    | zero => rfl
    | succ skip => exact ih skip

theorem lexed_lexemesFrom (skip : Nat) (source : List UInt8) :
    Lexed (source.drop skip) (lexemesFrom skip source) := by
  induction source generalizing skip with
  | nil =>
    rw [List.drop_nil]
    cases skip <;> exact .nil
  | cons b rest ih =>
    cases skip with
    | succ skip => exact ih skip
    | zero =>
      have hcons := Lexed.cons (cut_munch b rest) (ih (munch b rest).extra)
      have hinput : b :: rest.take (munch b rest).extra ++ rest.drop (munch b rest).extra =
          b :: rest := congrArg (b :: ·) (List.take_append_drop _ rest)
      rw [hinput] at hcons
      exact hcons

/-- A source is cut into its lexemes, and in no other way. -/
theorem lexed_iff {source : List UInt8} {pieces : List Lexeme} :
    Lexed source pieces ↔ pieces = lexemes source := by
  constructor
  · intro h
    induction h with
    | nil => rfl
    | @cons lexeme rest pieces hcut _ ih =>
      obtain ⟨b, tail, hbytes, hmunch⟩ := hcut.munch_eq
      have hlexeme : lexeme = ⟨lexeme.meaning, b :: (tail ++ rest).take tail.length⟩ := by
        rw [List.take_left, ← hbytes]
      rw [hbytes, List.cons_append, lexemes, lexemesFrom, hmunch, lexemesFrom_eq, List.drop_left,
        ← ih, ← hlexeme]
  · rintro rfl
    exact lexed_lexemesFrom 0 source

end Lexing

/-! ## Scanners -/

open Lexing

namespace Scanner

/-- The items that a scanner has still to give. -/
def pending (s : Scanner) : List LexicalItem :=
  match s.rest with
  | none => []
  | some rest => itemsFrom s.line (lexemes rest)

theorem nextFrom_eq (line skip : Nat) (source : List UInt8) :
    itemsFrom line (lexemesFrom skip source) =
      (nextFrom line skip source).1 :: (nextFrom line skip source).2.pending := by
  induction source generalizing line skip with
  | nil => cases skip <;> rfl
  | cons b rest ih =>
    cases skip with
    | succ skip => exact ih line skip
    | zero =>
      rw [lexemesFrom, itemsFrom, nextFrom]
      dsimp only
      split
      · rename_i item hitem
        rw [hitem, lexemesFrom_eq]
        rfl
      · rename_i hitem
        rw [hitem, ih]
        rfl

/-- A scanner gives the first item that is pending, and the others are pending after it. -/
theorem next_eq (s : Scanner) : s.next.1 = s.pending.head? ∧ s.next.2.pending = s.pending.tail := by
  obtain ⟨rest, line⟩ := s
  cases rest with
  | none => exact ⟨rfl, rfl⟩
  | some rest =>
    have hitems : pending ⟨some rest, line⟩ = _ := nextFrom_eq line 0 rest
    rw [hitems]
    exact ⟨rfl, rfl⟩

theorem pending_after (s : Scanner) (n : Nat) : (s.after n).pending = s.pending.drop n := by
  induction n generalizing s with
  | zero => rfl
  | succ n ih => rw [after, ih, s.next_eq.2, List.drop_tail]

/-- The items that a scanner gives one after the other are those of the source, and then there is
nothing. -/
theorem next_after (source : List UInt8) (n : Nat) :
    ((start source).after n).next.1 = (lexicalItems source)[n]? := by
  rw [(next_eq _).1, pending_after, List.head?_drop]
  rfl

end Scanner

/-- A source is cut into pieces in exactly one way, and the pieces tile it. A scanner gives an item for
each piece that is not blank, on the line on which the piece ends, then the end of input, which is
no such item, and nothing from then on. -/
theorem scanner_stream (source : List UInt8) : ∃ pieces : List Lexeme,
    (∀ other, Lexed source other ↔ other = pieces) ∧ pieces.flatMap Lexeme.bytes = source ∧
      (∀ n, ((Scanner.start source).after n).next.1 =
        (wordsFrom 1 pieces ++ [.token (.endOn (1 + lineFeeds source))])[n]?) ∧
      ∀ t, .token t ∈ wordsFrom 1 pieces → t.isEnd = false := by
  refine ⟨lexemes source, fun _ => lexed_iff, flatMap_lexemes source, fun n => ?_,
    fun t => isEnd_of_mem_wordsFrom⟩
  rw [← lexicalItems_eq]
  exact Scanner.next_after source n

end LoxLang
