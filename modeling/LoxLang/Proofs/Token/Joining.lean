import LoxLang.Token.Lexing

/-!
Sources that are joined by a line feed. The lexemes of a source tile it, no lexeme other than a string
reaches over a line feed, and a string that is closed ends where it ends on its own; so a source whose
strings are closed is cut into the same lexemes when more follows it on the next line
(`tokenize_joined`), and what follows is cut as it is on its own, only on later lines.
-/
namespace LoxLang
set_option autoImplicit false

def Token.later (t : Token) (lines : Nat) : Token :=
  { t with line := t.line + lines }

namespace Lexing

/-! ## Prefixes -/

theorem takeWhile_append_of_stops {p : UInt8 → Bool} {first : List UInt8}
    (h : (first.takeWhile p).length < first.length) (second : List UInt8) :
    (first ++ second).takeWhile p = first.takeWhile p := by
  rw [List.takeWhile_append, if_neg (Nat.ne_of_lt h)]

theorem takeWhile_append_cons {p : UInt8 → Bool} {b : UInt8} (hb : p b = false)
    (first second : List UInt8) : (first ++ b :: second).takeWhile p = first.takeWhile p := by
  have hstops : (b :: second).takeWhile p = [] := List.takeWhile_cons_of_neg (Bool.eq_false_iff.mp hb)
  rw [List.takeWhile_append, hstops, List.append_nil]
  split
  · rename_i hall
    exact ((List.takeWhile_prefix p).eq_of_length hall).symm
  · rfl

theorem length_takeWhile_le (p : UInt8 → Bool) (bytes : List UInt8) :
    (bytes.takeWhile p).length ≤ bytes.length :=
  (List.takeWhile_prefix p).length_le

/-! ## Lexemes -/

theorem numeralExtra_le (rest : List UInt8) : numeralExtra rest ≤ rest.length := by
  have hwhole := length_takeWhile_le Decimal.isDigit rest
  unfold numeralExtra
  dsimp only
  split
  · rename_i d fraction hdrop
    have hlength := congrArg List.length hdrop
    have hfraction := length_takeWhile_le Decimal.isDigit fraction
    simp only [List.length_drop, List.length_cons] at hlength
    split <;> omega
  · exact hwhole

theorem numeralExtra_append (rest more : List UInt8) :
    numeralExtra (rest ++ lineFeed :: more) = numeralExtra rest := by
  have hwhole := takeWhile_append_cons (p := Decimal.isDigit) (b := lineFeed) rfl
  have hle := length_takeWhile_le Decimal.isDigit rest
  unfold numeralExtra
  dsimp only
  rw [hwhole, List.drop_append_of_le_length hle]
  generalize rest.drop (rest.takeWhile Decimal.isDigit).length = after
  match after with
  | [] => rfl
  | [b] =>
    by_cases hb : b = 46
    · subst hb
      rfl
    · simp [hb]
  | b :: d :: fraction =>
    by_cases hb : b = 46
    · subst hb
      simp only [List.cons_append, hwhole]
    · simp [hb]

theorem munch_extra_le (b : UInt8) (rest : List UInt8) : (munch b rest).extra ≤ rest.length := by
  unfold munch
  split
  · exact Nat.zero_le _
  · split
    · exact length_takeWhile_le _ rest
    · split
      · dsimp only [munchString]
        split
        · assumption
        · exact Nat.le_refl _
      · split
        · exact numeralExtra_le rest
        · split
          · exact length_takeWhile_le _ rest
          · unfold munchSymbol
            split
            · exact Nat.succ_le_succ (Nat.zero_le _)
            · split
              · exact Nat.zero_le _
              · exact Nat.zero_le _

theorem munchString_append {rest : List UInt8}
    (h : (munchString rest).meaning ≠ .fault .unterminatedString) (more : List UInt8) :
    munchString (rest ++ more) = munchString rest := by
  dsimp only [munchString] at h ⊢
  split at h
  · rename_i hclosed
    rw [takeWhile_append_of_stops hclosed, if_pos hclosed, if_pos]
    rw [List.length_append]
    omega
  · exact absurd rfl h

theorem munchSymbol_append (b : UInt8) (rest more : List UInt8) :
    munchSymbol b (rest ++ lineFeed :: more) = munchSymbol b rest := by
  unfold munchSymbol
  cases rest with
  | nil => cases symbolWithEqual? b <;> rfl
  | cons a rest =>
    cases symbolWithEqual? b with
    | none => rfl
    | some s =>
      by_cases ha : a = 61
      · subst ha
        rfl
      · simp [ha]

/-- A lexeme that is no open string is cut off in the same way when more follows on the next line. -/
theorem munch_append {b : UInt8} {rest : List UInt8}
    (h : (munch b rest).meaning ≠ .fault .unterminatedString) (more : List UInt8) :
    munch b (rest ++ lineFeed :: more) = munch b rest := by
  have hslash : ((rest ++ lineFeed :: more).head? == some 47) = (rest.head? == some 47) := by
    cases rest <;> rfl
  unfold munch at h ⊢
  rw [hslash]
  split at h
  · rename_i hblank
    rw [if_pos hblank, if_pos hblank]
  · rename_i hblank
    rw [if_neg hblank, if_neg hblank]
    split at h
    · rename_i hcomment
      rw [if_pos hcomment, if_pos hcomment, takeWhile_append_cons rfl]
    · rename_i hcomment
      rw [if_neg hcomment, if_neg hcomment]
      split at h
      · rename_i hquote
        rw [if_pos hquote, if_pos hquote, munchString_append h]
      · rename_i hquote
        rw [if_neg hquote, if_neg hquote]
        split at h
        · rename_i hdigit
          rw [if_pos hdigit, if_pos hdigit]
          dsimp only
          rw [numeralExtra_append, List.take_append_of_le_length (numeralExtra_le rest)]
        · rename_i hdigit
          rw [if_neg hdigit, if_neg hdigit, takeWhile_append_cons rfl, munchSymbol_append]

/-- Lexemes tile the input. -/
theorem flatMap_lexemesFrom (skip : Nat) (source : List UInt8) :
    (lexemesFrom skip source).flatMap Lexeme.bytes = source.drop skip := by
  induction source generalizing skip with
  | nil => cases skip <;> rfl
  | cons b rest ih =>
    cases skip with
    | succ skip => exact ih skip
    | zero =>
      rw [lexemesFrom, List.flatMap_cons, ih]
      exact congrArg (b :: ·) (List.take_append_drop _ rest)

theorem flatMap_lexemes (source : List UInt8) : (lexemes source).flatMap Lexeme.bytes = source :=
  flatMap_lexemesFrom 0 source

/-- A source without an open string keeps its lexemes when more follows on the next line. -/
theorem lexemesFrom_append {skip : Nat} {first : List UInt8} (hskip : skip ≤ first.length)
    (h : ∀ lexeme ∈ lexemesFrom skip first, lexeme.meaning ≠ .fault .unterminatedString)
    (second : List UInt8) :
    lexemesFrom skip (first ++ lineFeed :: second) =
      lexemesFrom skip first ++ ⟨.blank, [lineFeed]⟩ :: lexemes second := by
  induction first generalizing skip with
  | nil =>
    obtain rfl : skip = 0 := Nat.le_zero.mp hskip
    rfl
  | cons b rest ih =>
    cases skip with
    | succ skip => exact ih (Nat.le_of_succ_le_succ hskip) h
    | zero =>
      have hle := munch_extra_le b rest
      obtain ⟨hfirst, hrest⟩ := List.forall_mem_cons.mp h
      rw [List.cons_append, lexemesFrom, lexemesFrom, munch_append hfirst,
        List.take_append_of_le_length hle, ih hle hrest, List.cons_append]

/-! ## Items -/

/-- The items of lexemes, the end of input left out. -/
def wordsFrom (line : Nat) : List Lexeme → List LexicalItem
  | [] => []
  | lexeme :: rest =>
    (lexeme.item? (line + lineFeeds lexeme.bytes)).toList ++
      wordsFrom (line + lineFeeds lexeme.bytes) rest

theorem itemsFrom_append (line : Nat) (first second : List Lexeme) :
    itemsFrom line (first ++ second) =
      wordsFrom line first ++ itemsFrom (line + lineFeeds (first.flatMap Lexeme.bytes)) second := by
  induction first generalizing line with
  | nil => rfl
  | cons lexeme rest ih =>
    have hlines : lineFeeds ((lexeme :: rest).flatMap Lexeme.bytes) =
        lineFeeds lexeme.bytes + lineFeeds (rest.flatMap Lexeme.bytes) := by
      rw [List.flatMap_cons, lineFeeds, List.count_append, lineFeeds, lineFeeds]
    rw [List.cons_append, itemsFrom, ih, wordsFrom, List.append_assoc, hlines, Nat.add_assoc]

/-- The items of a source and then the end of input, on the last line. -/
theorem lexicalItems_eq (source : List UInt8) :
    lexicalItems source =
      wordsFrom 1 (lexemes source) ++ [.token (.endOn (1 + lineFeeds source))] := by
  have hitems := itemsFrom_append 1 (lexemes source) []
  rw [List.append_nil, flatMap_lexemes] at hitems
  exact hitems

/-- A lexeme that is a fault shows among the items. -/
theorem fault_mem_wordsFrom (line : Nat) {ls : List Lexeme} {lexeme : Lexeme} {cause : LexicalCause}
    (h : lexeme ∈ ls) (hmeaning : lexeme.meaning = .fault cause) :
    ∃ last, .fault ⟨cause, last⟩ ∈ wordsFrom line ls := by
  induction ls generalizing line with
  | nil => cases h
  | cons first rest ih =>
    rcases List.mem_cons.mp h with rfl | hrest
    · refine ⟨line + lineFeeds lexeme.bytes, List.mem_append_left _ (Option.mem_toList.mpr ?_)⟩
      rw [Lexeme.item?, hmeaning]
    · obtain ⟨last, hlast⟩ := ih (line + lineFeeds first.bytes) hrest
      exact ⟨last, List.mem_append_right _ hlast⟩

def later (lines : Nat) : LexicalItem → LexicalItem
  | .token t => .token (t.later lines)
  | .fault f => .fault { f with line := f.line + lines }

theorem item?_later (lexeme : Lexeme) (line lines : Nat) :
    lexeme.item? (line + lines) = (lexeme.item? line).map (later lines) := by
  unfold Lexeme.item?
  split <;> rfl

theorem itemsFrom_later (line lines : Nat) (ls : List Lexeme) :
    itemsFrom (line + lines) ls = (itemsFrom line ls).map (later lines) := by
  induction ls generalizing line with
  | nil => rfl
  | cons lexeme rest ih =>
    rw [itemsFrom, itemsFrom, Nat.add_right_comm, item?_later, ih, List.map_append]
    congr 1
    cases lexeme.item? (line + lineFeeds lexeme.bytes) <;> rfl

theorem token?_later (lines : Nat) (item : LexicalItem) :
    (later lines item).token? = item.token?.map (·.later lines) := by
  cases item <;> rfl

theorem fault?_later (lines : Nat) (item : LexicalItem) :
    (later lines item).fault? = item.fault?.map fun f => { f with line := f.line + lines } := by
  cases item <;> rfl

/-- The items of two sources with a line feed between them, if no string of the first one is open. -/
theorem lexicalItems_joined {first : List UInt8}
    (h : ∀ lexeme ∈ lexemes first, lexeme.meaning ≠ .fault .unterminatedString)
    (second : List UInt8) :
    lexicalItems (first ++ lineFeed :: second) =
      wordsFrom 1 (lexemes first) ++ (lexicalItems second).map (later (lineFeeds first + 1)) := by
  have hlexemes := lexemesFrom_append (Nat.zero_le first.length) h second
  have hline : itemsFrom (1 + lineFeeds first) (⟨.blank, [lineFeed]⟩ :: lexemes second) =
      itemsFrom (1 + (lineFeeds first + 1)) (lexemes second) := rfl
  rw [lexicalItems, lexemes, hlexemes, itemsFrom_append]
  change _ ++ itemsFrom (1 + lineFeeds ((lexemes first).flatMap Lexeme.bytes)) _ = _
  rw [flatMap_lexemes, hline, itemsFrom_later]
  rfl

/-! ## Tokens -/

/-- The tokens of a source, the end of input left out. -/
def words (source : List UInt8) : List Token :=
  (wordsFrom 1 (lexemes source)).filterMap LexicalItem.token?

theorem meaning_munch_ne_end (b : UInt8) (rest : List UInt8) :
    (munch b rest).meaning ≠ .token .endOfInput := by
  unfold munch
  split
  · nofun
  · split
    · nofun
    · split
      · dsimp only [munchString]
        split <;> nofun
      · split
        · nofun
        · split
          · dsimp only [wordKind]
            split <;> nofun
          · unfold munchSymbol
            split
            · nofun
            · split <;> nofun

theorem isEnd_of_mem_wordsFrom {line skip : Nat} {source : List UInt8} {t : Token}
    (h : .token t ∈ wordsFrom line (lexemesFrom skip source)) : t.isEnd = false := by
  induction source generalizing line skip with
  | nil => cases skip <;> cases h
  | cons b rest ih =>
    cases skip with
    | succ skip => exact ih h
    | zero =>
      rw [lexemesFrom, wordsFrom] at h
      rcases List.mem_append.mp h with hfirst | hrest
      · have hkind := meaning_munch_ne_end b rest
        have hitem := Option.mem_toList.mp hfirst
        unfold Lexeme.item? at hitem
        dsimp only at hitem
        split at hitem
        · cases hitem
        · rename_i kind hmeaning
          cases hitem
          rw [hmeaning] at hkind
          cases kind with
          | endOfInput => exact absurd rfl hkind
          | _ => rfl
        · cases hitem
      · exact ih hrest

theorem isEnd_of_mem_words {source : List UInt8} {t : Token} (h : t ∈ words source) :
    t.isEnd = false := by
  obtain ⟨item, hitem, htoken⟩ := List.mem_filterMap.mp h
  cases item with
  | fault f => cases htoken
  | token t' =>
    cases htoken
    exact isEnd_of_mem_wordsFrom hitem

end Lexing

open Lexing

theorem tokenize_tokens (source : List UInt8) :
    (tokenize source).1 = words source ++ [.endOn (1 + lineFeeds source)] := by
  unfold tokenize
  dsimp only
  rw [lexicalItems_eq, List.filterMap_append]
  rfl

theorem takeWhile_tokenize (source : List UInt8) :
    (tokenize source).1.takeWhile (!·.isEnd) = words source := by
  have hwords : ∀ t ∈ words source, (!t.isEnd) = true := fun t h => by
    rw [isEnd_of_mem_words h]
    rfl
  rw [tokenize_tokens, List.takeWhile_append_of_pos hwords]
  exact List.append_nil _

/-- What two sources with a line feed between them hold: the tokens of the first one without its end,
and then those of the second one on later lines. -/
theorem tokenize_joined {first : List UInt8} (h : (tokenize first).2 = []) (second : List UInt8) :
    tokenize (first ++ lineFeed :: second) =
      (words first ++ (tokenize second).1.map (·.later (lineFeeds first + 1)),
        (tokenize second).2.map fun f => { f with line := f.line + (lineFeeds first + 1) }) := by
  have hnone : (wordsFrom 1 (lexemes first)).filterMap LexicalItem.fault? = [] := by
    unfold tokenize at h
    dsimp only at h
    rw [lexicalItems_eq, List.filterMap_append] at h
    exact (List.append_eq_nil_iff.mp h).1
  -- A string that is left open would show as a fault.
  have hclosed : ∀ lexeme ∈ lexemes first, lexeme.meaning ≠ .fault .unterminatedString := by
    intro lexeme hlexeme hmeaning
    obtain ⟨last, hlast⟩ := fault_mem_wordsFrom 1 hlexeme hmeaning
    have hfault : (⟨.unterminatedString, last⟩ : LexicalFault) ∈
        (wordsFrom 1 (lexemes first)).filterMap LexicalItem.fault? :=
      List.mem_filterMap.mpr ⟨_, hlast, rfl⟩
    rw [hnone] at hfault
    cases hfault
  unfold tokenize
  dsimp only
  rw [lexicalItems_joined hclosed, List.filterMap_append, List.filterMap_append, hnone,
    List.nil_append, List.filterMap_map, List.map_filterMap, List.filterMap_map, List.map_filterMap,
    Function.comp_def, funext (token?_later _), Function.comp_def, funext (fault?_later _)]
  rfl

def blankLines (n : Nat) : List UInt8 :=
  List.replicate n lineFeed

theorem lineFeeds_blankLines_append (n : Nat) (source : List UInt8) :
    lineFeeds (blankLines n ++ source) = lineFeeds source + n := by
  rw [lineFeeds, List.count_append, blankLines, List.count_replicate_self, Nat.add_comm, lineFeeds]

/-- A source below empty lines holds the same on later lines. -/
theorem tokenize_blankLines (n : Nat) (source : List UInt8) :
    tokenize (blankLines n ++ source) =
      ((tokenize source).1.map (·.later n),
        (tokenize source).2.map fun f => { f with line := f.line + n }) := by
  induction n with
  | zero => exact Prod.ext (List.map_id _).symm (List.map_id _).symm
  | succ n ih =>
    have hempty : (tokenize []).2 = [] := rfl
    have hjoined := tokenize_joined hempty (blankLines n ++ source)
    have hnext : blankLines (n + 1) ++ source = [] ++ lineFeed :: (blankLines n ++ source) := rfl
    rw [hnext, hjoined, ih, List.map_map, List.map_map]
    rfl

end LoxLang
