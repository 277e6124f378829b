import LoxLang.Proofs.Token.Tiling

/-!
The lines of the items of a source. `Lexeme.itemIn?` counts them afresh for each piece of the source: the
line feeds up to the end of a token, those before a stray byte, and all of them for a string that is not
closed. A scanner, which carries the line along from item to item, gives exactly these lines, and they
never decrease (`item_lines`).
-/
namespace LoxLang
set_option autoImplicit false

def LexicalItem.line : LexicalItem → Nat
  | .token t => t.line
  | .fault f => f.line

namespace Lexing

/-- Pieces, each with all the bytes that stand before it. -/
def positioned (before : List UInt8) : List Lexeme → List (List UInt8 × Lexeme)
  | [] => []
  | lexeme :: rest => (before, lexeme) :: positioned (before ++ lexeme.bytes) rest

/-- The item of a piece that stands in a source after some bytes. -/
def Lexeme.itemIn? (source before : List UInt8) (lexeme : Lexeme) : Option LexicalItem :=
  match lexeme.meaning with
  | .blank => none
  | .token kind =>
    some (.token ⟨kind, Utf8.decodeLossy lexeme.bytes, 1 + lineFeeds (before ++ lexeme.bytes)⟩)
  | .fault .unexpectedCharacter => some (.fault ⟨.unexpectedCharacter, 1 + lineFeeds before⟩)
  | .fault .unterminatedString => some (.fault ⟨.unterminatedString, 1 + lineFeeds source⟩)

theorem lineFeeds_append (first second : List UInt8) :
    lineFeeds (first ++ second) = lineFeeds first + lineFeeds second := by
  simp [lineFeeds]

/-! ## Where pieces stand -/

theorem prefix_of_mem_positioned {before : List UInt8} {pieces : List Lexeme}
    {place : List UInt8 × Lexeme} (h : place ∈ positioned before pieces) :
    place.1 ++ place.2.bytes <+: before ++ pieces.flatMap Lexeme.bytes := by
  induction pieces generalizing before with
  | nil => cases h
  | cons lexeme rest ih =>
    rw [List.flatMap_cons, ← List.append_assoc]
    rcases List.mem_cons.mp h with rfl | hrest
    · exact List.prefix_append _ _
    · exact ih hrest

/-! ## Lines of pieces -/

/-- On the line on which it ends, a piece has the item that is counted afresh for it. -/
theorem Cut.item?_eq {lexeme : Lexeme} {rest : List UInt8} (h : Cut lexeme rest)
    (before : List UInt8) :
    lexeme.item? (1 + lineFeeds before + lineFeeds lexeme.bytes) =
      lexeme.itemIn? (before ++ (lexeme.bytes ++ rest)) before := by
  cases h with
  | space _ _ => rfl
  | comment _ _ => rfl
  | token _ _ _ => simp [Lexeme.item?, Lexeme.itemIn?, lineFeeds_append, Nat.add_assoc]
  | openString _ => simp [Lexeme.item?, Lexeme.itemIn?, lineFeeds_append, Nat.add_assoc]
  | @stray b _ hblank _ _ =>
    -- A line feed is blank, so the byte does not count itself.
    have hb : b ≠ lineFeed := by
      rintro rfl
      exact absurd hblank (by decide)
    simp [Lexeme.item?, Lexeme.itemIn?, lineFeeds, hb]

/-- The items of pieces, with the line carried along from one to the next, are those counted afresh. -/
theorem Lexed.wordsFrom_eq {source : List UInt8} {pieces : List Lexeme} (h : Lexed source pieces)
    (before : List UInt8) :
    wordsFrom (1 + lineFeeds before) pieces =
      (positioned before pieces).filterMap fun place => place.2.itemIn? (before ++ source) place.1 := by
  induction h generalizing before with
  | nil => rfl
  | @cons lexeme rest pieces hcut _ ih =>
    have hrest := ih (before ++ lexeme.bytes)
    rw [lineFeeds_append, ← Nat.add_assoc, List.append_assoc] at hrest
    rw [wordsFrom, positioned, List.filterMap_cons, hcut.item?_eq before, hrest]
    cases lexeme.itemIn? (before ++ (lexeme.bytes ++ rest)) before <;> rfl

/-! ## Order of lines -/

theorem Lexeme.line_of_item? {lexeme : Lexeme} {line : Nat} {item : LexicalItem}
    (h : lexeme.item? line = some item) : item.line = line := by
  unfold Lexeme.item? at h
  split at h
  · cases h
  · cases h
    rfl
  · cases h
    rfl

/-- No item of some pieces is on a line before that on which they start. -/
theorem le_line_of_mem {line : Nat} {pieces : List Lexeme} {item : LexicalItem}
    (h : item ∈ itemsFrom line pieces) : line ≤ item.line := by
  induction pieces generalizing line with
  | nil =>
    obtain rfl := List.mem_singleton.mp h
    exact Nat.le_refl line
  | cons lexeme rest ih =>
    rcases List.mem_append.mp h with hfirst | hrest
    · have hline := Lexeme.line_of_item? (Option.mem_toList.mp hfirst)
      omega
    · have hline := ih hrest
      omega

theorem pairwise_lines (line : Nat) (pieces : List Lexeme) :
    (itemsFrom line pieces).Pairwise fun first second => first.line ≤ second.line := by
  induction pieces generalizing line with
  | nil => exact List.pairwise_singleton _ _
  | cons lexeme rest ih =>
    rw [itemsFrom, List.pairwise_append]
    refine ⟨?_, ih _, fun first hfirst second hsecond => ?_⟩
    · cases lexeme.item? (line + lineFeeds lexeme.bytes) <;> simp
    · rw [Lexeme.line_of_item? (Option.mem_toList.mp hfirst)]
      exact le_line_of_mem hsecond

end Lexing

open Lexing

/-- A source is cut into pieces in exactly one way. For each piece that is not blank a scanner gives an
item: a token on the line that one more than the line feeds up to its end make, an unexpected character on
the line that those before it make, and an open string, like the end of input, on the line that those
of the whole source make. From one item to the next the line never decreases. -/
theorem item_lines (source : List UInt8) : ∃ (pieces : List Lexeme) (items : List LexicalItem),
    (∀ other, Lexed source other ↔ other = pieces) ∧
      (∀ place ∈ positioned [] pieces, place.1 ++ place.2.bytes <+: source) ∧
      items = (positioned [] pieces).filterMap (fun place => place.2.itemIn? source place.1) ++
        [.token (.endOn (1 + lineFeeds source))] ∧
      (∀ n, ((Scanner.start source).after n).next.1 = items[n]?) ∧
      items.Pairwise fun first second => first.line ≤ second.line := by
  have hlexed : Lexed source (lexemes source) := lexed_iff.mpr rfl
  have hwords := hlexed.wordsFrom_eq []
  refine ⟨lexemes source, lexicalItems source, fun _ => lexed_iff, fun place hplace => ?_, ?_,
    Scanner.next_after source, pairwise_lines 1 _⟩
  · have hprefix := prefix_of_mem_positioned hplace
    rwa [flatMap_lexemes] at hprefix
  · rw [lexicalItems_eq]
    exact congrArg (· ++ [_]) hwords

/-- Line feeds count in blanks and in strings; a comment stops before its own. -/
example : (tokenize "// leading\nvar a; // trailing\n\n\"two\nlines\" b".toUTF8.toList).1.map Token.line =
    [2, 2, 2, 5, 5, 5] := by
  decide +kernel

end LoxLang
