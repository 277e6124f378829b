import Mathlib.Data.List.TakeWhile

/-!
Bracketed texts. An `Sexp` is an atom, or a list of such in parentheses with single blanks between them;
`Sexp.text` writes it down. Where the atoms are words without blanks and parentheses, a text is that of
one `Sexp` only (`Sexp.eq_of_text`): after it comes the end, a blank or a closing parenthesis, and there
an atom stops.
-/
namespace LoxLang
set_option autoImplicit false

inductive Sexp where
  | atom (word : String)
  | list (items : List Sexp)

namespace Sexp

/-! ## Texts -/

mutual

def text : Sexp → List Char
  | .atom word => word.toList
  | .list items => '(' :: (textAll items ++ [')'])

/-- The texts of some items with blanks between them. -/
def textAll : List Sexp → List Char
  | [] => []
  | x :: rest => x.text ++ textAfter rest

/-- The texts of some items, each after a blank. -/
def textAfter : List Sexp → List Char
  | [] => []
  | x :: rest => ' ' :: (x.text ++ textAfter rest)

end

/-- Whether an atom ends before a character. -/
def isDelimiter (c : Char) : Bool :=
  c == ' ' || c == '(' || c == ')'

/-- A word that can stand as an atom. -/
structure IsAtom (word : String) : Prop where
  nonempty : word.toList ≠ []
  whole : ∀ c ∈ word.toList, isDelimiter c = false

mutual

/-- All atoms are words that can be told from what is around them. -/
def Clean : Sexp → Prop
  | .atom word => IsAtom word
  | .list items => CleanAll items

def CleanAll : List Sexp → Prop
  | [] => True
  | x :: rest => x.Clean ∧ CleanAll rest

end

/-! ## What comes after a text -/

/-- Nothing, or something before which an atom ends. -/
def Stops (after : List Char) : Prop :=
  ∀ c ∈ after.head?, isDelimiter c = true

theorem stops_closing (after : List Char) : Stops (')' :: after) := by
  rintro c ⟨⟩
  rfl

theorem stops_textAfter (items : List Sexp) (after : List Char) :
    Stops (textAfter items ++ ')' :: after) := by
  cases items with
  | nil => exact stops_closing after
  | cons x rest =>
    rintro c ⟨⟩
    rfl

/-- An atom goes on to the first place where one can end. -/
theorem takeWhile_atom {word : String} (h : IsAtom word) {after : List Char} (hafter : Stops after) :
    (word.toList ++ after).takeWhile (fun c => !isDelimiter c) = word.toList := by
  have hwhole : ∀ c ∈ word.toList, (!isDelimiter c) = true := fun c hc => by rw [h.whole c hc]; rfl
  rw [List.takeWhile_append_of_pos hwhole]
  cases after with
  | nil => exact List.append_nil _
  | cons c rest =>
    have hc := hafter c rfl
    rw [List.takeWhile_cons_of_neg (by rw [hc]; decide), List.append_nil]

theorem eq_of_atoms {first second : String} (hfirst : IsAtom first) (hsecond : IsAtom second)
    {after after' : List Char} (hafter : Stops after) (hafter' : Stops after')
    (h : first.toList ++ after = second.toList ++ after') : first = second ∧ after = after' := by
  have hwords := congrArg (List.takeWhile fun c => !isDelimiter c) h
  rw [takeWhile_atom hfirst hafter, takeWhile_atom hsecond hafter'] at hwords
  rw [hwords] at h
  exact ⟨String.toList_injective hwords, List.append_cancel_left h⟩

/-- An atom does not start where one would end. -/
theorem atom_ne_delimiter {word : String} (h : IsAtom word) {after rest : List Char} {c : Char}
    (hc : isDelimiter c = true) : word.toList ++ after ≠ c :: rest := by
  intro heq
  obtain ⟨d, more, hd⟩ := List.exists_cons_of_ne_nil h.nonempty
  rw [hd, List.cons_append] at heq
  obtain ⟨rfl, -⟩ := List.cons.inj heq
  have hwhole := h.whole d (hd ▸ List.mem_cons_self)
  rw [hc] at hwhole
  cases hwhole

/-- No text starts with a closing parenthesis. -/
theorem text_ne_closing {x : Sexp} (h : x.Clean) {after rest : List Char} :
    x.text ++ after ≠ ')' :: rest := by
  cases x with
  | atom word => exact atom_ne_delimiter h rfl
  | list items => exact fun heq => absurd (List.cons.inj heq).1 (by decide)

/-! ## Reading back -/

mutual

/-- A text tells what it is the text of, and where it ends. -/
theorem eq_of_text_append (x y : Sexp) (hx : x.Clean) (hy : y.Clean) {after after' : List Char}
    (hafter : Stops after) (hafter' : Stops after') (h : x.text ++ after = y.text ++ after') :
    x = y ∧ after = after' := by
  cases x with
  | atom word =>
    cases y with
    | atom other =>
      obtain ⟨hwords, hrest⟩ := eq_of_atoms hx hy hafter hafter' h
      exact ⟨congrArg atom hwords, hrest⟩
    | list items => exact absurd h (atom_ne_delimiter hx rfl)
  | list items =>
    cases y with
    | atom other => exact absurd h.symm (atom_ne_delimiter hy rfl)
    | list others =>
      rw [text, text, List.cons_append, List.cons_append, List.append_assoc, List.append_assoc] at h
      obtain ⟨hitems, hrest⟩ := eq_of_textAll_append items others hx hy (List.cons.inj h).2
      exact ⟨congrArg list hitems, hrest⟩

theorem eq_of_textAll_append (items others : List Sexp) (hitems : CleanAll items)
    (hothers : CleanAll others) {after after' : List Char}
    (h : textAll items ++ ')' :: after = textAll others ++ ')' :: after') :
    items = others ∧ after = after' := by
  cases items with
  | nil =>
    cases others with
    | nil => exact ⟨rfl, (List.cons.inj h).2⟩
    | cons y rest =>
      rw [textAll, textAll, List.append_assoc] at h
      exact absurd h.symm (text_ne_closing hothers.1)
  | cons x rest =>
    cases others with
    | nil =>
      rw [textAll, textAll, List.append_assoc] at h
      exact absurd h (text_ne_closing hitems.1)
    | cons y more =>
      rw [textAll, textAll, List.append_assoc, List.append_assoc] at h
      obtain ⟨hx, hrest⟩ := eq_of_text_append x y hitems.1 hothers.1 (stops_textAfter rest after)
        (stops_textAfter more after') h
      obtain ⟨hmore, hafter⟩ := eq_of_textAfter_append rest more hitems.2 hothers.2 hrest
      exact ⟨congrArg₂ List.cons hx hmore, hafter⟩

theorem eq_of_textAfter_append (items others : List Sexp) (hitems : CleanAll items)
    (hothers : CleanAll others) {after after' : List Char}
    (h : textAfter items ++ ')' :: after = textAfter others ++ ')' :: after') :
    items = others ∧ after = after' := by
  cases items with
  | nil =>
    cases others with
    | nil => exact ⟨rfl, (List.cons.inj h).2⟩
    | cons y rest => exact absurd (List.cons.inj h).1 (by decide)
  | cons x rest =>
    cases others with
    | nil => exact absurd (List.cons.inj h).1 (by decide)
    | cons y more =>
      rw [textAfter, textAfter, List.cons_append, List.cons_append, List.append_assoc,
        List.append_assoc] at h
      obtain ⟨hx, hrest⟩ := eq_of_text_append x y hitems.1 hothers.1 (stops_textAfter rest after)
        (stops_textAfter more after') (List.cons.inj h).2
      obtain ⟨hmore, hafter⟩ := eq_of_textAfter_append rest more hitems.2 hothers.2 hrest
      exact ⟨congrArg₂ List.cons hx hmore, hafter⟩

end

/-- A text is that of one bracketed text only. -/
theorem eq_of_text {x y : Sexp} (hx : x.Clean) (hy : y.Clean) (h : x.text = y.text) : x = y := by
  have hnothing : Stops [] := fun c hc => absurd hc (Option.not_mem_none c)
  refine (eq_of_text_append x y hx hy hnothing hnothing ?_).1
  rw [h]

end Sexp

end LoxLang
