import LoxLang.Syntax.Cursor

/-!
What a reading does, whatever tokens it is given. `From admits lo p r` says of a reading `r` that
starts where the next identity is `lo` and all tokens left pass `admits`: it only ever drops tokens,
never gives an identity back, and its result has the property `p`, which may speak of the identity
that comes next. The rules below follow the way in which readings are composed.
-/
namespace LoxLang.Reading
set_option autoImplicit false

theorem bind_of_ok {α β : Type} {r : Reading α} {f : α → Reading β} {c mid : Cursor} {a : α}
    (h : r c = .ok a mid) : (r >>= f) c = f a mid := by
  change EStateM.bind r f c = _
  rw [EStateM.bind, h]

theorem bind_of_error {α β : Type} {r : Reading α} {f : α → Reading β} {c after : Cursor}
    {stop : Stop} (h : r c = .error stop after) : (r >>= f) c = .error stop after := by
  change EStateM.bind r f c = _
  rw [EStateM.bind, h]

def From {α : Type} (admits : Token → Prop) (lo : Nat) (p : α → Nat → Prop) (r : Reading α) :
    Prop :=
  ∀ c : Cursor, c.nextId = lo → (∀ t ∈ c.rest, admits t) →
    match r c with
    | .ok a after => after.rest <:+ c.rest ∧ lo ≤ after.nextId ∧ p a after.nextId
    | .error _ after => after.rest <:+ c.rest ∧ lo ≤ after.nextId

section Rules
variable {α β : Type} {admits : Token → Prop} {lo : Nat} {p q : α → Nat → Prop}
  {s : β → Nat → Prop}

theorem From.weaken {r : Reading α} (h : From admits lo p r)
    (hpq : ∀ a hi, lo ≤ hi → p a hi → q a hi) : From admits lo q r := by
  intro c hlo ht
  have hc := h c hlo ht
  split at hc
  · exact ⟨hc.1, hc.2.1, hpq _ _ hc.2.1 hc.2.2⟩
  · exact hc

theorem From.pure {a : α} (h : p a lo) : From admits lo p (Pure.pure a) := by
  intro c hlo _
  subst hlo
  exact ⟨List.suffix_refl _, Nat.le_refl _, h⟩

theorem From.bind {r : Reading α} {f : α → Reading β} (h : From admits lo p r)
    (hf : ∀ a mid, lo ≤ mid → p a mid → From admits mid s (f a)) :
    From admits lo s (r >>= f) := by
  intro c hlo ht
  have hc := h c hlo ht
  change match EStateM.bind r f c with
    | .ok b after => after.rest <:+ c.rest ∧ lo ≤ after.nextId ∧ s b after.nextId
    | .error _ after => after.rest <:+ c.rest ∧ lo ≤ after.nextId
  unfold EStateM.bind
  cases hr : r c with
  | error stop after =>
    rw [hr] at hc
    exact hc
  | ok a mid =>
    rw [hr] at hc
    obtain ⟨hsuffix, hle, hp⟩ := hc
    have hmid := hf a mid.nextId hle hp mid rfl fun t hm => ht t (hsuffix.subset hm)
    dsimp only
    cases hs : f a mid with
    | error stop after =>
      rw [hs] at hmid
      exact ⟨hmid.1.trans hsuffix, Nat.le_trans hle hmid.2⟩
    | ok b after =>
      rw [hs] at hmid
      exact ⟨hmid.1.trans hsuffix, Nat.le_trans hle hmid.2.1, hmid.2.2⟩

theorem From.map {r : Reading α} {f : α → β} (h : From admits lo p r)
    (hf : ∀ a hi, lo ≤ hi → p a hi → s (f a) hi) : From admits lo s (f <$> r) :=
  From.bind h fun a hi hle ha => From.pure (hf a hi hle ha)

theorem From.ite {r r' : Reading α} {b : Prop} [Decidable b] (h : b → From admits lo p r)
    (h' : ¬ b → From admits lo p r') : From admits lo p (if b then r else r') := by
  split
  · exact h ‹_›
  · exact h' ‹_›

theorem From.after {r : Reading α} {f : α → Reading β}
    (h : From admits lo (fun _ hi => hi = lo) r) (hf : ∀ a, From admits lo s (f a)) :
    From admits lo s (r >>= f) :=
  From.bind h fun a _ _ hmid => hmid ▸ hf a

end Rules

/-! ## The steps of reading -/

section Steps
variable {α : Type} (admits : Token → Prop) (lo : Nat)

theorem from_tooDeep (p : α → Nat → Prop) : From admits lo p tooDeep := by
  intro c hlo _
  exact ⟨List.suffix_refl _, Nat.le_of_eq hlo.symm⟩

theorem from_failHere (p : α → Nat → Prop) (cause : SyntaxCause) :
    From admits lo p (failHere cause) := by
  intro c hlo _
  exact ⟨List.suffix_refl _, Nat.le_of_eq hlo.symm⟩

/-- The next token is an admitted one unless the input is at its end. -/
theorem from_peek :
    From admits lo (fun t hi => hi = lo ∧ (t.isEnd = false → admits t)) peek := by
  intro c hlo ht
  refine ⟨List.suffix_refl _, Nat.le_of_eq hlo.symm, hlo, fun hend => ?_⟩
  unfold Cursor.peek at hend ⊢
  cases hrest : c.rest with
  | nil => simp [hrest, Token.endOn, Token.isEnd, TokenKind.same] at hend
  | cons t rest => exact ht t (by simp [hrest])

theorem from_atEnd : From admits lo (fun _ hi => hi = lo) atEnd := by
  intro c hlo _
  exact ⟨List.suffix_refl _, Nat.le_of_eq hlo.symm, hlo⟩

theorem from_note (cause : SyntaxCause) (token : Token) :
    From admits lo (fun _ hi => hi = lo) (note cause token) := by
  intro c hlo _
  exact ⟨List.suffix_refl _, Nat.le_of_eq hlo.symm, hlo⟩

theorem from_nextIs (test : Token → Bool) : From admits lo (fun _ hi => hi = lo) (nextIs test) := by
  intro c hlo _
  exact ⟨List.suffix_refl _, Nat.le_of_eq hlo.symm, hlo⟩

theorem from_takeIf (test : Token → Bool) :
    From admits lo (fun found hi => hi = lo ∧ ∀ t, found = some t → admits t ∧ test t = true)
      (takeIf test) := by
  intro c hlo ht
  unfold takeIf
  cases hrest : c.rest with
  | nil => exact ⟨hrest ▸ List.suffix_refl _, Nat.le_of_eq hlo.symm, hlo, nofun⟩
  | cons t rest =>
    dsimp only
    by_cases htest : test t = true
    · rw [if_pos htest]
      refine ⟨List.suffix_cons t rest, Nat.le_of_eq hlo.symm, hlo, ?_⟩
      rintro _ ⟨⟩
      exact ⟨ht t (by simp [hrest]), htest⟩
    · rw [if_neg htest]
      exact ⟨hrest ▸ List.suffix_refl _, Nat.le_of_eq hlo.symm, hlo, nofun⟩

theorem from_skip : From admits lo (fun _ hi => hi = lo) skip := by
  intro c hlo _
  exact ⟨List.tail_suffix c.rest, Nat.le_of_eq hlo.symm, hlo⟩

theorem from_accept (test : Token → Bool) : From admits lo (fun _ hi => hi = lo) (accept test) :=
  From.bind (from_takeIf admits lo test) fun _ _ _ h => From.pure h.1

theorem from_expect (test : Token → Bool) (what : String) :
    From admits lo (fun t hi => hi = lo ∧ admits t ∧ test t = true) (expect test what) := by
  refine From.bind (from_takeIf admits lo test) fun found mid _ h => ?_
  cases found with
  | none => exact from_failHere admits mid _ _
  | some t => exact From.pure ⟨h.1, h.2 t rfl⟩

theorem from_discard_expect (test : Token → Bool) (what : String) :
    From admits lo (fun _ hi => hi = lo) (discard (expect test what)) :=
  From.map (from_expect admits lo test what) fun _ _ _ h => h.1

theorem from_reference (name : Token) :
    From admits lo (fun r hi => hi = lo + 1 ∧ r = ⟨lo, name⟩) (reference name) := by
  intro c hlo _
  subst hlo
  exact ⟨List.suffix_refl _, Nat.le_succ _, rfl, rfl⟩

end Steps

/-! ## After a fault -/

theorem resumeAfter_suffix (previous : Token) (tokens : List Token) :
    resumeAfter previous tokens <:+ tokens := by
  induction tokens generalizing previous with
  | nil => exact List.suffix_refl _
  | cons t rest ih =>
    unfold resumeAfter
    split
    · exact List.suffix_refl _
    · exact (ih t).trans (List.suffix_cons t rest)

theorem resume_suffix (tokens : List Token) : resume tokens <:+ tokens := by
  cases tokens with
  | nil => exact List.suffix_refl _
  | cons t rest => exact (resumeAfter_suffix t rest).trans (List.suffix_cons t rest)

theorem From.recovering {α : Type} {admits : Token → Prop} {lo : Nat} {p : α → Nat → Prop}
    {r : Reading α} (h : From admits lo p r) : From admits lo p (recovering r) := by
  intro c hlo ht
  have hc := h c hlo ht
  unfold Reading.recovering
  cases hr : r c with
  | ok a after =>
    rw [hr] at hc
    exact hc
  | error stop after =>
    rw [hr] at hc
    cases stop with
    | fault f => exact ⟨(resume_suffix after.rest).trans hc.1, hc.2⟩
    | tooDeep => exact hc

end LoxLang.Reading
