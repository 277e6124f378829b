import LoxLang.Proofs.Grammar.Text

/-!
What a reading takes. `Takes lo rest p r` says of a reading `r` that starts where the next identity
is `lo` and the tokens `rest` are left: no fault noted before is forgotten, and a result for which
no fault was noted has the property `p`, which speaks of the tokens taken and of those still left.
`Leads r lo w next hi rest` is the other direction: given `w` and then `rest`, the reading `r` takes
`w` and goes on as `next`. The rules for both follow the way in which readings are composed.
-/
namespace LoxLang.Reading
set_option autoImplicit false

/-! ## What is taken -/

def Takes {α : Type} (lo : Nat) (rest : List Token)
    (p : List Token → α → Nat → List Token → Prop) (r : Reading α) : Prop :=
  ∀ c : Cursor, c.nextId = lo → c.rest = rest →
    match r c with
    | .ok a after => c.noted <+: after.noted ∧
      (after.noted = c.noted → ∃ w, rest = w ++ after.rest ∧ p w a after.nextId after.rest)
    | .error _ after => c.noted <+: after.noted

section Rules
variable {α β : Type} {lo : Nat} {rest : List Token} {p q : List Token → α → Nat → List Token → Prop}
  {s : List Token → β → Nat → List Token → Prop}

theorem Takes.weaken {r : Reading α} (h : Takes lo rest p r)
    (hpq : ∀ w a hi left, rest = w ++ left → p w a hi left → q w a hi left) :
    Takes lo rest q r := by
  intro c hlo hrest
  have hc := h c hlo hrest
  split at hc
  · refine ⟨hc.1, fun hclean => ?_⟩
    obtain ⟨w, hw, hp⟩ := hc.2 hclean
    exact ⟨w, hw, hpq w _ _ _ hw hp⟩
  · exact hc

theorem Takes.pure {a : α} (h : p [] a lo rest) : Takes lo rest p (Pure.pure a) := by
  intro c hlo hrest
  subst hlo
  subst hrest
  exact ⟨List.prefix_refl _, fun _ => ⟨[], rfl, h⟩⟩

/-- The second reading starts wherever the first one can end, and may use what that one took. -/
theorem Takes.bind {r : Reading α} {f : α → Reading β} (h : Takes lo rest p r)
    (hf : ∀ a u mid left, Takes mid left
      (fun w b hi left' => p u a mid left → s (u ++ w) b hi left') (f a)) :
    Takes lo rest s (r >>= f) := by
  intro c hlo hrest
  have hc := h c hlo hrest
  change match EStateM.bind r f c with
    | .ok b after => c.noted <+: after.noted ∧
      (after.noted = c.noted → ∃ w, rest = w ++ after.rest ∧ s w b after.nextId after.rest)
    | .error _ after => c.noted <+: after.noted
  unfold EStateM.bind
  cases hr : r c with
  | error stop after =>
    rw [hr] at hc
    exact hc
  | ok a mid =>
    rw [hr] at hc
    obtain ⟨hgrows, hclean⟩ := hc
    dsimp only
    cases hs : f a mid with
    | error stop after =>
      have hmid := hf a [] mid.nextId mid.rest mid rfl rfl
      rw [hs] at hmid
      exact hgrows.trans hmid
    | ok b after =>
      have hgrows' : mid.noted <+: after.noted := by
        have hmid := hf a [] mid.nextId mid.rest mid rfl rfl
        rw [hs] at hmid
        exact hmid.1
      refine ⟨hgrows.trans hgrows', fun hnoted => ?_⟩
      have hmidNoted : mid.noted = c.noted :=
        (hgrows.eq_of_length_le (by rw [← hnoted]; exact hgrows'.length_le)).symm
      obtain ⟨u, hu, hp⟩ := hclean hmidNoted
      have hmid := hf a u mid.nextId mid.rest mid rfl rfl
      rw [hs] at hmid
      obtain ⟨w, hw, hs'⟩ := hmid.2 (hnoted.trans hmidNoted.symm)
      exact ⟨u ++ w, by rw [hu, hw, List.append_assoc], hs' hp⟩

theorem Takes.map {r : Reading α} {f : α → β} (h : Takes lo rest p r)
    (hf : ∀ w a hi left, p w a hi left → s w (f a) hi left) : Takes lo rest s (f <$> r) := by
  refine Takes.bind h fun a u mid left => Takes.pure fun hp => ?_
  rw [List.append_nil]
  exact hf u a mid left hp

theorem Takes.ite {r r' : Reading α} {b : Prop} [Decidable b] (h : b → Takes lo rest p r)
    (h' : ¬ b → Takes lo rest p r') : Takes lo rest p (if b then r else r') := by
  split
  · exact h ‹_›
  · exact h' ‹_›

end Rules

section Steps
variable {α : Type} (lo : Nat) (rest : List Token)

theorem takes_tooDeep (p : List Token → α → Nat → List Token → Prop) : Takes lo rest p tooDeep :=
  fun _ _ _ => List.prefix_refl _

theorem takes_failHere (p : List Token → α → Nat → List Token → Prop) (cause : SyntaxCause) :
    Takes lo rest p (failHere cause) :=
  fun _ _ _ => List.prefix_refl _

/-- A reading that notes a fault has no text. -/
theorem takes_note (cause : SyntaxCause) (token : Token) :
    Takes lo rest (fun _ _ _ _ => False) (note cause token) := by
  intro c _ _
  refine ⟨List.prefix_append _ _, fun hclean => ?_⟩
  have hlength := congrArg List.length hclean
  simp at hlength

/-- A reading that only looks at the tokens. -/
theorem takes_look {f : List Token → α} {r : Reading α} (hr : ∀ c, r c = .ok (f c.rest) c) :
    Takes lo rest (fun w a hi left => w = [] ∧ hi = lo ∧ left = rest ∧ a = f rest) r := by
  intro c hlo hrest
  rw [hr c]
  exact ⟨List.prefix_refl _, fun _ => ⟨[], hrest.symm, rfl, hlo, hrest, by rw [hrest]⟩⟩

theorem takes_atEnd :
    Takes lo rest (fun w b hi left => w = [] ∧ hi = lo ∧ left = rest ∧ b = rest.isEmpty) atEnd :=
  takes_look (f := List.isEmpty) lo rest fun _ => rfl

theorem takes_nextIs (test : Token → Bool) :
    Takes lo rest (fun w b hi left => w = [] ∧ hi = lo ∧ left = rest ∧ b = rest.head?.any test)
      (nextIs test) :=
  takes_look (f := fun tokens => tokens.head?.any test) lo rest fun _ => rfl

/-- The next token, which is the first of those left unless the input is at its end. -/
theorem takes_peek :
    Takes lo rest (fun w t hi left => w = [] ∧ hi = lo ∧ left = rest ∧
      (t.isEnd = false → ∃ more, rest = t :: more)) peek := by
  intro c hlo hrest
  refine ⟨List.prefix_refl _, fun _ => ⟨[], hrest.symm, rfl, hlo, hrest, fun hend => ?_⟩⟩
  unfold Cursor.peek at hend ⊢
  cases hc : c.rest with
  | nil => simp [hc, Token.endOn, Token.isEnd, TokenKind.same] at hend
  | cons t more => exact ⟨more, by simp [← hrest, hc]⟩

theorem takes_skip :
    Takes lo rest (fun w _ hi _ => w = rest.take 1 ∧ hi = lo) skip := by
  intro c hlo hrest
  subst hrest
  refine ⟨List.prefix_refl _, fun _ => ⟨c.rest.take 1, ?_, rfl, hlo⟩⟩
  cases c.rest <;> rfl

theorem takes_takeIf (test : Token → Bool) :
    Takes lo rest (fun w found hi left => hi = lo ∧ w = found.toList ∧
      (∀ t ∈ found, test t = true ∧ rest = t :: left) ∧
      (found = none → left.head?.any test = false)) (takeIf test) := by
  intro c hlo hrest
  subst hrest
  unfold takeIf
  cases hc : c.rest with
  | nil => exact ⟨List.prefix_refl _, fun _ => ⟨[], hc.symm, hlo, rfl, nofun, fun _ => by rw [hc]; rfl⟩⟩
  | cons t more =>
    dsimp only
    by_cases htest : test t = true
    · rw [if_pos htest]
      refine ⟨List.prefix_refl _, fun _ => ⟨[t], rfl, hlo, rfl, ?_, nofun⟩⟩
      rintro _ ⟨⟩
      exact ⟨htest, rfl⟩
    · rw [if_neg htest]
      exact ⟨List.prefix_refl _, fun _ => ⟨[], hc.symm, hlo, rfl, nofun, fun _ => by
        rw [hc]
        exact Bool.eq_false_iff.mpr htest⟩⟩

theorem takes_accept (test : Token → Bool) :
    Takes lo rest (fun w b hi left => hi = lo ∧
      (b = true → ∃ t, test t = true ∧ w = [t] ∧ rest = t :: left) ∧
      (b = false → w = [] ∧ left.head?.any test = false)) (accept test) := by
  refine Takes.bind (takes_takeIf lo rest test) fun found u mid left => Takes.pure ?_
  rintro ⟨rfl, rfl, hsome, hnone⟩
  cases found with
  | none => exact ⟨rfl, nofun, fun _ => ⟨rfl, hnone rfl⟩⟩
  | some t => exact ⟨rfl, fun _ => ⟨t, (hsome t rfl).1, rfl, (hsome t rfl).2⟩, nofun⟩

theorem takes_expect (test : Token → Bool) (what : String) :
    Takes lo rest (fun w t hi _ => w = [t] ∧ test t = true ∧ hi = lo) (expect test what) := by
  refine Takes.bind (takes_takeIf lo rest test) fun found u mid left => ?_
  cases found with
  | none => exact takes_failHere mid left _ _
  | some t =>
    refine Takes.pure ?_
    rintro ⟨rfl, rfl, hsome, -⟩
    exact ⟨rfl, (hsome t rfl).1, rfl⟩

theorem takes_symbol (s : Symbol) (what : String) :
    Takes lo rest (fun w t hi _ => w = [t] ∧ t.kind = .symbol s ∧ hi = lo) (expectSymbol s what) :=
  (takes_expect lo rest _ what).weaken fun _ _ _ _ _ h => ⟨h.1, (Token.isSymbol_iff _ s).mp h.2.1, h.2.2⟩

theorem takes_discard_symbol (s : Symbol) (what : String) :
    Takes lo rest (fun w _ hi _ => ∃ t : Token, w = [t] ∧ t.kind = .symbol s ∧ hi = lo)
      (discard (expectSymbol s what)) :=
  Takes.map (takes_symbol lo rest s what) fun _ t _ _ h => ⟨t, h⟩

theorem takes_name (what : String) :
    Takes lo rest (fun w t hi _ => NameText lo w t hi) (expectName what) :=
  (takes_expect lo rest _ what).weaken fun _ _ _ _ _ h =>
    ⟨h.1, (TokenKind.same_identifier_iff _).mp h.2.1, h.2.2⟩

theorem takes_reference (name : Token) :
    Takes lo rest (fun w r hi _ => w = [] ∧ hi = lo + 1 ∧ r = ⟨lo, name⟩) (reference name) := by
  intro c hlo hrest
  subst hlo
  exact ⟨List.prefix_refl _, fun _ => ⟨[], hrest.symm, rfl, rfl, rfl⟩⟩

end Steps

theorem Takes.recovering {α : Type} {lo : Nat} {rest : List Token}
    {p : List Token → α → Nat → List Token → Prop} {r : Reading α} (h : Takes lo rest p r) :
    Takes lo rest p (recovering r) := by
  intro c hlo hrest
  have hc := h c hlo hrest
  unfold Reading.recovering
  cases hr : r c with
  | ok a after =>
    rw [hr] at hc
    exact hc
  | error stop after =>
    rw [hr] at hc
    cases stop <;> exact hc

/-! ## What comes of given tokens -/

def Leads {α : Type} (r : Reading α) (lo : Nat) (w : List Token) (next : Reading α) (hi : Nat)
    (rest : List Token) : Prop :=
  ∀ endLine noted, r ⟨w ++ rest, endLine, noted, lo⟩ = next ⟨rest, endLine, noted, hi⟩

/-- The reading takes given tokens and yields a result. -/
abbrev Reads {α : Type} (r : Reading α) (lo : Nat) (w : List Token) (a : α) (hi : Nat)
    (rest : List Token) : Prop :=
  Leads r lo w (pure a) hi rest

section Rules
variable {α β : Type} {lo mid hi : Nat} {t : Token} {u w rest : List Token} {a : α} {b : β}

theorem Leads.refl {r : Reading α} : Leads r lo [] r lo rest :=
  fun _ _ => rfl

theorem Leads.trans {r r' r'' : Reading α} (h : Leads r lo u r' mid (w ++ rest))
    (h' : Leads r' mid w r'' hi rest) : Leads r lo (u ++ w) r'' hi rest := by
  intro endLine noted
  rw [List.append_assoc, h endLine noted, h' endLine noted]

theorem Reads.bind {r : Reading α} {f : α → Reading β} {next : Reading β}
    (h : Reads r lo u a mid (w ++ rest)) (hf : Leads (f a) mid w next hi rest) :
    Leads (r >>= f) lo (u ++ w) next hi rest := by
  intro endLine noted
  have hr := h endLine noted
  change EStateM.bind r f ⟨u ++ w ++ rest, endLine, noted, lo⟩ = _
  unfold EStateM.bind
  rw [List.append_assoc, hr]
  exact hf endLine noted

/-- A first reading that takes one token. -/
theorem Reads.bind_one {r : Reading α} {f : α → Reading β} {next : Reading β}
    (h : Reads r lo [t] a mid (w ++ rest)) (hf : Leads (f a) mid w next hi rest) :
    Leads (r >>= f) lo (t :: w) next hi rest :=
  Reads.bind h hf

/-- A first reading that takes no token. -/
theorem Reads.bind_none {r : Reading α} {f : α → Reading β} {next : Reading β}
    (h : Reads r lo [] a mid (w ++ rest)) (hf : Leads (f a) mid w next hi rest) :
    Leads (r >>= f) lo w next hi rest :=
  Reads.bind h hf

/-- A second reading that takes no token. -/
theorem Reads.bind_last {r : Reading α} {f : α → Reading β} {next : Reading β}
    (h : Reads r lo w a mid rest) (hf : Leads (f a) mid [] next hi rest) :
    Leads (r >>= f) lo w next hi rest := by
  have hboth := Reads.bind (w := []) h hf
  rwa [List.append_nil] at hboth

theorem Reads.map {r : Reading α} (f : α → β) (h : Reads r lo w a hi rest) :
    Reads (f <$> r) lo w (f a) hi rest := by
  intro endLine noted
  have hr := h endLine noted
  change EStateM.map f r ⟨w ++ rest, endLine, noted, lo⟩ = _
  unfold EStateM.map
  rw [hr]
  rfl

theorem Leads.recovering {r : Reading α} (h : Reads r lo w a hi rest) :
    Reads (recovering r) lo w a hi rest := by
  intro endLine noted
  unfold Reading.recovering
  rw [h endLine noted]
  rfl

end Rules

section Steps
variable {lo : Nat} {t : Token} {rest : List Token} {test : Token → Bool}

theorem reads_takeIf (h : test t = true) : Reads (takeIf test) lo [t] (some t) lo rest := by
  intro endLine noted
  change (if test t = true then _ else _) = _
  rw [if_pos h]
  rfl

theorem reads_takeIf_none (h : ∀ t ∈ rest.head?, test t = false) :
    Reads (takeIf test) lo [] none lo rest := by
  intro endLine noted
  cases rest with
  | nil => rfl
  | cons t rest =>
    change (if test t = true then _ else _) = _
    rw [if_neg (by rw [h t rfl]; exact Bool.false_ne_true)]
    rfl

theorem reads_accept (h : test t = true) : Reads (accept test) lo [t] true lo rest :=
  Reads.bind_one (reads_takeIf h) Leads.refl

theorem reads_accept_none (h : ∀ t ∈ rest.head?, test t = false) :
    Reads (accept test) lo [] false lo rest :=
  Reads.bind_none (reads_takeIf_none h) Leads.refl

theorem reads_takeIf_other (h : test t = false) : Reads (takeIf test) lo [] none lo (t :: rest) :=
  reads_takeIf_none (by rintro _ ⟨⟩; exact h)

theorem reads_accept_other (h : test t = false) : Reads (accept test) lo [] false lo (t :: rest) :=
  reads_accept_none (by rintro _ ⟨⟩; exact h)

theorem reads_expect (what : String) (h : test t = true) :
    Reads (expect test what) lo [t] t lo rest :=
  Reads.bind_one (reads_takeIf h) Leads.refl

theorem reads_symbol {s : Symbol} (what : String) (h : t.kind = .symbol s) :
    Reads (expectSymbol s what) lo [t] t lo rest :=
  reads_expect what ((Token.isSymbol_iff t s).mpr h)

theorem reads_discard_symbol {s : Symbol} (what : String) (h : t.kind = .symbol s) :
    Reads (discard (expectSymbol s what)) lo [t] () lo rest :=
  Reads.map _ (reads_symbol what h)

theorem reads_name (what : String) (h : t.kind = .identifier) :
    Reads (expectName what) lo [t] t lo rest :=
  reads_expect what ((TokenKind.same_identifier_iff t.kind).mpr h)

theorem reads_nextIs : Reads (nextIs test) lo [] (rest.head?.any test) lo rest :=
  fun _ _ => rfl

theorem reads_atEnd : Reads atEnd lo [] rest.isEmpty lo rest :=
  fun _ _ => rfl

theorem reads_peek : Reads peek lo [] t lo (t :: rest) :=
  fun _ _ => rfl

theorem reads_skip : Reads skip lo [t] () lo rest :=
  fun _ _ => rfl

theorem reads_reference (name : Token) : Reads (reference name) lo [] ⟨lo, name⟩ (lo + 1) rest :=
  fun _ _ => rfl

end Steps
end LoxLang.Reading
