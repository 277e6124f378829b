import LoxLang.Proofs.Syntax.Events

/-!
Every rule of the grammar gets on from every place, so that none uses up the bound on its depth,
which only has to exceed the number of tokens left by a few. `Proceeds room least t` says of a traced
reading `t` what it does wherever at most `room` tokens are left: all that happens is sound, each
fault that arises is noted or stops it, and at least `least` tokens are taken where it yields a
result. Loops and nested rules go down on the tokens: what a rule has taken before it nests another
one makes room for the smaller bound of that one.
-/
namespace LoxLang
set_option autoImplicit false

/-- A place in the tokens that are left at another one. -/
structure Cursor.Reaches (c place : Cursor) : Prop where
  rest : place.rest <:+ c.rest
  endLine : place.endLine = c.endLine

theorem Cursor.Reaches.refl (c : Cursor) : c.Reaches c :=
  ⟨List.suffix_refl _, rfl⟩

theorem Cursor.Reaches.trans {c mid place : Cursor} (h : c.Reaches mid) (h' : mid.Reaches place) :
    c.Reaches place :=
  ⟨h'.rest.trans h.rest, h'.endLine.trans h.endLine⟩

/-- What happens from a place on stays within the tokens that are left there, a declaration takes
some if there are any, and no fault is about the bound on the depth. -/
def Event.Sound (c : Cursor) : Event → Prop
  | .look place => c.Reaches place
  | .raised f => f.cause ≠ .nestedTooDeeply
  | .declared before after => c.Reaches before ∧ before.Reaches after ∧
    (before.rest ≠ [] → after.rest.length < before.rest.length)

theorem Event.Sound.trans {c mid : Cursor} {e : Event} (hmid : c.Reaches mid) (h : e.Sound mid) :
    e.Sound c := by
  cases e with
  | look place => exact hmid.trans h
  | raised f => exact h
  | declared before after => exact ⟨hmid.trans h.1, h.2⟩

/-- A reading that started at a place ends somewhere in the tokens that were left there, and the
faults that arose are those that have been noted since and the one that stops it. -/
def Reading.Accounts {α : Type} (c : Cursor) (faults : List SyntaxFault) :
    EStateM.Result Stop Cursor α → Prop
  | .ok _ after => c.Reaches after ∧ after.noted = c.noted ++ faults
  | .error (.fault f) after => c.Reaches after ∧ after.noted ++ [f] = c.noted ++ faults
  | .error .tooDeep _ => False

theorem Reading.Accounts.reaches {α : Type} {c : Cursor} {faults : List SyntaxFault}
    {result : EStateM.Result Stop Cursor α} (h : Accounts c faults result) :
    c.Reaches (placeOf result) := by
  match result, h with
  | .ok _ _, h => exact h.1
  | .error (.fault _) _, h => exact h.1

/-- The faults of a second reading come after those of the first one. -/
theorem Reading.Accounts.trans {α β : Type} {c mid : Cursor} {a : α}
    {first second : List SyntaxFault} {result : EStateM.Result Stop Cursor β}
    (h : Accounts c first (.ok a mid : EStateM.Result Stop Cursor α))
    (h' : Accounts mid second result) : Accounts c (first ++ second) result := by
  obtain ⟨hmid, hnoted⟩ := h
  match result, h' with
  | .ok _ after, ⟨hafter, hnoted'⟩ =>
    exact ⟨hmid.trans hafter, by rw [hnoted', hnoted, List.append_assoc]⟩
  | .error (.fault f) after, ⟨hafter, hnoted'⟩ =>
    exact ⟨hmid.trans hafter, by rw [hnoted', hnoted, List.append_assoc]⟩

namespace Traced
open Reading

/-- What a reading does from a place on, where a result comes after at least some tokens. -/
structure ProceedsAt {α : Type} (c : Cursor) (least : Nat) (t : Traced α) : Prop where
  sound : ∀ e ∈ t.events c, e.Sound c
  accounts : Accounts c ((t.events c).filterMap Event.fault?) (t.read c)
  takes : ∀ a after, t.read c = .ok a after → after.rest.length + least ≤ c.rest.length

def Proceeds {α : Type} (room least : Nat) (t : Traced α) : Prop :=
  ∀ c : Cursor, c.rest.length ≤ room → ProceedsAt c least t

section Rules
variable {α β : Type} {room room' least least' : Nat} {c : Cursor} {t : Traced α}
  {f : α → Traced β}

theorem ProceedsAt.weaken (h : ProceedsAt c least t) (hleast : least' ≤ least) :
    ProceedsAt c least' t :=
  ⟨h.sound, h.accounts, fun a after ha => by have := h.takes a after ha; omega⟩

theorem Proceeds.weaken (h : Proceeds room least t) (hroom : room' ≤ room)
    (hleast : least' ≤ least) : Proceeds room' least' t :=
  fun c hc => (h c (Nat.le_trans hc hroom)).weaken hleast

theorem Proceeds.pure (a : α) : Proceeds room 0 (Pure.pure a : Traced α) := by
  intro c _
  refine ⟨nofun, ⟨.refl c, (List.append_nil _).symm⟩, ?_⟩
  rintro _ _ ⟨⟩
  exact Nat.le_refl _

/-- A first reading that yields a result, and what is read after it. -/
theorem ProceedsAt.step {mid : Cursor} {a : α} {more : Nat} (h : ProceedsAt c 0 t)
    (hr : t.read c = .ok a mid) (hmid : ProceedsAt mid more (f a))
    (hleast : mid.rest.length + least ≤ c.rest.length + more) : ProceedsAt c least (t >>= f) := by
  have hfirst := h.accounts
  rw [hr] at hfirst
  constructor
  · rw [events_bind_of_ok hr]
    exact fun e he => (List.mem_append.mp he).elim (h.sound e) fun hsecond =>
      (hmid.sound e hsecond).trans hfirst.1
  · rw [events_bind_of_ok hr, List.filterMap_append, read_bind, bind_of_ok hr]
    exact hfirst.trans hmid.accounts
  · intro b after hb
    rw [read_bind, bind_of_ok hr] at hb
    have hafter := hmid.takes b after hb
    omega

theorem ProceedsAt.bind (h : ProceedsAt c least t)
    (hf : ∀ a mid, t.read c = .ok a mid → ProceedsAt mid (least' - least) (f a)) :
    ProceedsAt c least' (t >>= f) := by
  cases hr : t.read c with
  | ok a mid =>
    have hmid := h.takes a mid hr
    exact (h.weaken (Nat.zero_le least)).step hr (hf a mid hr) (by omega)
  | error stop after =>
    have hstop := h.accounts
    rw [hr] at hstop
    have hread : (t >>= f).read c = .error stop after := bind_of_error hr
    constructor
    · rw [events_bind_of_error hr]
      exact h.sound
    · rw [events_bind_of_error hr, hread]
      cases stop <;> exact hstop
    · intro b after' hb
      rw [hread] at hb
      cases hb

/-- What the first reading takes makes room for the second one. -/
theorem Proceeds.bind (h : Proceeds room least t)
    (hf : ∀ a, least ≤ room → Proceeds (room - least) (least' - least) (f a)) :
    Proceeds room least' (t >>= f) := by
  intro c hc
  have hfirst := h c hc
  refine hfirst.bind fun a mid hr => ?_
  have hmid := hfirst.takes a mid hr
  exact hf a (by omega) mid (by omega)

/-- A first reading that need not take anything. -/
theorem Proceeds.after (h : Proceeds room 0 t) (hf : ∀ a, Proceeds room least' (f a)) :
    Proceeds room least' (t >>= f) :=
  Proceeds.bind h fun a _ => hf a

theorem Proceeds.map (g : α → β) (h : Proceeds room least t) : Proceeds room least (g <$> t) :=
  Proceeds.bind h fun a _ => (Proceeds.pure (g a)).weaken (Nat.le_refl _) (by omega)

theorem Proceeds.ite {t' : Traced α} {b : Prop} [Decidable b] (h : b → Proceeds room least t)
    (h' : ¬ b → Proceeds room least t') : Proceeds room least (if b then t else t') := by
  split
  · exact h ‹_›
  · exact h' ‹_›

end Rules

/-! ## The steps of reading -/

section Steps
variable {α β : Type} {room least : Nat}

theorem look_proceeds {r : Reading α} (h : Looks r) : Proceeds room 0 (look r) := by
  intro c _
  obtain ⟨a, after, hr, hrest, hend, hnoted⟩ := h.yields c
  have hread : (look r).read c = .ok a after := hr
  refine ⟨?_, ?_, fun b place hb => ?_⟩
  · rintro _ (_ | ⟨_, ⟨⟩⟩)
    exact Cursor.Reaches.refl c
  · rw [hread]
    exact ⟨⟨hrest, hend⟩, hnoted.trans (List.append_nil _).symm⟩
  · rw [hread] at hb
    cases hb
    exact hrest.length_le

theorem proceeds_peek : Proceeds room 0 (Steps.peek : Traced Token) :=
  look_proceeds .peek

theorem proceeds_atEnd : Proceeds room 0 (Steps.atEnd : Traced Bool) :=
  look_proceeds .atEnd

theorem proceeds_nextIs (test : Token → Bool) : Proceeds room 0 (Steps.nextIs test : Traced Bool) :=
  look_proceeds (.nextIs test)

theorem proceeds_reference (name : Token) :
    Proceeds room 0 (Steps.reference name : Traced Reference) := by
  intro c _
  refine ⟨nofun, ⟨⟨List.suffix_refl _, rfl⟩, (List.append_nil _).symm⟩, ?_⟩
  rintro _ _ ⟨⟩
  exact Nat.le_refl _

theorem proceeds_note {cause : SyntaxCause} (hcause : cause ≠ .nestedTooDeeply) (token : Token) :
    Proceeds room 0 (Steps.note cause token : Traced Unit) := by
  intro c _
  refine ⟨?_, ⟨⟨List.suffix_refl _, rfl⟩, rfl⟩, ?_⟩
  · rintro _ (_ | ⟨_, ⟨⟩⟩)
    exact hcause
  · rintro _ _ ⟨⟩
    exact Nat.le_refl _

/-- A reading that only stops takes as much as one likes. -/
theorem proceeds_failHere {cause : SyntaxCause} (hcause : cause ≠ .nestedTooDeeply) :
    Proceeds room least (Steps.failHere cause : Traced α) := by
  intro c _
  refine ⟨?_, ⟨.refl c, rfl⟩, nofun⟩
  rintro _ (_ | ⟨_, _ | ⟨_, ⟨⟩⟩⟩)
  · exact Cursor.Reaches.refl c
  · exact hcause

/-- A token that is taken makes room for one less in what follows it. -/
theorem proceeds_takeIf {test : Token → Bool} {f : Option Token → Traced β}
    (hsome : ∀ t, 0 < room → Proceeds (room - 1) (least - 1) (f (some t)))
    (hnone : Proceeds room least (f none)) : Proceeds room least (Steps.takeIf test >>= f) := by
  intro c hc
  have hlook := look_proceeds (.takeIf test) c hc
  obtain hr | ⟨t, rest, hrest, _, hr⟩ := takeIf_cases test c
  · exact hlook.step hr (hnone c hc) (Nat.le_refl _)
  · rw [hrest, List.length_cons] at hc
    have hmid := hsome t (by omega) { c with rest } (Nat.le_sub_one_of_lt hc)
    refine hlook.step hr hmid ?_
    rw [hrest, List.length_cons]
    dsimp only
    omega

theorem proceeds_accept {test : Token → Bool} {f : Bool → Traced β}
    (htrue : 0 < room → Proceeds (room - 1) (least - 1) (f true))
    (hfalse : Proceeds room least (f false)) : Proceeds room least (accept test >>= f) := by
  intro c hc
  have hlook : ProceedsAt c 0 (accept test : Traced Bool) :=
    Proceeds.map Option.isSome (look_proceeds (.takeIf test)) c hc
  obtain hr | ⟨t, rest, hrest, _, hr⟩ := takeIf_cases test c
  · exact hlook.step (bind_of_ok hr) (hfalse c hc) (Nat.le_refl _)
  · rw [hrest, List.length_cons] at hc
    have hmid := htrue (by omega) { c with rest } (Nat.le_sub_one_of_lt hc)
    refine hlook.step (bind_of_ok hr) hmid ?_
    rw [hrest, List.length_cons]
    dsimp only
    omega

theorem proceeds_expect (test : Token → Bool) (what : String) :
    Proceeds room 1 (expect test what : Traced Token) := by
  unfold expect
  exact proceeds_takeIf (fun t _ => Proceeds.pure t) (proceeds_failHere SyntaxCause.noConfusion)

theorem proceeds_discard_symbol (s : Symbol) (what : String) :
    Proceeds room 1 (discard (expectSymbol s what) : Traced Unit) :=
  Proceeds.map _ (proceeds_expect _ what)

/-- The symbol at the end of a rule. -/
theorem proceeds_closing (s : Symbol) (what : String) (a : α) : Proceeds room 0 (do
    discard (expectSymbol s what)
    return a) :=
  Proceeds.bind (proceeds_discard_symbol s what) fun _ _ => Proceeds.pure a

end Steps

/-! ## Lists between parentheses -/

section Items
variable {α : Type} {room least : Nat} {item : Traced α} {excess : SyntaxCause}

theorem commaList_proceeds (hexcess : excess ≠ .nestedTooDeeply) {fuel : Nat}
    (hitem : Proceeds room 1 item) (hfuel : room < fuel) (count : Nat) :
    Proceeds room 1 (commaList excess item fuel count) := by
  induction fuel generalizing room count with
  | zero => exact absurd hfuel (Nat.not_lt_zero room)
  | succ fuel ih =>
    have hitems : Proceeds room 1 (do
        let first ← item
        if ← accept (·.isSymbol .comma) then
          return first :: (← commaList excess item fuel (count + 1))
        else
          return [first]) := by
      refine Proceeds.bind hitem fun first hroom => proceeds_accept (fun hroom' => ?_) (Proceeds.pure _)
      have hmore := ih (hitem.weaken (by omega) (Nat.le_refl 1)) (by omega : room - 2 < fuel) (count + 1)
      exact (Proceeds.map _ hmore).weaken (Nat.le_refl _) (Nat.zero_le _)
    rw [commaList]
    refine Proceeds.ite (fun _ => ?_) fun _ => hitems
    refine Proceeds.after proceeds_peek fun t => ?_
    exact Proceeds.after (proceeds_note hexcess t) fun _ => hitems

theorem parenthesized_proceeds (hexcess : excess ≠ .nestedTooDeeply) {fuel : Nat}
    (hitem : Proceeds room 1 item) (hfuel : room < fuel) (what : String) :
    Proceeds room 1 (parenthesized excess item fuel what) := by
  have hclose : ∀ items : List α, Proceeds room 1 (do
      return (items, ← expectSymbol .rightParen what)) := fun items =>
    Proceeds.map _ (proceeds_expect _ what)
  unfold parenthesized
  refine Proceeds.after (proceeds_nextIs _) fun empty => ?_
  refine Proceeds.ite (fun _ => ?_) fun _ => ?_
  · exact Proceeds.after (Proceeds.pure []) hclose
  · refine Proceeds.after ?_ hclose
    exact (commaList_proceeds hexcess hitem hfuel 0).weaken (Nat.le_refl _) (Nat.zero_le 1)

end Items

/-! ## Expressions -/

section Expressions
variable {room fuel : Nat} {r : Traced Expr}

/-- A rule that nests expressions behind a token has room for them if there is one. -/
theorem primary_proceeds (hr : 0 < room → Proceeds (room - 1) 1 r) :
    Proceeds room 1 (primary r) := by
  intro c hc
  unfold primary
  have hpeek : (Steps.peek : Traced Token).read c = .ok c.peek c := rfl
  refine (proceeds_peek c hc).step hpeek ?_ (Nat.le_refl _)
  cases hrest : c.rest with
  | nil =>
    -- No operand starts with the end of input.
    have hend : c.peek.kind = .endOfInput := by
      rw [Cursor.peek, hrest]
      rfl
    rw [hend]
    exact proceeds_failHere SyntaxCause.noConfusion c hc
  | cons t rest =>
    rw [hrest, List.length_cons] at hc
    have hskip : ∀ {f : Unit → Traced Expr}, Proceeds (room - 1) 0 (f ()) →
        ProceedsAt c 1 (Steps.skip >>= f) := by
      intro f hf
      have hlength : c.rest.tail.length = rest.length := by rw [hrest, List.tail_cons]
      have hmid := hf { c with rest := c.rest.tail } (by dsimp only; omega)
      have hread : (Steps.skip : Traced Unit).read c = .ok () { c with rest := c.rest.tail } := rfl
      exact (look_proceeds .skip c (Nat.le_refl _)).step hread hmid (by
        rw [hrest]
        exact Nat.le_refl _)
    have hr' := hr (by omega)
    split
    · exact hskip (Proceeds.map _ (proceeds_reference _))
    · exact hskip (Proceeds.map _ (proceeds_reference _))
    · refine hskip (Proceeds.bind (proceeds_discard_symbol _ _) fun _ _ => ?_)
      refine Proceeds.bind (proceeds_expect _ _) fun method _ => ?_
      exact Proceeds.after (proceeds_reference _) fun _ => Proceeds.pure _
    · refine hskip (Proceeds.bind hr' fun inner _ => ?_)
      exact (Proceeds.map _ (proceeds_discard_symbol _ _)).weaken (Nat.le_refl _) (Nat.zero_le 1)
    · split
      · exact hskip (Proceeds.pure _)
      · exact proceeds_failHere SyntaxCause.noConfusion c (Nat.le_refl _)

theorem callsFrom_proceeds (hr : Proceeds room 1 r) (hfuel : room < fuel) (callee : Expr) :
    Proceeds room 0 (callsFrom r fuel callee) := by
  induction fuel generalizing room callee with
  | zero => exact absurd hfuel (Nat.not_lt_zero room)
  | succ fuel ih =>
    rw [callsFrom]
    refine proceeds_accept (fun hroom => ?_) (proceeds_accept (fun hroom => ?_) (Proceeds.pure _))
    · have hr' := hr.weaken (Nat.sub_le room 1) (Nat.le_refl 1)
      refine Proceeds.bind (parenthesized_proceeds SyntaxCause.noConfusion hr' (by omega) _) ?_
      rintro ⟨arguments, paren⟩ _
      exact ih (hr.weaken (by omega) (Nat.le_refl 1)) (by omega) _
    · refine Proceeds.bind (proceeds_expect _ _) fun name _ => ?_
      exact ih (hr.weaken (by omega) (Nat.le_refl 1)) (by omega) _

theorem call_proceeds (hr : 0 < room → Proceeds (room - 1) 1 r) (hfuel : room ≤ fuel) :
    Proceeds room 1 (call r fuel) := by
  refine Proceeds.bind (primary_proceeds hr) fun callee hroom => ?_
  exact callsFrom_proceeds (hr hroom) (by omega) callee

theorem unary_proceeds {operand : Traced Expr} (h : Proceeds room 1 operand)
    (hfuel : room < fuel) : Proceeds room 1 (unary operand fuel) := by
  induction fuel generalizing room with
  | zero => exact absurd hfuel (Nat.not_lt_zero room)
  | succ fuel ih =>
    rw [unary]
    refine proceeds_takeIf (fun operator hroom => ?_) h
    have hinner := ih (h.weaken (Nat.sub_le room 1) (Nat.le_refl 1)) (by omega)
    exact (Proceeds.map _ hinner).weaken (Nat.le_refl _) (Nat.zero_le 1)

theorem operatorsFrom_proceeds (level : OperatorLevel) {operand : Traced Expr}
    (h : Proceeds room 1 operand) (hfuel : room < fuel) (left : Expr) :
    Proceeds room 0 (operatorsFrom level operand fuel left) := by
  induction fuel generalizing room left with
  | zero => exact absurd hfuel (Nat.not_lt_zero room)
  | succ fuel ih =>
    rw [operatorsFrom]
    refine proceeds_takeIf (fun operator hroom => ?_) (Proceeds.pure _)
    refine Proceeds.bind (h.weaken (Nat.sub_le room 1) (Nat.le_refl 1)) fun right _ => ?_
    exact ih (h.weaken (by omega) (Nat.le_refl 1)) (by omega) _

theorem joined_proceeds {operand : Traced Expr} (h : Proceeds room 1 operand)
    (hfuel : room < fuel) (levels : List OperatorLevel) :
    Proceeds room 1 (joined operand fuel levels) := by
  induction levels with
  | nil => exact h
  | cons level tighter ih =>
    refine Proceeds.bind ih fun left _ => ?_
    exact operatorsFrom_proceeds level (ih.weaken (Nat.sub_le room 1) (Nat.le_refl 1)) (by omega) left

theorem assignment_proceeds (hr : 0 < room → Proceeds (room - 1) 1 r) (hfuel : room < fuel) :
    Proceeds room 1 (assignment r fuel) := by
  have htarget : Proceeds room 1 (joined (unary (call r fuel) fuel) fuel OperatorLevel.all) :=
    joined_proceeds (unary_proceeds (call_proceeds hr (Nat.le_of_lt hfuel)) hfuel) hfuel _
  unfold assignment
  refine Proceeds.bind htarget fun target hroom =>
    proceeds_takeIf (fun equals _ => ?_) (Proceeds.pure _)
  have hvalue := (hr hroom).weaken (Nat.sub_le (room - 1) 1) (Nat.zero_le 1)
  refine Proceeds.after hvalue fun value => ?_
  split
  · exact Proceeds.after (proceeds_reference _) fun _ => Proceeds.pure _
  · exact Proceeds.pure _
  · exact Proceeds.after (proceeds_note SyntaxCause.noConfusion equals) fun _ => Proceeds.pure _

/-- Nesting goes at most as deep as there are tokens. -/
theorem expression_proceeds (hfuel : room + 1 < fuel) : Proceeds room 1 (expression fuel) := by
  induction fuel generalizing room with
  | zero => exact absurd hfuel (Nat.not_lt_zero _)
  | succ fuel ih =>
    exact assignment_proceeds (fun hroom => ih (by omega)) (by omega)

end Expressions

/-! ## Statements -/

section Statements
variable {room least fuel : Nat} {declaration statement : Traced Stmt}

theorem optionalExpression_proceeds (hfuel : room + 1 < fuel) (closing : Symbol) :
    Proceeds room 0 (optionalExpression fuel closing) := by
  refine Proceeds.after (proceeds_nextIs _) fun closes => ?_
  refine Proceeds.ite (fun _ => Proceeds.pure _) fun _ => ?_
  exact (Proceeds.map _ (expression_proceeds hfuel)).weaken (Nat.le_refl _) (Nat.zero_le 1)

theorem condition_proceeds (hfuel : room + 1 < fuel) (before after : String) :
    Proceeds room 1 (condition fuel before after) := by
  refine Proceeds.bind (proceeds_discard_symbol _ _) fun _ _ => ?_
  exact Proceeds.bind (expression_proceeds (by omega)) fun e _ => proceeds_closing _ _ e

theorem expressionStatement_proceeds (hfuel : room + 1 < fuel) :
    Proceeds room 1 (expressionStatement fuel) :=
  Proceeds.bind (expression_proceeds hfuel) fun _ _ => proceeds_closing _ _ _

theorem variableFrom_proceeds (hfuel : room + 1 < fuel) : Proceeds room 1 (variableFrom fuel) := by
  refine Proceeds.bind (proceeds_expect _ _) fun name _ => proceeds_accept (fun _ => ?_) ?_
  · exact Proceeds.bind (Proceeds.map some (expression_proceeds (by omega))) fun e _ =>
      proceeds_closing _ _ _
  · exact Proceeds.after (Proceeds.pure none) fun e => proceeds_closing _ _ _

/-! ## Blocks and functions -/

/-- A reading of declarations: from every place where tokens are left it gets further, also where it
stops. -/
structure Declares (room : Nat) (declaration : Traced Stmt) : Prop where
  proceeds : Proceeds room 1 declaration
  passes : ∀ c : Cursor, c.rest ≠ [] → c.rest.length ≤ room →
    (placeOf (declaration.read c)).rest.length < c.rest.length

theorem Declares.weaken {room' : Nat} (h : Declares room declaration) (hroom : room' ≤ room) :
    Declares room' declaration :=
  ⟨h.proceeds.weaken hroom (Nat.le_refl 1), fun c hrest hc =>
    h.passes c hrest (Nat.le_trans hc hroom)⟩

theorem Declares.attempt (h : Declares room declaration) {c : Cursor} (hrest : c.rest ≠ [])
    (hc : c.rest.length ≤ room) : ProceedsAt c 1 (Steps.attempt declaration) := by
  obtain ⟨hsound, haccounts, htakes⟩ := h.proceeds c hc
  have hpasses := h.passes c hrest hc
  have hread : (Steps.attempt declaration).read c = Reading.attempt declaration.read c := rfl
  cases hr : declaration.read c with
  | ok s after =>
    rw [hr] at haccounts
    have hsome : (Steps.attempt declaration).read c = .ok (some s) after := by
      rw [hread, Reading.attempt, hr]
    refine ⟨hsound, by rw [hsome]; exact haccounts, fun found place hfound => ?_⟩
    rw [hsome] at hfound
    cases hfound
    exact htakes s after hr
  | error stop after =>
    rw [hr] at haccounts hpasses
    cases stop with
    | tooDeep => exact haccounts.elim
    | fault f =>
      have hnone : (Steps.attempt declaration).read c =
          .ok none { after with noted := after.noted ++ [f] } := by
        rw [hread, Reading.attempt, hr]
      refine ⟨hsound, ?_, fun found place hfound => ?_⟩
      · rw [hnone]
        exact ⟨⟨haccounts.1.rest, haccounts.1.endLine⟩, haccounts.2⟩
      · rw [hnone] at hfound
        cases hfound
        exact hpasses

theorem declarationsFrom_proceeds (h : Declares room declaration) (hfuel : room < fuel) :
    Proceeds room 0 (declarationsFrom declaration fuel) := by
  induction fuel generalizing room with
  | zero => exact absurd hfuel (Nat.not_lt_zero room)
  | succ fuel ih =>
    intro c hc
    have hmore : c.rest ≠ [] → ProceedsAt c 0 (do
        let first ← Steps.attempt declaration
        let rest ← declarationsFrom declaration fuel
        return first.toList ++ rest) := by
      intro hrest
      have hattempt := h.attempt hrest hc
      refine hattempt.bind fun first mid hr => ?_
      have hmid := hattempt.takes first mid hr
      have hothers := ih (h.weaken (Nat.sub_le room 1)) (by omega)
      exact Proceeds.map _ hothers mid (by omega)
    have hatEnd : (Steps.atEnd : Traced Bool).read c = .ok c.rest.isEmpty c := rfl
    have hnextIs : (Steps.nextIs (·.isSymbol .rightBrace) : Traced Bool).read c =
        .ok (c.rest.head?.any (·.isSymbol .rightBrace)) c := rfl
    rw [declarationsFrom]
    refine (proceeds_atEnd c hc).step hatEnd ?_ (Nat.le_refl _)
    refine (proceeds_nextIs _ c hc).step hnextIs ?_ (Nat.le_refl _)
    split
    · exact Proceeds.pure [] c hc
    · rename_i hopen
      exact hmore fun hrest => hopen (by rw [hrest]; rfl)

theorem block_proceeds (h : Declares room declaration) (hfuel : room < fuel) :
    Proceeds room 0 (block declaration fuel) :=
  Proceeds.after (declarationsFrom_proceeds h hfuel) fun body => proceeds_closing _ _ body

theorem function_proceeds (h : Declares (room - 1) declaration) (hfuel : room ≤ fuel)
    (kind : String) : Proceeds room 1 (function declaration fuel kind) := by
  refine Proceeds.bind (proceeds_expect _ _) fun name hroom => ?_
  refine Proceeds.bind (proceeds_discard_symbol _ _) fun _ _ => ?_
  have hparams : Proceeds (room - 2) 1
      (parenthesized .tooManyParameters (expectName "parameter name") fuel "')' after parameters") :=
    parenthesized_proceeds SyntaxCause.noConfusion (proceeds_expect _ _) (by omega) _
  have hbody : Proceeds (room - 4) 0 (block declaration fuel) :=
    block_proceeds (h.weaken (by omega)) (by omega)
  refine Proceeds.bind hparams ?_
  rintro ⟨params, paren⟩ _
  exact Proceeds.bind (proceeds_discard_symbol _ _) fun _ _ => Proceeds.map _ hbody

theorem methodsFrom_proceeds (h : Declares (room - 1) declaration) (hfuel : room < fuel) :
    Proceeds room 0 (methodsFrom declaration fuel) := by
  induction fuel generalizing room with
  | zero => exact absurd hfuel (Nat.not_lt_zero room)
  | succ fuel ih =>
    rw [methodsFrom]
    refine Proceeds.after proceeds_atEnd fun atEnd => ?_
    refine Proceeds.after (proceeds_nextIs _) fun closes => ?_
    refine Proceeds.ite (fun _ => Proceeds.pure _) fun _ => ?_
    refine Proceeds.bind (function_proceeds h (Nat.le_of_lt_succ hfuel) "method") fun first hroom => ?_
    exact Proceeds.map _ (ih (h.weaken (by omega)) (by omega))

theorem classFrom_proceeds (h : Declares (room - 1) declaration) (hfuel : room < fuel) :
    Proceeds room 1 (classFrom declaration fuel) := by
  have hbody : ∀ (name : Token) (superclass : Option Expr), Proceeds (room - 1) 0 (do
      discard (expectSymbol .leftBrace "'\x7b' before class body")
      let methods ← methodsFrom declaration fuel
      discard (expectSymbol .rightBrace "'\x7d' after class body")
      return Stmt.classDeclaration name superclass methods) := by
    intro name superclass
    have hmethods : Proceeds (room - 2) 0 (methodsFrom declaration fuel) :=
      methodsFrom_proceeds (h.weaken (by omega)) (by omega)
    refine Proceeds.bind (proceeds_discard_symbol _ _) fun _ _ => ?_
    exact Proceeds.after hmethods fun methods => proceeds_closing _ _ _
  refine Proceeds.bind (proceeds_expect _ _) fun name _ => proceeds_accept (fun _ => ?_) ?_
  · refine Proceeds.bind (proceeds_expect _ _) fun parent _ => ?_
    refine Proceeds.after (Proceeds.map _ (proceeds_reference parent)) fun superclass => ?_
    exact (hbody name superclass).weaken (by omega) (Nat.le_refl 0)
  · exact Proceeds.after (Proceeds.pure none) fun superclass => hbody name superclass

/-! ## Loops and conditionals -/

theorem forInitializer_proceeds (hfuel : room + 1 < fuel) :
    Proceeds room 1 (forInitializer fuel) := by
  refine proceeds_accept (fun _ => Proceeds.pure _) (proceeds_accept (fun _ => ?_) ?_)
  · exact (Proceeds.map some (variableFrom_proceeds (by omega))).weaken (Nat.le_refl _) (Nat.zero_le 1)
  · exact Proceeds.map some (expressionStatement_proceeds hfuel)

theorem forFrom_proceeds (h : Proceeds (room - 1) 1 statement) (hfuel : room + 1 < fuel) :
    Proceeds room 1 (forFrom statement fuel) := by
  refine Proceeds.bind (proceeds_discard_symbol _ _) fun _ _ => ?_
  refine Proceeds.bind (forInitializer_proceeds (by omega)) fun initializer _ => ?_
  refine Proceeds.after (optionalExpression_proceeds (by omega) _) fun test => ?_
  refine Proceeds.bind (proceeds_discard_symbol _ _) fun _ _ => ?_
  refine Proceeds.after (optionalExpression_proceeds (by omega) _) fun increment => ?_
  refine Proceeds.bind (proceeds_discard_symbol _ _) fun _ _ => ?_
  exact Proceeds.map _ (h.weaken (by omega) (Nat.zero_le 1))

theorem ifFrom_proceeds (h : Proceeds (room - 1) 1 statement) (hfuel : room + 1 < fuel) :
    Proceeds room 1 (ifFrom statement fuel) := by
  refine Proceeds.bind (condition_proceeds hfuel _ _) fun test _ => ?_
  refine Proceeds.after (h.weaken (Nat.le_refl _) (Nat.zero_le 1)) fun thenBranch => ?_
  refine proceeds_accept (fun _ => ?_) ?_
  · refine Proceeds.after ?_ fun elseBranch => Proceeds.pure _
    exact Proceeds.map some (h.weaken (Nat.sub_le _ 1) (Nat.zero_le 1))
  · exact Proceeds.after (Proceeds.pure none) fun elseBranch => Proceeds.pure _

theorem whileFrom_proceeds (h : Proceeds (room - 1) 1 statement) (hfuel : room + 1 < fuel) :
    Proceeds room 1 (whileFrom statement fuel) := by
  refine Proceeds.bind (condition_proceeds hfuel _ _) fun test _ => ?_
  exact Proceeds.map _ (h.weaken (Nat.le_refl _) (Nat.zero_le 1))

theorem printFrom_proceeds (hfuel : room + 1 < fuel) (keyword : Token) :
    Proceeds room 1 (printFrom keyword fuel) :=
  Proceeds.bind (expression_proceeds hfuel) fun _ _ => proceeds_closing _ _ _

theorem returnFrom_proceeds (hfuel : room + 1 < fuel) (keyword : Token) :
    Proceeds room 0 (returnFrom keyword fuel) :=
  Proceeds.after (optionalExpression_proceeds hfuel _) fun _ => proceeds_closing _ _ _

/-- What nests in a statement comes behind its first word. -/
theorem statementForm_proceeds (hd : 0 < room → Declares (room - 1) declaration)
    (hs : 0 < room → Proceeds (room - 1) 1 statement) (hfuel : room + 1 < fuel) :
    Proceeds room 1 (statementForm declaration statement fuel) := by
  have hinner : 0 < room → Proceeds (room - 1 - 1) 1 statement := fun hroom =>
    (hs hroom).weaken (Nat.sub_le _ 1) (Nat.le_refl 1)
  unfold statementForm
  refine proceeds_accept (fun hroom => ?_) ?_
  · exact (forFrom_proceeds (hinner hroom) (by omega)).weaken (Nat.le_refl _) (Nat.zero_le 1)
  refine proceeds_accept (fun hroom => ?_) ?_
  · exact (ifFrom_proceeds (hinner hroom) (by omega)).weaken (Nat.le_refl _) (Nat.zero_le 1)
  refine proceeds_accept (fun hroom => ?_) ?_
  · exact (whileFrom_proceeds (hinner hroom) (by omega)).weaken (Nat.le_refl _) (Nat.zero_le 1)
  refine proceeds_takeIf (fun keyword _ => returnFrom_proceeds (by omega) keyword) ?_
  refine proceeds_accept (fun hroom => Proceeds.map _ (block_proceeds (hd hroom) (by omega))) ?_
  refine proceeds_takeIf (fun keyword _ => ?_) (expressionStatement_proceeds hfuel)
  exact (printFrom_proceeds (by omega) keyword).weaken (Nat.le_refl _) (Nat.zero_le 1)

theorem declarationForm_proceeds (hd : 0 < room → Declares (room - 1) declaration)
    (hs : 0 < room → Proceeds (room - 1) 1 statement) (hfuel : room + 1 < fuel) :
    Proceeds room 1 (declarationForm declaration statement fuel) := by
  have hinner : 0 < room → Declares (room - 1 - 1) declaration := fun hroom =>
    (hd hroom).weaken (Nat.sub_le _ 1)
  unfold declarationForm
  refine proceeds_accept (fun hroom => ?_) ?_
  · exact (classFrom_proceeds (hinner hroom) (by omega)).weaken (Nat.le_refl _) (Nat.zero_le 1)
  refine proceeds_accept (fun hroom => ?_) ?_
  · have hfunction := function_proceeds (hinner hroom) (by omega : room - 1 ≤ fuel) "function"
    exact (Proceeds.map _ hfunction).weaken (Nat.le_refl _) (Nat.zero_le 1)
  refine proceeds_accept (fun hroom => ?_) (statementForm_proceeds hd hs hfuel)
  exact (variableFrom_proceeds (by omega)).weaken (Nat.le_refl _) (Nat.zero_le 1)

/-! ## Declarations -/

theorem resume_length {tokens : List Token} (h : tokens ≠ []) :
    (resume tokens).length < tokens.length := by
  cases tokens with
  | nil => exact absurd rfl h
  | cons t rest => exact Nat.lt_succ_of_le (resumeAfter_suffix t rest).length_le

/-- What is passed over lies within the tokens that are left. -/
theorem passing_sound {result : EStateM.Result Stop Cursor Stmt} {c : Cursor}
    (h : c.Reaches (placeOf result)) : ∀ e ∈ passing result, e.Sound c := by
  cases result with
  | ok s after => exact nofun
  | error stop after =>
    intro e he
    obtain ⟨rest, hrest, rfl⟩ := List.mem_map.mp he
    exact ⟨((List.mem_tails _ _).mp hrest).trans h.rest, h.endLine⟩

/-- No fault arises while the rest of a declaration is passed over. -/
theorem fault?_passing (result : EStateM.Result Stop Cursor Stmt) :
    (passing result).filterMap Event.fault? = [] := by
  cases result with
  | ok s after => rfl
  | error stop after =>
    rw [passing, List.filterMap_map]
    exact List.filterMap_none _

theorem recovering_eq_ok {r : Reading Stmt} {c after : Cursor} {s : Stmt}
    (h : recovering r c = .ok s after) : r c = .ok s after := by
  unfold recovering at h
  split at h
  · cases h
  · exact h

/-- The token at which a declaration stops is passed over, and where there is none left all that
the declaration started with have been. -/
theorem Accounts.recovering {r : Reading Stmt} {c : Cursor} {faults : List SyntaxFault}
    (h : Accounts c faults (r c)) : Accounts c faults (recovering r c) ∧
      (c.rest ≠ [] → (∀ s after, r c = .ok s after → after.rest.length < c.rest.length) →
        (placeOf (Reading.recovering r c)).rest.length < c.rest.length) := by
  unfold Reading.recovering
  cases hr : r c with
  | ok s after =>
    rw [hr] at h
    exact ⟨h, fun _ htakes => htakes s after rfl⟩
  | error stop after =>
    rw [hr] at h
    cases stop with
    | tooDeep => exact h.elim
    | fault f =>
      have hrest := h.1.rest
      refine ⟨⟨⟨(resume_suffix after.rest).trans hrest, h.1.endLine⟩, h.2⟩, fun hopen _ => ?_⟩
      change (resume after.rest).length < c.rest.length
      by_cases hafter : after.rest = []
      · rw [hafter]
        exact List.length_pos_iff.mpr hopen
      · exact Nat.lt_of_lt_of_le (resume_length hafter) hrest.length_le

theorem recovering_declares {t : Traced Stmt} (h : Proceeds room 1 t) :
    Declares room (Steps.recovering t) := by
  have hpasses : ∀ c : Cursor, c.rest ≠ [] → c.rest.length ≤ room →
      (placeOf (recovering t.read c)).rest.length < c.rest.length := fun c hopen hc =>
    (Accounts.recovering (h c hc).accounts).2 hopen (h c hc).takes
  refine ⟨fun c hc => ?_, hpasses⟩
  obtain ⟨hsound, haccounts, htakes⟩ := h c hc
  have hover := (Accounts.recovering haccounts).1
  have hevents : (Steps.recovering t).events c = t.events c ++ (passing (t.read c) ++
      [.declared c (placeOf (recovering t.read c))]) := rfl
  have hfaults : ((Steps.recovering t).events c).filterMap Event.fault? =
      (t.events c).filterMap Event.fault? := by
    rw [hevents, List.filterMap_append, List.filterMap_append, fault?_passing]
    exact List.append_nil _
  refine ⟨?_, ?_, fun s after hs => htakes s after (recovering_eq_ok hs)⟩
  · rw [hevents]
    intro e he
    obtain hinside | he := List.mem_append.mp he
    · exact hsound e hinside
    obtain hpassed | he := List.mem_append.mp he
    · exact passing_sound haccounts.reaches e hpassed
    · cases List.mem_singleton.mp he
      exact ⟨.refl c, hover.reaches, fun hopen => hpasses c hopen hc⟩
  · rw [hfaults]
    exact hover

end Statements

/-- Statements and declarations nest at most as deep as there are tokens. -/
theorem nested_proceeds (fuel : Nat) :
    (∀ room, room + 2 < fuel → Proceeds room 1 (statement fuel : Traced Stmt)) ∧
      ∀ room, room + 2 < fuel → Declares room (declaration fuel) := by
  induction fuel with
  | zero => exact ⟨fun _ h => absurd h (Nat.not_lt_zero _), fun _ h => absurd h (Nat.not_lt_zero _)⟩
  | succ fuel ih =>
    obtain ⟨ihs, ihd⟩ := ih
    constructor
    · intro room hroom
      rw [statement]
      exact statementForm_proceeds (fun _ => ihd _ (by omega)) (fun _ => ihs _ (by omega)) (by omega)
    · intro room hroom
      rw [declaration]
      exact recovering_declares (declarationForm_proceeds (fun _ => ihd _ (by omega))
        (fun _ => ihs _ (by omega)) (by omega))

end Traced
end LoxLang
