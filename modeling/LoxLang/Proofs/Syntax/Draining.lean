import Mathlib.Data.List.TakeWhile
import LoxLang.Proofs.Syntax.Progress
import LoxLang.Syntax.Parser

/-!
Reading any list of tokens comes to an end. The tokens need not end, may go on after an end of input,
and need not make sense: `parser_total` says that a parser on them is drained by finitely many
requests, that it stays within the tokens up to the first end of input, that every declaration takes
a token of those, and that every fault that arises is given once, those noted in a declaration before
the declaration itself or the fault that stopped it.
-/
namespace LoxLang
open Reading
set_option autoImplicit false

/-! ## Positions -/

/-- The tokens with an end of input after them where the last one is none. -/
def closed (tokens : List Token) : List Token :=
  if tokens.getLast?.any Token.isEnd then tokens
  else tokens ++ [.endOn ((tokens.getLast?.map Token.line).getD 1)]

/-- The position of the first end of input. -/
def firstEnd (tokens : List Token) : Nat :=
  (closed tokens).findIdx Token.isEnd

/-- What is left to read at a place are the tokens from some position up to the first end of input,
and the next token is the one at that position. -/
structure Cursor.StandsAt (tokens : List Token) (i : Nat) (c : Cursor) : Prop where
  bound : i ≤ firstEnd tokens
  rest : c.rest = ((closed tokens).take (firstEnd tokens)).drop i
  next : ∃ t, (closed tokens)[i]? = some t ∧ c.peek = if t.isEnd then .endOn t.line else t

/-- Everything happens within the tokens, a declaration takes some of those that are left, and no
fault is about the bound on the depth of reading. -/
def Event.WithinTokens (tokens : List Token) : Event → Prop
  | .look place => ∃ i, place.StandsAt tokens i
  | .raised f => f.cause ≠ .nestedTooDeeply
  | .declared before after => ∃ i j, before.StandsAt tokens i ∧ after.StandsAt tokens j ∧
    (i < firstEnd tokens → i < j)

/-- The tokens up to the first end of input, and that. -/
theorem closed_eq (tokens : List Token) (nextId : Nat) :
    ∃ stop more, closed tokens = (Cursor.start tokens nextId).rest ++ stop :: more ∧
      stop.isEnd = true ∧ stop.line = (Cursor.start tokens nextId).endLine := by
  have hsplit : tokens.takeWhile (!·.isEnd) ++ tokens.dropWhile (!·.isEnd) = tokens :=
    List.takeWhile_append_dropWhile
  cases hdrop : tokens.dropWhile (!·.isEnd) with
  | nil =>
    rw [hdrop, List.append_nil] at hsplit
    have hopen : ¬ tokens.getLast?.any Token.isEnd = true := by
      rw [Option.any_eq_true]
      rintro ⟨t, ht, hend⟩
      have hmem : t ∈ tokens.takeWhile (!·.isEnd) := by rw [hsplit]; exact List.mem_of_getLast? ht
      have hopen := List.mem_takeWhile_imp hmem
      rw [hend] at hopen
      cases hopen
    refine ⟨.endOn ((tokens.getLast?.map Token.line).getD 1), [], ?_, rfl, ?_⟩
    · rw [closed, if_neg hopen, Cursor.start, hsplit]
    · rw [Cursor.start, hsplit, List.drop_length]
      rfl
  | cons stop more =>
    have hstop : stop.isEnd = true := by
      have hhead := List.head?_dropWhile_not (!·.isEnd) tokens
      rw [hdrop] at hhead
      simpa using hhead
    have hline : stop.line = (Cursor.start tokens nextId).endLine := by
      have hleft := congrArg (List.drop (tokens.takeWhile (!·.isEnd)).length) hsplit
      rw [List.drop_left, hdrop] at hleft
      rw [Cursor.start, ← hleft]
    rw [hdrop] at hsplit
    by_cases hlast : tokens.getLast?.any Token.isEnd = true
    · exact ⟨stop, more, by rw [closed, if_pos hlast]; exact hsplit.symm, hstop, hline⟩
    · refine ⟨stop, more ++ [.endOn ((tokens.getLast?.map Token.line).getD 1)], ?_, hstop, hline⟩
      rw [closed, if_neg hlast, ← List.cons_append, ← List.append_assoc]
      exact congrArg (· ++ _) hsplit.symm

theorem firstEnd_eq (tokens : List Token) (nextId : Nat) :
    firstEnd tokens = (Cursor.start tokens nextId).rest.length := by
  obtain ⟨stop, more, hclosed, hstop, _⟩ := closed_eq tokens nextId
  have hopen : (Cursor.start tokens nextId).rest.findIdx Token.isEnd =
      (Cursor.start tokens nextId).rest.length :=
    List.findIdx_eq_length_of_false fun t ht => by simpa using List.mem_takeWhile_imp ht
  rw [firstEnd, hclosed, List.findIdx_append, hopen, if_neg (Nat.lt_irrefl _), List.findIdx_cons,
    hstop]
  exact Nat.zero_add _

/-- A place in the tokens of a reading stands at the position that is as far before the first end of
input as tokens are left. -/
theorem Cursor.Reaches.standsAt {tokens : List Token} {nextId : Nat} {c : Cursor}
    (h : (Cursor.start tokens nextId).Reaches c) :
    c.StandsAt tokens (firstEnd tokens - c.rest.length) := by
  obtain ⟨hrest, hend⟩ := h
  obtain ⟨stop, more, hclosed, hstop, hline⟩ := closed_eq tokens nextId
  have hfirst := firstEnd_eq tokens nextId
  obtain ⟨passed, hpassed⟩ := hrest
  have hposition : firstEnd tokens - c.rest.length = passed.length := by
    rw [hfirst, ← hpassed, List.length_append, Nat.add_sub_cancel_right]
  have htokens : closed tokens = passed ++ (c.rest ++ stop :: more) := by
    rw [hclosed, ← hpassed, List.append_assoc]
  refine ⟨Nat.sub_le _ _, ?_, ?_⟩
  · rw [hposition, hclosed, hfirst, List.take_left, ← hpassed, List.drop_left]
  · rw [hposition, htokens, List.getElem?_append_right (Nat.le_refl _), Nat.sub_self]
    cases hc : c.rest with
    | nil =>
      refine ⟨stop, rfl, ?_⟩
      rw [if_pos hstop, Cursor.peek, hc, hline, hend]
      rfl
    | cons t rest =>
      have ht : t.isEnd = false := by
        have hmem : t ∈ (Cursor.start tokens nextId).rest := by
          rw [← hpassed, hc]
          exact List.mem_append_right _ List.mem_cons_self
        simpa using List.mem_takeWhile_imp hmem
      refine ⟨t, rfl, ?_⟩
      rw [ht, Cursor.peek, hc]
      rfl

/-- What soundly happens in the tokens of a reading stays within them. -/
theorem Event.Sound.withinTokens {tokens : List Token} {nextId : Nat} {c : Cursor} {e : Event}
    (h : e.Sound c) (hc : (Cursor.start tokens nextId).Reaches c) : e.WithinTokens tokens := by
  cases e with
  | look place => exact ⟨_, (hc.trans h).standsAt⟩
  | raised f => exact h
  | declared before after =>
    obtain ⟨hbefore, hafter, htakes⟩ := h
    have hstart := hc.trans hbefore
    refine ⟨_, _, hstart.standsAt, (hstart.trans hafter).standsAt, fun hlt => ?_⟩
    have hfirst := firstEnd_eq tokens nextId
    have hlength := hstart.rest.length_le
    have hshorter := htakes (List.length_pos_iff.mp (by omega))
    omega

/-! ## Declarations one after the other -/

/-- What the tokens from a place on give, declaration by declaration: nothing at the end of input,
and else the faults queued while a declaration is read, the declaration or the fault that stops it,
and what comes after it. The faults that arise in a declaration are those, each of them once. -/
inductive Delivers (tokens : List Token) (depth : Nat) : Cursor → List ProgramItem → Prop
  | nothing {c : Cursor} : c.rest = [] → Delivers tokens depth c []
  | declaration {c after : Cursor} {queued : List SyntaxFault} {item : ProgramItem}
    {items : List ProgramItem} : c.rest ≠ [] → readItem depth c = (item, after) →
    (∀ e ∈ (declaration depth : Traced Stmt).events c, e.WithinTokens tokens) →
    ((declaration depth : Traced Stmt).events c).filterMap Event.fault? =
      queued ++ item.fault?.toList →
    Delivers tokens depth { after with noted := [] } items →
    Delivers tokens depth c (queued.map Except.error ++ item :: items)

section Reading
variable {tokens : List Token} {nextId depth : Nat} {c : Cursor}

/-- A declaration is read or faulty; either way some tokens are given up for it. -/
theorem readItem_proceeds (hdepth : c.rest.length + 2 < depth) (hnoted : c.noted = []) :
    ((declaration depth : Traced Stmt).events c).filterMap Event.fault? =
        (readItem depth c).2.noted ++ (readItem depth c).1.fault?.toList ∧
      c.Reaches (readItem depth c).2 ∧
      (c.rest ≠ [] → (readItem depth c).2.rest.length < c.rest.length) := by
  have hd := (Traced.nested_proceeds depth).2 _ hdepth
  have haccounts := (hd.proceeds c (Nat.le_refl _)).accounts
  have hpasses := fun hopen => hd.passes c hopen (Nat.le_refl _)
  rw [Traced.read_declaration] at haccounts hpasses
  unfold readItem
  cases hr : (declaration depth : Reading Stmt) c with
  | ok s after =>
    rw [hr] at haccounts hpasses
    obtain ⟨hreaches, hfaults⟩ := haccounts
    refine ⟨?_, hreaches, hpasses⟩
    rw [hnoted, List.nil_append] at hfaults
    exact hfaults.symm.trans (List.append_nil _).symm
  | error stop after =>
    rw [hr] at haccounts hpasses
    cases stop with
    | tooDeep => exact haccounts.elim
    | fault f =>
      obtain ⟨hreaches, hfaults⟩ := haccounts
      refine ⟨?_, hreaches, hpasses⟩
      rw [hnoted, List.nil_append] at hfaults
      exact hfaults.symm

theorem programItemsFrom_delivers {fuel : Nat} (hfuel : c.rest.length < fuel)
    (hdepth : c.rest.length + 2 < depth) (hnoted : c.noted = [])
    (hc : (Cursor.start tokens nextId).Reaches c) :
    Delivers tokens depth c (programItemsFrom depth fuel c).1 := by
  induction fuel generalizing c with
  | zero => exact absurd hfuel (Nat.not_lt_zero _)
  | succ fuel ih =>
    rw [programItemsFrom]
    split
    · exact .nothing (List.isEmpty_iff.mp ‹_›)
    · have hopen : c.rest ≠ [] := fun h => ‹¬ _› (List.isEmpty_iff.mpr h)
      have hproceeds := ((Traced.nested_proceeds depth).2 _ hdepth).proceeds c (Nat.le_refl _)
      obtain ⟨hfaults, hafter, hpasses⟩ := readItem_proceeds hdepth hnoted
      have hshorter := hpasses hopen
      refine .declaration hopen rfl (fun e he => (hproceeds.sound e he).withinTokens hc) hfaults ?_
      exact ih (Nat.lt_of_lt_of_le hshorter (Nat.le_of_lt_succ hfuel))
        (Nat.lt_trans (Nat.add_lt_add_right hshorter 2) hdepth) rfl
        (hc.trans ⟨hafter.rest, hafter.endLine⟩)

end Reading

/-! ## Requests -/

namespace Parser

/-- A parser between two requests: the bound on the depth suffices for what is left to read, and no
fault is kept elsewhere than in the queue. -/
structure Ready (fuel : Nat) (p : Parser) : Prop where
  fuel : p.place.rest.length < fuel
  depth : p.place.rest.length + 2 < p.depth
  noted : p.place.noted = []

/-- The items that a parser has still to give: what is queued, and then those from the place that it
has reached. -/
def ahead (fuel : Nat) (p : Parser) : List ProgramItem :=
  p.pending ++ (programItemsFrom p.depth fuel p.place).1

theorem next_step {p : Parser} {fuel : Nat} (h : p.Ready fuel) :
    p.next.1 = (p.ahead fuel).head? ∧
      ∃ fuel', p.next.2.Ready fuel' ∧ p.next.2.ahead fuel' = (p.ahead fuel).tail := by
  obtain ⟨depth, place, pending⟩ := p
  obtain ⟨hfuel, hdepth, hnoted⟩ := h
  obtain ⟨fuel, rfl⟩ := Nat.exists_eq_succ_of_ne_zero (Nat.ne_zero_of_lt hfuel)
  cases pending with
  | cons item pending => exact ⟨rfl, fuel + 1, ⟨hfuel, hdepth, hnoted⟩, rfl⟩
  | nil =>
    by_cases hopen : place.rest = []
    · have hempty : place.rest.isEmpty = true := List.isEmpty_iff.mpr hopen
      have hitems : (programItemsFrom depth (fuel + 1) place).1 = [] := by
        rw [programItemsFrom, if_pos hempty]
      have hnext : next ⟨depth, place, []⟩ = (none, ⟨depth, place, []⟩) := if_pos hempty
      rw [hnext, ahead, List.nil_append, hitems]
      refine ⟨rfl, fuel + 1, ⟨hfuel, hdepth, hnoted⟩, ?_⟩
      rw [ahead, List.nil_append, hitems]
      rfl
    · have hmore : ¬ place.rest.isEmpty = true := fun h => hopen (List.isEmpty_iff.mp h)
      have hshorter := (readItem_proceeds hdepth hnoted).2.2 hopen
      -- What a declaration brings up is not empty, so that its first item is there to be given.
      have hitems : ahead (fuel + 1) ⟨depth, place, []⟩ =
          ((readItem depth place).2.noted.map Except.error ++ [(readItem depth place).1]) ++
            (programItemsFrom depth fuel { (readItem depth place).2 with noted := [] }).1 := by
        rw [ahead, List.nil_append, programItemsFrom, if_neg hmore, List.append_assoc]
        rfl
      have hnext : next ⟨depth, place, []⟩ =
          (((readItem depth place).2.noted.map Except.error ++ [(readItem depth place).1]).head?,
            ⟨depth, { (readItem depth place).2 with noted := [] },
              ((readItem depth place).2.noted.map Except.error ++
                [(readItem depth place).1]).tail⟩) := if_neg hmore
      rw [hnext, hitems]
      refine ⟨?_, fuel, ⟨?_, ?_, rfl⟩, ?_⟩
      · cases (readItem depth place).2.noted <;> rfl
      · exact Nat.lt_of_lt_of_le hshorter (Nat.le_of_lt_succ hfuel)
      · exact Nat.lt_trans (Nat.add_lt_add_right hshorter 2) hdepth
      · cases (readItem depth place).2.noted <;> rfl

theorem next_after {p : Parser} {fuel : Nat} (h : p.Ready fuel) (k : Nat) :
    (p.after k).next.1 = (p.ahead fuel)[k]? := by
  induction k generalizing p fuel with
  | zero => rw [after, (next_step h).1, List.head?_eq_getElem?]
  | succ k ih =>
    obtain ⟨_, fuel', hready, htail⟩ := next_step h
    rw [after, ih hready, htail, List.getElem?_tail]

end Parser

/-! ## Single expressions -/

theorem raised_sound {c : Cursor} {events : List Event} (hsound : ∀ e ∈ events, e.Sound c)
    {f : SyntaxFault} (hf : f ∈ events.filterMap Event.fault?) : f.cause ≠ .nestedTooDeeply := by
  obtain ⟨e, he, hfe⟩ := List.mem_filterMap.mp hf
  cases e with
  | raised g =>
    cases hfe
    exact hsound _ he
  | look _ => cases hfe
  | declared _ _ => cases hfe

theorem expressionOfTokens_fault {tokens : List Token} {nextId least : Nat}
    (h : Traced.ProceedsAt (.start tokens nextId) least (expression (depthBound tokens)))
    {f : SyntaxFault} (hf : (expressionOfTokens tokens nextId).1 = .error f) :
    f.cause ≠ .nestedTooDeeply := by
  have hover := h.accounts
  rw [Traced.read_expression] at hover
  unfold expressionOfTokens at hf
  cases hr : (expression (depthBound tokens) : Reading Expr) (.start tokens nextId) with
  | error stop after =>
    have hwhole : wholeExpression (depthBound tokens) (.start tokens nextId) = .error stop after :=
      bind_of_error hr
    rw [hwhole] at hf
    rw [hr] at hover
    cases stop with
    | tooDeep => exact hover.elim
    | fault g =>
      have hlast : g ∈ after.noted ++ [g] := List.mem_append_right _ List.mem_cons_self
      rw [hover.2] at hlast
      cases hf
      exact raised_sound h.sound hlast
  | ok e after =>
    rw [hr] at hover
    cases hnoted : after.noted with
    | cons g more =>
      have hwhole : wholeExpression (depthBound tokens) (.start tokens nextId) =
          .error (.fault g) after := by
        refine (bind_of_ok hr).trans ?_
        rw [hnoted]
      have hfirst : g ∈ after.noted := by rw [hnoted]; exact List.mem_cons_self
      rw [hover.2] at hfirst
      rw [hwhole] at hf
      cases hf
      exact raised_sound h.sound hfirst
    | nil =>
      have hwhole : wholeExpression (depthBound tokens) (.start tokens nextId) =
          if after.rest.isEmpty then .ok e after
          else failHere (.expected "end of expression") after := by
        refine (bind_of_ok hr).trans ?_
        rw [hnoted]
      rw [hwhole] at hf
      by_cases hrest : after.rest.isEmpty = true
      · rw [if_pos hrest] at hf
        cases hf
      · rw [if_neg hrest] at hf
        cases hf
        exact SyntaxCause.noConfusion

/-- A parser on any tokens is drained. The records that `Delivers` speaks of are those of the
readings that the parser is made of, and each reading of a declaration gets further wherever tokens
are left. -/
theorem parser_total (tokens : List Token) (nextId : Nat) :
    firstEnd tokens < (closed tokens).length ∧
    (∀ depth, (declaration depth : Traced Stmt).read = declaration depth ∧
      (expression depth : Traced Expr).read = expression depth) ∧
    (∀ depth (c : Cursor), c.rest ≠ [] → c.rest.length + 2 < depth →
      (placeOf ((declaration depth : Reading Stmt) c)).rest.length < c.rest.length) ∧
    Delivers tokens (depthBound tokens) (.start tokens nextId) (programItems tokens nextId).1 ∧
    (∀ k, ((Parser.start tokens nextId).after k).next.1 = (programItems tokens nextId).1[k]?) ∧
    (∀ e ∈ (expression (depthBound tokens) : Traced Expr).events (.start tokens nextId),
      e.WithinTokens tokens) ∧
    (∀ f, (expressionOfTokens tokens nextId).1 = .error f → f.cause ≠ .nestedTooDeeply) := by
  have hlength : (Cursor.start tokens nextId).rest.length ≤ tokens.length :=
    (List.takeWhile_prefix _).length_le
  have hdepth : (Cursor.start tokens nextId).rest.length + 2 < depthBound tokens := by
    unfold depthBound
    omega
  have hexpression : Traced.ProceedsAt (.start tokens nextId) 1 (expression (depthBound tokens)) :=
    Traced.expression_proceeds (by omega) _ (Nat.le_refl _)
  refine ⟨?_, fun depth => ⟨Traced.read_declaration depth, Traced.read_expression depth⟩, ?_, ?_, ?_,
    ?_, fun f hf => expressionOfTokens_fault hexpression hf⟩
  · obtain ⟨stop, more, hclosed, _, _⟩ := closed_eq tokens nextId
    rw [firstEnd_eq tokens nextId, hclosed, List.length_append, List.length_cons]
    omega
  · intro depth c hopen hroom
    rw [← Traced.read_declaration]
    exact ((Traced.nested_proceeds depth).2 _ hroom).passes c hopen (Nat.le_refl _)
  · exact programItemsFrom_delivers (Nat.lt_succ_self _) hdepth rfl (.refl _)
  · have hready : (Parser.start tokens nextId).Ready ((Cursor.start tokens nextId).rest.length + 1) :=
      ⟨Nat.lt_succ_self _, hdepth, rfl⟩
    exact Parser.next_after hready
  · exact fun e he => (hexpression.sound e he).withinTokens (.refl _)

end LoxLang
