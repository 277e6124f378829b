import LoxLang.Proofs.Syntax.Events

/-!
The order in which faults are found. `Orders whole p least r` says of a reading `r` of tokens `whole`,
which stand on lines that do not go down, that the faults found in it name tokens between the place
where it starts and the one where it ends, and come in the order of these; only the target of an
assignment is blamed after its value has been read. `p` is what the faults that do not stop the
reading are like, given the tokens taken, and at least `least` tokens are taken for a result.
-/
namespace LoxLang
set_option autoImplicit false

/-- What is read as the value of an assignment whose `=` is a given token. -/
def Assigned (whole : List Token) (equals : Token) (value : List Token) : Prop :=
  ∃ left fuel place e after, equals :: (value ++ left) <:+ whole ∧
    (Reading.expression fuel : Reading Expr) place = .ok e after ∧ place.rest = value ++ left ∧
    after.rest = left

/-- What can be found wrong with an expression without giving it up. -/
def SyntaxCause.Tolerated (cause : SyntaxCause) : Prop :=
  cause = .invalidAssignmentTarget ∨ cause = .tooManyArguments

/-- A target is blamed at its `=` after what is wrong with the value. -/
def BlamedLate (whole : List Token) (f g : SyntaxFault) : Prop :=
  g.cause = .invalidAssignmentTarget ∧ f.cause.Tolerated ∧
    ∃ value, Assigned whole g.token value ∧ f.token ∈ value

/-- Of two faults the first names a token that does not come after that of the second, unless the
second blames the target of an assignment whose value the first is about. -/
def InTurn (whole : List Token) (f g : SyntaxFault) : Prop :=
  f.token.line ≤ g.token.line ∨ BlamedLate whole f g

namespace Reading

/-- A place in tokens whose lines do not go down and do not go past that of the end of input. -/
structure Inside (whole : List Token) (c : Cursor) : Prop where
  rest : c.rest <:+ whole
  sorted : whole.Pairwise (·.line ≤ ·.line)
  stop : ∀ t ∈ whole, t.line ≤ c.endLine

/-- Faults between two places, in turn. -/
structure Ordered (whole : List Token) (c after : Cursor) (faults : List SyntaxFault) : Prop where
  bounds : ∀ f ∈ faults, c.peek.line ≤ f.token.line ∧ f.token.line ≤ after.peek.line
  turns : faults.Pairwise (InTurn whole)

def OrdersAt {α : Type} (whole : List Token) (p : SyntaxFault → List Token → Prop) (c : Cursor)
    (least : Nat) (r : Reading α) : Prop :=
  match r c with
  | .ok _ after => ∃ w faults, c.rest = w ++ after.rest ∧ least ≤ w.length ∧
    after.endLine = c.endLine ∧ after.noted = c.noted ++ faults ∧ (∀ f ∈ faults, p f w) ∧
    Ordered whole c after faults
  | .error stop after => ∃ faults, after.rest <:+ c.rest ∧ after.endLine = c.endLine ∧
    after.noted = c.noted ++ faults ∧ Ordered whole c after (faults ++ [stop.report after])

def Orders {α : Type} (whole : List Token) (p : SyntaxFault → List Token → Prop) (least : Nat)
    (r : Reading α) : Prop :=
  ∀ c, Inside whole c → OrdersAt whole p c least r

/-- What holds of a fault among some tokens holds of it among more tokens. -/
def Widens (p : SyntaxFault → List Token → Prop) : Prop :=
  ∀ f u w v, p f w → p f (u ++ w ++ v)

section Rules
variable {α β : Type} {whole : List Token} {p : SyntaxFault → List Token → Prop}
  {least least' : Nat} {r : Reading α} {f : α → Reading β} {c mid after : Cursor}

theorem Inside.onward (h : Inside whole c) (hrest : after.rest <:+ c.rest)
    (hend : after.endLine = c.endLine) : Inside whole after :=
  ⟨hrest.trans h.rest, h.sorted, hend ▸ h.stop⟩

theorem Inside.peek_le_stop (h : Inside whole c) : c.peek.line ≤ c.endLine := by
  unfold Cursor.peek
  cases hrest : c.rest with
  | nil => exact Nat.le_refl _
  | cons t rest => exact h.stop t (h.rest.subset (by rw [hrest]; exact List.mem_cons_self))

/-- What is left farther on stands on no line before. -/
theorem Inside.peek_le (h : Inside whole c) (hrest : after.rest <:+ c.rest)
    (hend : after.endLine = c.endLine) : c.peek.line ≤ after.peek.line := by
  cases hafter : after.rest with
  | nil =>
    have hlast : after.peek.line = c.endLine := by
      rw [Cursor.peek, hafter, ← hend]
      rfl
    rw [hlast]
    exact h.peek_le_stop
  | cons t rest =>
    obtain ⟨w, hw⟩ := hrest
    rw [hafter] at hw
    have hpeek : after.peek = t := by
      rw [Cursor.peek, hafter]
      rfl
    rw [hpeek]
    cases w with
    | nil =>
      rw [Cursor.peek, ← hw]
      exact Nat.le_refl _
    | cons u w =>
      have hleft := h.sorted.sublist h.rest.sublist
      rw [← hw, List.cons_append] at hleft
      have hle := List.rel_of_pairwise_cons hleft (List.mem_append_right w List.mem_cons_self)
      rw [Cursor.peek, ← hw]
      exact hle

theorem Ordered.nil : Ordered whole c after [] :=
  ⟨nofun, List.Pairwise.nil⟩

theorem Ordered.append {first second : List SyntaxFault} (h : Ordered whole c mid first)
    (h' : Ordered whole mid after second) (hmid : c.peek.line ≤ mid.peek.line)
    (hafter : mid.peek.line ≤ after.peek.line) : Ordered whole c after (first ++ second) := by
  refine ⟨fun g hg => ?_, List.pairwise_append.mpr ⟨h.turns, h'.turns, fun f hf g hg => ?_⟩⟩
  · rcases List.mem_append.mp hg with hg | hg
    · exact ⟨(h.bounds g hg).1, (h.bounds g hg).2.trans hafter⟩
    · exact ⟨hmid.trans (h'.bounds g hg).1, (h'.bounds g hg).2⟩
  · exact Or.inl ((h.bounds f hf).2.trans (h'.bounds g hg).1)

/-- A fault at the place from which other faults come. -/
theorem Ordered.cons {faults : List SyntaxFault} (h : Ordered whole c after faults)
    (hle : c.peek.line ≤ after.peek.line) (cause : SyntaxCause) :
    Ordered whole c after (⟨cause, c.peek⟩ :: faults) :=
  ⟨List.forall_mem_cons.mpr ⟨⟨Nat.le_refl _, hle⟩, h.bounds⟩,
    List.pairwise_cons.mpr ⟨fun g hg => Or.inl (h.bounds g hg).1, h.turns⟩⟩

theorem Ordered.single {f : SyntaxFault} (hlo : c.peek.line ≤ f.token.line)
    (hhi : f.token.line ≤ after.peek.line) : Ordered whole c after [f] :=
  ⟨List.forall_mem_singleton.mpr ⟨hlo, hhi⟩, List.pairwise_singleton _ f⟩

theorem OrdersAt.weaken (h : OrdersAt whole p c least r) (hleast : least' ≤ least) :
    OrdersAt whole p c least' r := by
  unfold OrdersAt at h ⊢
  split at h
  · obtain ⟨w, faults, hw, hlength, hrest⟩ := h
    exact ⟨w, faults, hw, Nat.le_trans hleast hlength, hrest⟩
  · exact h

theorem Orders.weaken (h : Orders whole p least r) (hleast : least' ≤ least) :
    Orders whole p least' r :=
  fun c hc => (h c hc).weaken hleast

theorem Orders.pure (a : α) : Orders whole p 0 (Pure.pure a) :=
  fun _ _ => ⟨[], [], rfl, Nat.le_refl 0, rfl, (List.append_nil _).symm, nofun, .nil⟩

/-- The faults of a second reading come after those of the first one. -/
theorem OrdersAt.bind (hp : Widens p) (hc : Inside whole c) (h : OrdersAt whole p c least r)
    (hf : ∀ a mid, r c = .ok a mid → Inside whole mid →
      OrdersAt whole p mid (least' - least) (f a)) : OrdersAt whole p c least' (r >>= f) := by
  unfold OrdersAt at h
  cases hr : r c with
  | error stop after =>
    rw [hr] at h
    rw [OrdersAt, bind_of_error hr]
    exact h
  | ok a mid =>
    rw [hr] at h
    obtain ⟨u, first, hu, hlength, hend, hnoted, hfirst, hordered⟩ := h
    have hsuffix : mid.rest <:+ c.rest := ⟨u, hu.symm⟩
    have hmid := hf a mid hr (hc.onward hsuffix hend)
    have hle := hc.peek_le hsuffix hend
    rw [OrdersAt, bind_of_ok hr]
    unfold OrdersAt at hmid
    cases hs : f a mid with
    | ok b after =>
      rw [hs] at hmid
      obtain ⟨w, second, hw, hlength', hend', hnoted', hsecond, hordered'⟩ := hmid
      have hle' := (hc.onward hsuffix hend).peek_le ⟨w, hw.symm⟩ hend'
      refine ⟨u ++ w, first ++ second, ?_, ?_, hend'.trans hend, ?_, fun g hg => ?_,
        hordered.append hordered' hle hle'⟩
      · rw [hu, hw, List.append_assoc]
      · rw [List.length_append]
        omega
      · rw [hnoted', hnoted, List.append_assoc]
      · rcases List.mem_append.mp hg with hg | hg
        · exact hp g [] u w (hfirst g hg)
        · have hwide := hp g u w [] (hsecond g hg)
          rwa [List.append_nil] at hwide
    | error stop after =>
      rw [hs] at hmid
      obtain ⟨second, hrest, hend', hnoted', hordered'⟩ := hmid
      have hle' := (hc.onward hsuffix hend).peek_le hrest hend'
      refine ⟨first ++ second, hrest.trans hsuffix, hend'.trans hend, ?_, ?_⟩
      · rw [hnoted', hnoted, List.append_assoc]
      · rw [List.append_assoc]
        exact hordered.append hordered' hle hle'

theorem Orders.bind (hp : Widens p) (h : Orders whole p least r)
    (hf : ∀ a, Orders whole p (least' - least) (f a)) : Orders whole p least' (r >>= f) :=
  fun c hc => OrdersAt.bind hp hc (h c hc) fun a mid _ hmid => hf a mid hmid

theorem Orders.ite {r' : Reading α} {b : Prop} [Decidable b] (h : Orders whole p least r)
    (h' : Orders whole p least r') : Orders whole p least (if b then r else r') := by
  split
  · exact h
  · exact h'

theorem Orders.map (hp : Widens p) (g : α → β) (h : Orders whole p least r) :
    Orders whole p least (g <$> r) :=
  Orders.bind hp h fun a => by
    rw [Nat.sub_self]
    exact Orders.pure (g a)

theorem Orders.relax {q : SyntaxFault → List Token → Prop} (h : Orders whole p least r)
    (hpq : ∀ f w, p f w → q f w) : Orders whole q least r := by
  intro c hc
  have hr := h c hc
  unfold OrdersAt at hr ⊢
  split at hr
  · obtain ⟨w, faults, hw, hlength, hend, hnoted, hfaults, hordered⟩ := hr
    exact ⟨w, faults, hw, hlength, hend, hnoted, fun f hf => hpq f w (hfaults f hf), hordered⟩
  · exact hr

end Rules

/-! ## The steps of reading -/

section Steps
variable {α β : Type} {whole : List Token} {p : SyntaxFault → List Token → Prop} {least : Nat}
  {c : Cursor}

/-- A fault at the place that has been reached. -/
theorem ordersAt_error {r : Reading α} {stop : Stop} (hr : r c = .error stop c)
    (hstop : (stop.report c).token = c.peek) : OrdersAt whole p c least r := by
  rw [OrdersAt, hr]
  refine ⟨[], List.suffix_refl _, rfl, (List.append_nil _).symm, Ordered.single ?_ ?_⟩
  · exact Nat.le_of_eq (congrArg Token.line hstop.symm)
  · exact Nat.le_of_eq (congrArg Token.line hstop)

theorem orders_tooDeep : Orders whole p least (tooDeep : Reading α) :=
  fun _ _ => ordersAt_error rfl rfl

theorem orders_failHere (cause : SyntaxCause) :
    Orders whole p least (failHere cause : Reading α) :=
  fun _ _ => ordersAt_error rfl rfl

theorem Looks.orders {r : Reading α} (h : Looks r) : Orders whole p 0 r := by
  intro c _
  obtain ⟨a, after, hr, ⟨w, hw⟩, hend, hnoted⟩ := h.yields c
  rw [OrdersAt, hr]
  exact ⟨w, [], hw.symm, Nat.zero_le _, hend, hnoted.trans (List.append_nil _).symm, nofun, .nil⟩

theorem orders_reference (name : Token) : Orders whole p 0 (reference name) :=
  fun _ _ => ⟨[], [], rfl, Nat.le_refl 0, rfl, (List.append_nil _).symm, nofun, .nil⟩

/-- A step that takes a token, and what is read after it. -/
theorem OrdersAt.behind (hp : Widens p) (hc : Inside whole c) {r : Reading α} {f : α → Reading β}
    {t : Token} {rest : List Token} {a : α} (hrest : c.rest = t :: rest)
    (hr : r c = .ok a { c with rest }) (h : OrdersAt whole p { c with rest } (least - 1) (f a)) :
    OrdersAt whole p c least (r >>= f) := by
  have htaken : OrdersAt whole p c 1 r := by
    rw [OrdersAt, hr]
    exact ⟨[t], [], hrest, Nat.le_refl 1, rfl, (List.append_nil _).symm, nofun, .nil⟩
  refine htaken.bind hp hc fun a' mid hmid _ => ?_
  rw [hr] at hmid
  cases hmid
  exact h

theorem orders_takeIf (hp : Widens p) {test : Token → Bool} {f : Option Token → Reading β}
    (hsome : ∀ t, Orders whole p (least - 1) (f (some t))) (hnone : Orders whole p least (f none)) :
    Orders whole p least (takeIf test >>= f) := by
  intro c hc
  obtain hr | ⟨t, rest, hrest, _, hr⟩ := takeIf_cases test c
  · refine ((Looks.takeIf test).orders c hc).bind hp hc fun found mid hmid hc' => ?_
    rw [hr] at hmid
    cases hmid
    exact hnone c hc'
  · have hmid : Inside whole { c with rest } :=
      hc.onward (by rw [hrest]; exact List.suffix_cons t rest) rfl
    exact OrdersAt.behind hp hc hrest hr (hsome t _ hmid)

theorem orders_accept (hp : Widens p) {test : Token → Bool} {f : Bool → Reading β}
    (htrue : Orders whole p (least - 1) (f true)) (hfalse : Orders whole p least (f false)) :
    Orders whole p least (accept test >>= f) := by
  have hassoc : accept test >>= f = takeIf test >>= fun found => f found.isSome := by
    rw [accept, bind_assoc]
    rfl
  rw [hassoc]
  exact orders_takeIf hp (fun _ => htrue) hfalse

theorem orders_expect (hp : Widens p) (test : Token → Bool) (what : String) :
    Orders whole p 1 (expect test what) :=
  orders_takeIf hp (fun t => Orders.pure t) (orders_failHere _)

theorem orders_symbol (hp : Widens p) (s : Symbol) (what : String) :
    Orders whole p 1 (discard (expectSymbol s what)) :=
  Orders.map hp _ (orders_expect hp _ what)

/-- The symbol at the end of a rule. -/
theorem orders_closing (hp : Widens p) (s : Symbol) (what : String) (a : α) : Orders whole p 0 (do
    discard (expectSymbol s what)
    return a) :=
  Orders.bind hp (orders_symbol hp s what) fun _ => Orders.pure a

end Steps

/-! ## Lists between parentheses -/

section Items
variable {α : Type} {whole : List Token} {p : SyntaxFault → List Token → Prop} {item : Reading α}
  {excess : SyntaxCause}

/-- A fault that is noted at the next token comes before those of what starts there. -/
theorem orders_noting (hexcess : ∀ t w, t ∈ w → p ⟨excess, t⟩ w) {r : Reading α}
    (h : Orders whole p 1 r) : Orders whole p 1 (do
      note excess (← peek)
      r) := by
  intro c hc
  have hr := h { c with noted := c.noted ++ [⟨excess, c.peek⟩] } ⟨hc.rest, hc.sorted, hc.stop⟩
  have hread : (do note excess (← peek); r : Reading α) c =
      r { c with noted := c.noted ++ [⟨excess, c.peek⟩] } := rfl
  have hsame : ∀ {after : Cursor} {faults : List SyntaxFault},
      Ordered whole { c with noted := c.noted ++ [⟨excess, c.peek⟩] } after faults →
      c.peek.line ≤ after.peek.line → Ordered whole c after (⟨excess, c.peek⟩ :: faults) :=
    fun h hle => Ordered.cons (c := c) ⟨h.bounds, h.turns⟩ hle excess
  unfold OrdersAt at hr ⊢
  rw [hread]
  split at hr
  · obtain ⟨w, faults, hw, hlength, hend, hnoted, hfaults, hordered⟩ := hr
    have hle : c.peek.line ≤ _ := hc.peek_le ⟨w, hw.symm⟩ hend
    have hfirst : c.peek ∈ w := by
      obtain ⟨t, v, rfl⟩ := List.exists_cons_of_length_pos hlength
      dsimp only at hw
      rw [Cursor.peek, hw]
      exact List.mem_cons_self
    refine ⟨w, ⟨excess, c.peek⟩ :: faults, hw, hlength, hend, ?_,
      List.forall_mem_cons.mpr ⟨hexcess _ w hfirst, hfaults⟩, hsame hordered hle⟩
    rw [hnoted, List.append_assoc]
    rfl
  · obtain ⟨faults, hrest, hend, hnoted, hordered⟩ := hr
    have hle : c.peek.line ≤ _ := hc.peek_le hrest hend
    refine ⟨⟨excess, c.peek⟩ :: faults, hrest, hend, ?_, hsame hordered hle⟩
    rw [hnoted, List.append_assoc]
    rfl

theorem commaList_orders (hp : Widens p) (hexcess : ∀ t w, t ∈ w → p ⟨excess, t⟩ w)
    (hitem : Orders whole p 1 item) (fuel count : Nat) :
    Orders whole p 1 (commaList excess item fuel count) := by
  induction fuel generalizing count with
  | zero => exact orders_tooDeep
  | succ fuel ih =>
    have hitems : Orders whole p 1 (do
        let first ← item
        if ← accept (·.isSymbol .comma) then
          return first :: (← commaList excess item fuel (count + 1))
        else
          return [first]) := by
      refine Orders.bind hp hitem fun first => orders_accept hp ?_ (Orders.pure _)
      exact (Orders.map hp _ (ih (count + 1))).weaken (Nat.zero_le 1)
    rw [commaList]
    exact Orders.ite (orders_noting hexcess hitems) hitems

theorem parenthesized_orders (hp : Widens p) (hexcess : ∀ t w, t ∈ w → p ⟨excess, t⟩ w)
    (hitem : Orders whole p 1 item) (fuel : Nat) (what : String) :
    Orders whole p 1 (parenthesized excess item fuel what) := by
  have hclose : ∀ items : List α, Orders whole p 1 (do
      return (items, ← expectSymbol .rightParen what)) := fun items =>
    Orders.map hp _ (orders_expect hp _ what)
  refine Orders.bind hp (Looks.nextIs _).orders fun empty => Orders.ite ?_ ?_
  · exact Orders.bind hp (Orders.pure []) hclose
  · have hitems := (commaList_orders hp hexcess hitem fuel 0).weaken (Nat.zero_le 1)
    exact Orders.bind hp hitems hclose

end Items

/-! ## Expressions -/

/-- A fault that is found in an expression which is read all the same. -/
def Tolerates (f : SyntaxFault) (w : List Token) : Prop :=
  f.cause.Tolerated ∧ f.token ∈ w

theorem tolerates_widens : Widens Tolerates := by
  intro f u w v h
  exact ⟨h.1, List.mem_append_left v (List.mem_append_right u h.2)⟩

theorem tolerates_excess (t : Token) (w : List Token) (h : t ∈ w) :
    Tolerates ⟨.tooManyArguments, t⟩ w :=
  ⟨Or.inr rfl, h⟩

section Expressions
variable {whole : List Token} {r operand : Reading Expr}

theorem primary_orders (hr : Orders whole Tolerates 1 r) :
    Orders whole Tolerates 1 (primary r) := by
  have hp := tolerates_widens
  intro c hc
  unfold primary
  refine (Looks.peek.orders c hc).bind hp hc fun t mid hmid _ => ?_
  cases hmid
  cases hrest : c.rest with
  | nil =>
    -- No operand starts with the end of input.
    have hend : c.peek.kind = .endOfInput := by
      rw [Cursor.peek, hrest]
      rfl
    rw [hend]
    exact orders_failHere _ c hc
  | cons t rest =>
    have hskip : ∀ {f : Unit → Reading Expr}, Orders whole Tolerates 0 (f ()) →
        OrdersAt whole Tolerates c 1 (skip >>= f) := by
      intro f hf
      have hr : skip c = .ok () { c with rest } := by
        rw [skip, hrest]
        rfl
      have hmid : Inside whole { c with rest } :=
        hc.onward (by rw [hrest]; exact List.suffix_cons t rest) rfl
      exact OrdersAt.behind hp hc hrest hr (hf _ hmid)
    split
    · exact hskip (Orders.map hp _ (orders_reference _))
    · exact hskip (Orders.map hp _ (orders_reference _))
    · refine hskip (Orders.bind hp (orders_symbol hp _ _) fun _ => ?_)
      refine Orders.bind hp (orders_expect hp _ _) fun method => ?_
      exact Orders.bind hp (orders_reference _) fun _ => Orders.pure _
    · refine hskip (Orders.bind hp hr fun inner => ?_)
      exact orders_closing hp _ _ _
    · split
      · exact hskip (Orders.pure _)
      · exact orders_failHere _ c hc

theorem callsFrom_orders (hr : Orders whole Tolerates 1 r) (fuel : Nat) (callee : Expr) :
    Orders whole Tolerates 0 (callsFrom r fuel callee) := by
  have hp := tolerates_widens
  induction fuel generalizing callee with
  | zero => exact orders_tooDeep
  | succ fuel ih =>
    rw [callsFrom]
    refine orders_accept hp ?_ (orders_accept hp ?_ (Orders.pure _))
    · exact Orders.bind hp (parenthesized_orders hp tolerates_excess hr fuel _) fun read => ih _
    · exact Orders.bind hp (orders_expect hp _ _) fun name => ih _

theorem call_orders (hr : Orders whole Tolerates 1 r) (fuel : Nat) :
    Orders whole Tolerates 1 (call r fuel) :=
  Orders.bind tolerates_widens (primary_orders hr) fun callee => callsFrom_orders hr fuel callee

theorem unary_orders (h : Orders whole Tolerates 1 operand) (fuel : Nat) :
    Orders whole Tolerates 1 (unary operand fuel) := by
  have hp := tolerates_widens
  induction fuel with
  | zero => exact orders_tooDeep
  | succ fuel ih =>
    rw [unary]
    exact orders_takeIf hp (fun operator => (Orders.map hp _ ih).weaken (Nat.zero_le 1)) h

theorem operatorsFrom_orders (level : OperatorLevel) (h : Orders whole Tolerates 1 operand)
    (fuel : Nat) (left : Expr) : Orders whole Tolerates 0 (operatorsFrom level operand fuel left) := by
  have hp := tolerates_widens
  induction fuel generalizing left with
  | zero => exact orders_tooDeep
  | succ fuel ih =>
    rw [operatorsFrom]
    refine orders_takeIf hp (fun operator => ?_) (Orders.pure _)
    exact Orders.bind hp h fun right => ih _

theorem joined_orders (h : Orders whole Tolerates 1 operand) (fuel : Nat)
    (levels : List OperatorLevel) : Orders whole Tolerates 1 (joined operand fuel levels) := by
  induction levels with
  | nil => exact h
  | cons level tighter ih =>
    exact Orders.bind tolerates_widens ih fun left => operatorsFrom_orders level ih fuel left

/-- A target that nothing can be assigned to is blamed at the `=` after the value. -/
theorem blamed_orders {fuel : Nat} (hr : Orders whole Tolerates 1 (expression fuel))
    (target : Expr) : Orders whole Tolerates 0 (do
      match ← takeIf (·.isSymbol .equal) with
      | none => return target
      | some equals =>
        let _ ← expression fuel
        note .invalidAssignmentTarget equals
        return target) := by
  intro c hc
  obtain htake | ⟨equals, rest, hrest, _, htake⟩ := takeIf_cases (·.isSymbol .equal) c
  · rw [OrdersAt, bind_of_ok htake]
    exact Orders.pure target c hc
  · have hsuffix : rest <:+ c.rest := by
      rw [hrest]
      exact List.suffix_cons equals rest
    have hplace : Inside whole { c with rest } := hc.onward hsuffix rfl
    have hle : c.peek.line ≤ (Cursor.peek { c with rest }).line := hc.peek_le hsuffix rfl
    have hvalue := hr _ hplace
    have hpeek : c.peek = equals := by
      rw [Cursor.peek, hrest]
      rfl
    rw [OrdersAt, bind_of_ok htake]
    unfold OrdersAt at hvalue
    cases hread : (expression fuel : Reading Expr) { c with rest } with
    | error stop after =>
      rw [hread] at hvalue
      obtain ⟨faults, hleft, hend, hnoted, hordered⟩ := hvalue
      dsimp only
      rw [bind_of_error hread]
      exact ⟨faults, hleft.trans hsuffix, hend, hnoted,
        Ordered.nil.append hordered hle (hplace.peek_le hleft hend)⟩
    | ok e after =>
      rw [hread] at hvalue
      obtain ⟨value, faults, hw, _, hend, hnoted, hfaults, hordered⟩ := hvalue
      have hle' := hplace.peek_le ⟨value, hw.symm⟩ hend
      have hassigned : Assigned whole equals value := by
        refine ⟨after.rest, fuel, { c with rest }, e, after, ?_, hread, hw, rfl⟩
        have hrest' : rest = value ++ after.rest := hw
        rw [← hrest', ← hrest]
        exact hc.rest
      have hwhole : Ordered whole c after faults := Ordered.nil.append hordered hle hle'
      dsimp only
      rw [bind_of_ok hread]
      refine ⟨equals :: value, faults ++ [⟨.invalidAssignmentTarget, equals⟩], ?_,
        Nat.zero_le _, hend, ?_, fun f hf => ?_, fun f hf => ?_, ?_⟩
      · rw [hrest]
        exact congrArg (equals :: ·) hw
      · exact (congrArg (· ++ _) hnoted).trans (List.append_assoc _ _ _)
      · rcases List.mem_append.mp hf with hf | hf
        · exact ⟨(hfaults f hf).1, List.mem_cons_of_mem equals (hfaults f hf).2⟩
        · cases List.mem_singleton.mp hf
          exact ⟨Or.inl rfl, List.mem_cons_self⟩
      · rcases List.mem_append.mp hf with hf | hf
        · exact hwhole.bounds f hf
        · cases List.mem_singleton.mp hf
          refine ⟨Nat.le_of_eq (congrArg Token.line hpeek), ?_⟩
          have hline : equals.line ≤ after.peek.line := by
            rw [← hpeek]
            exact hle.trans hle'
          exact hline
      · refine List.pairwise_append.mpr ⟨hwhole.turns, List.pairwise_singleton _ _, fun f hf g hg => ?_⟩
        cases List.mem_singleton.mp hg
        exact Or.inr ⟨rfl, (hfaults f hf).1, value, hassigned, (hfaults f hf).2⟩

theorem assignment_orders {fuel : Nat} (hr : Orders whole Tolerates 1 (expression fuel)) :
    Orders whole Tolerates 1 (assignment (expression fuel) fuel) := by
  have hp := tolerates_widens
  have htarget := joined_orders (unary_orders (call_orders hr fuel) fuel) fuel OperatorLevel.all
  refine Orders.bind hp htarget fun target => ?_
  cases target with
  | «variable» target =>
    refine orders_takeIf hp (fun equals => ?_) (Orders.pure _)
    refine Orders.bind hp (hr.weaken (Nat.zero_le 1)) fun value => ?_
    exact Orders.bind hp (orders_reference _) fun _ => Orders.pure _
  | get object name =>
    refine orders_takeIf hp (fun equals => ?_) (Orders.pure _)
    exact Orders.bind hp (hr.weaken (Nat.zero_le 1)) fun value => Orders.pure _
  | _ => exact blamed_orders hr _

theorem expression_orders (fuel : Nat) : Orders whole Tolerates 1 (expression fuel) := by
  induction fuel with
  | zero => exact orders_tooDeep
  | succ fuel ih => exact assignment_orders ih

end Expressions

/-! ## Statements -/

/-- No condition on the faults in a statement, of which some can name the token after it. -/
def Unrestricted (_ : SyntaxFault) (_ : List Token) : Prop :=
  True

theorem unrestricted_widens : Widens Unrestricted :=
  fun _ _ _ _ _ => trivial

section Statements
variable {whole : List Token} {fuel : Nat} {declaration statement : Reading Stmt}

theorem plainExpression_orders (fuel : Nat) : Orders whole Unrestricted 0 (expression fuel) :=
  ((expression_orders fuel).relax fun _ _ _ => trivial).weaken (Nat.zero_le 1)

theorem plainSymbol_orders (s : Symbol) (what : String) :
    Orders whole Unrestricted 0 (discard (expectSymbol s what)) :=
  (orders_symbol unrestricted_widens s what).weaken (Nat.zero_le 1)

theorem plainName_orders (what : String) : Orders whole Unrestricted 0 (expectName what) :=
  (orders_expect unrestricted_widens _ what).weaken (Nat.zero_le 1)

theorem optionalExpression_orders (closing : Symbol) :
    Orders whole Unrestricted 0 (optionalExpression fuel closing) := by
  have hp := unrestricted_widens
  refine Orders.bind hp (Looks.nextIs _).orders fun closes => Orders.ite (Orders.pure _) ?_
  exact Orders.map hp _ (plainExpression_orders fuel)

theorem condition_orders (before after : String) :
    Orders whole Unrestricted 0 (condition fuel before after) := by
  have hp := unrestricted_widens
  refine Orders.bind hp (plainSymbol_orders _ _) fun _ => ?_
  exact Orders.bind hp (plainExpression_orders fuel) fun e => orders_closing hp _ _ _

theorem expressionStatement_orders : Orders whole Unrestricted 0 (expressionStatement fuel) := by
  have hp := unrestricted_widens
  exact Orders.bind hp (plainExpression_orders fuel) fun _ => orders_closing hp _ _ _

theorem variableFrom_orders : Orders whole Unrestricted 0 (variableFrom fuel) := by
  have hp := unrestricted_widens
  refine Orders.bind hp (plainName_orders _) fun name => orders_accept hp ?_ ?_
  · exact Orders.bind hp (Orders.map hp _ (plainExpression_orders fuel)) fun e =>
      orders_closing hp _ _ _
  · exact Orders.bind hp (Orders.pure none) fun e => orders_closing hp _ _ _

/-- A fault that stops a declaration in a block comes last in it, and is noted as that. -/
theorem attempt_orders (h : Orders whole Unrestricted 0 declaration) :
    Orders whole Unrestricted 0 (attempt declaration) := by
  intro c hc
  have hr := h c hc
  unfold OrdersAt at hr ⊢
  unfold attempt
  cases hread : declaration c with
  | ok s after =>
    rw [hread] at hr
    exact hr
  | error stop after =>
    rw [hread] at hr
    cases stop with
    | tooDeep => exact hr
    | fault f =>
      obtain ⟨faults, ⟨w, hw⟩, hend, hnoted, hordered⟩ := hr
      refine ⟨w, faults ++ [f], hw.symm, Nat.zero_le _, hend, ?_, fun _ _ => trivial,
        hordered.bounds, hordered.turns⟩
      exact (congrArg (· ++ _) hnoted).trans (List.append_assoc _ _ _)

theorem declarationsFrom_orders (h : Orders whole Unrestricted 0 declaration) (fuel : Nat) :
    Orders whole Unrestricted 0 (declarationsFrom declaration fuel) := by
  have hp := unrestricted_widens
  induction fuel with
  | zero => exact orders_tooDeep
  | succ fuel ih =>
    rw [declarationsFrom]
    refine Orders.bind hp Looks.atEnd.orders fun atEnd => ?_
    refine Orders.bind hp (Looks.nextIs _).orders fun closes => Orders.ite (Orders.pure _) ?_
    exact Orders.bind hp (attempt_orders h) fun first => Orders.map hp _ ih

theorem block_orders (h : Orders whole Unrestricted 0 declaration) (fuel : Nat) :
    Orders whole Unrestricted 0 (block declaration fuel) :=
  Orders.bind unrestricted_widens (declarationsFrom_orders h fuel) fun _ =>
    orders_closing unrestricted_widens _ _ _

theorem function_orders (h : Orders whole Unrestricted 0 declaration) (fuel : Nat)
    (kind : String) : Orders whole Unrestricted 0 (function declaration fuel kind) := by
  have hp := unrestricted_widens
  have hparams : Orders whole Unrestricted 0
      (parenthesized .tooManyParameters (expectName "parameter name") fuel "')' after parameters") :=
    (parenthesized_orders hp (fun _ _ _ => trivial) (orders_expect hp _ _) fuel _).weaken
      (Nat.zero_le 1)
  refine Orders.bind hp (plainName_orders _) fun name => ?_
  refine Orders.bind hp (plainSymbol_orders _ _) fun _ => Orders.bind hp hparams fun read => ?_
  exact Orders.bind hp (plainSymbol_orders _ _) fun _ => Orders.map hp _ (block_orders h fuel)

theorem methodsFrom_orders (h : Orders whole Unrestricted 0 declaration) (fuel : Nat) :
    Orders whole Unrestricted 0 (methodsFrom declaration fuel) := by
  have hp := unrestricted_widens
  induction fuel with
  | zero => exact orders_tooDeep
  | succ fuel ih =>
    rw [methodsFrom]
    refine Orders.bind hp Looks.atEnd.orders fun atEnd => ?_
    refine Orders.bind hp (Looks.nextIs _).orders fun closes => Orders.ite (Orders.pure _) ?_
    exact Orders.bind hp (function_orders h fuel _) fun first => Orders.map hp _ ih

theorem classFrom_orders (h : Orders whole Unrestricted 0 declaration) (fuel : Nat) :
    Orders whole Unrestricted 0 (classFrom declaration fuel) := by
  have hp := unrestricted_widens
  have hbody : ∀ (name : Token) (superclass : Option Expr), Orders whole Unrestricted 0 (do
      discard (expectSymbol .leftBrace "'\x7b' before class body")
      let methods ← methodsFrom declaration fuel
      discard (expectSymbol .rightBrace "'\x7d' after class body")
      return Stmt.classDeclaration name superclass methods) := by
    intro name superclass
    refine Orders.bind hp (plainSymbol_orders _ _) fun _ => ?_
    exact Orders.bind hp (methodsFrom_orders h fuel) fun methods => orders_closing hp _ _ _
  refine Orders.bind hp (plainName_orders _) fun name => orders_accept hp ?_ ?_
  · refine Orders.bind hp (plainName_orders _) fun parent => ?_
    exact Orders.bind hp (Orders.map hp _ (orders_reference parent)) fun superclass =>
      hbody name superclass
  · exact Orders.bind hp (Orders.pure none) fun superclass => hbody name superclass

theorem forInitializer_orders : Orders whole Unrestricted 0 (forInitializer fuel) := by
  have hp := unrestricted_widens
  refine orders_accept hp (Orders.pure _) (orders_accept hp ?_ ?_)
  · exact Orders.map hp some variableFrom_orders
  · exact Orders.map hp some expressionStatement_orders

theorem forFrom_orders (h : Orders whole Unrestricted 0 statement) :
    Orders whole Unrestricted 0 (forFrom statement fuel) := by
  have hp := unrestricted_widens
  refine Orders.bind hp (plainSymbol_orders _ _) fun _ => ?_
  refine Orders.bind hp forInitializer_orders fun initializer => ?_
  refine Orders.bind hp (optionalExpression_orders _) fun test => ?_
  refine Orders.bind hp (plainSymbol_orders _ _) fun _ => ?_
  refine Orders.bind hp (optionalExpression_orders _) fun increment => ?_
  exact Orders.bind hp (plainSymbol_orders _ _) fun _ => Orders.map hp _ h

theorem ifFrom_orders (h : Orders whole Unrestricted 0 statement) :
    Orders whole Unrestricted 0 (ifFrom statement fuel) := by
  have hp := unrestricted_widens
  refine Orders.bind hp (condition_orders _ _) fun test => Orders.bind hp h fun thenBranch => ?_
  refine orders_accept hp ?_ ?_
  · exact Orders.bind hp (Orders.map hp some h) fun elseBranch => Orders.pure _
  · exact Orders.bind hp (Orders.pure none) fun elseBranch => Orders.pure _

theorem whileFrom_orders (h : Orders whole Unrestricted 0 statement) :
    Orders whole Unrestricted 0 (whileFrom statement fuel) :=
  Orders.bind unrestricted_widens (condition_orders _ _) fun _ =>
    Orders.map unrestricted_widens _ h

theorem printFrom_orders (keyword : Token) : Orders whole Unrestricted 0 (printFrom keyword fuel) :=
  Orders.bind unrestricted_widens (plainExpression_orders fuel) fun _ =>
    orders_closing unrestricted_widens _ _ _

theorem returnFrom_orders (keyword : Token) :
    Orders whole Unrestricted 0 (returnFrom keyword fuel) :=
  Orders.bind unrestricted_widens (optionalExpression_orders _) fun _ =>
    orders_closing unrestricted_widens _ _ _

theorem statementForm_orders (hd : Orders whole Unrestricted 0 declaration)
    (hs : Orders whole Unrestricted 0 statement) (fuel : Nat) :
    Orders whole Unrestricted 0 (statementForm declaration statement fuel) := by
  have hp := unrestricted_widens
  refine orders_accept hp (forFrom_orders hs) (orders_accept hp (ifFrom_orders hs) ?_)
  refine orders_accept hp (whileFrom_orders hs) (orders_takeIf hp returnFrom_orders ?_)
  refine orders_accept hp (Orders.map hp _ (block_orders hd fuel)) ?_
  exact orders_takeIf hp printFrom_orders expressionStatement_orders

theorem declarationForm_orders (hd : Orders whole Unrestricted 0 declaration)
    (hs : Orders whole Unrestricted 0 statement) (fuel : Nat) :
    Orders whole Unrestricted 0 (declarationForm declaration statement fuel) := by
  have hp := unrestricted_widens
  refine orders_accept hp (classFrom_orders hd fuel) (orders_accept hp ?_ ?_)
  · exact Orders.map hp _ (function_orders hd fuel _)
  · exact orders_accept hp variableFrom_orders (statementForm_orders hd hs fuel)

/-- What is passed over after a fault comes after that. -/
theorem recovering_orders (h : Orders whole Unrestricted 0 declaration) :
    Orders whole Unrestricted 0 (recovering declaration) := by
  intro c hc
  have hr := h c hc
  unfold OrdersAt at hr ⊢
  unfold recovering
  cases hread : declaration c with
  | ok s after =>
    rw [hread] at hr
    exact hr
  | error stop after =>
    rw [hread] at hr
    cases stop with
    | tooDeep => exact hr
    | fault f =>
      obtain ⟨faults, hrest, hend, hnoted, hordered⟩ := hr
      have hle : after.peek.line ≤ (Cursor.peek { after with rest := resume after.rest }).line :=
        (hc.onward hrest hend).peek_le (resume_suffix after.rest) rfl
      exact ⟨faults, (resume_suffix after.rest).trans hrest, hend, hnoted,
        fun g hg => ⟨(hordered.bounds g hg).1, (hordered.bounds g hg).2.trans hle⟩, hordered.turns⟩

end Statements

theorem statement_orders {whole : List Token} (fuel : Nat) :
    Orders whole Unrestricted 0 (statement fuel) ∧ Orders whole Unrestricted 0 (declaration fuel) := by
  induction fuel with
  | zero => exact ⟨orders_tooDeep, orders_tooDeep⟩
  | succ fuel ih =>
    exact ⟨statementForm_orders ih.2 ih.1 fuel,
      recovering_orders (declarationForm_orders ih.2 ih.1 fuel)⟩

end Reading

/-! ## Programs -/

open Reading

/-- The faults in some items. -/
abbrev itemFaults (items : List ProgramItem) : List SyntaxFault :=
  items.filterMap ProgramItem.fault?

theorem readItem_orders {whole : List Token} {c : Cursor} (hc : Inside whole c)
    (hnoted : c.noted = []) (depth : Nat) :
    Ordered whole c (readItem depth c).2
        ((readItem depth c).2.noted ++ (readItem depth c).1.fault?.toList) ∧
      (readItem depth c).2.rest <:+ c.rest ∧ (readItem depth c).2.endLine = c.endLine := by
  have hr := (statement_orders depth).2 c hc
  unfold OrdersAt at hr
  unfold readItem
  cases hread : (declaration depth : Reading Stmt) c with
  | ok s after =>
    rw [hread] at hr
    obtain ⟨w, faults, hw, _, hend, hfound, _, hordered⟩ := hr
    rw [hnoted, List.nil_append] at hfound
    refine ⟨?_, ⟨w, hw.symm⟩, hend⟩
    dsimp only
    rw [hfound, ProgramItem.fault?, Option.toList_none, List.append_nil]
    exact hordered
  | error stop after =>
    rw [hread] at hr
    obtain ⟨faults, hrest, hend, hfound, hordered⟩ := hr
    rw [hnoted, List.nil_append] at hfound
    refine ⟨?_, hrest, hend⟩
    dsimp only
    rw [hfound]
    exact hordered

theorem itemFaults_noted (faults : List SyntaxFault) (item : ProgramItem)
    (items : List ProgramItem) :
    itemFaults (faults.map Except.error ++ item :: items) =
      (faults ++ item.fault?.toList) ++ itemFaults items := by
  have hfaults : itemFaults (faults.map Except.error) = faults := by
    rw [itemFaults, List.filterMap_map]
    exact List.filterMap_some
  rw [itemFaults, List.filterMap_append, List.append_assoc]
  refine congr (congrArg _ hfaults) ?_
  cases item <;> rfl

/-- The faults of a declaration come before those of what follows it. -/
theorem programItemsFrom_orders {whole : List Token} {depth fuel : Nat} {c : Cursor}
    (hc : Inside whole c) (hnoted : c.noted = []) :
    (∀ f ∈ itemFaults (programItemsFrom depth fuel c).1, c.peek.line ≤ f.token.line) ∧
      (itemFaults (programItemsFrom depth fuel c).1).Pairwise (InTurn whole) := by
  induction fuel generalizing c with
  | zero => exact ⟨List.forall_mem_singleton.mpr (Nat.le_refl _), List.pairwise_singleton _ _⟩
  | succ fuel ih =>
    rw [programItemsFrom]
    split
    · exact ⟨nofun, List.Pairwise.nil⟩
    · obtain ⟨hordered, hrest, hend⟩ := readItem_orders hc hnoted depth
      have hle := hc.peek_le hrest hend
      have hclear : Inside whole { (readItem depth c).2 with noted := [] } := hc.onward hrest hend
      obtain ⟨hlater, hturns⟩ := ih hclear rfl
      dsimp only
      rw [itemFaults_noted]
      refine ⟨fun f hf => ?_, List.pairwise_append.mpr ⟨hordered.turns, hturns, fun f hf g hg => ?_⟩⟩
      · rcases List.mem_append.mp hf with hf | hf
        · exact (hordered.bounds f hf).1
        · exact hle.trans (hlater f hf)
      · exact Or.inl ((hordered.bounds f hf).2.trans (hlater g hg))

/-- Reading starts at the words before the end of input. -/
theorem start_of_words {words : List Token} {stop : Token} (nextId : Nat)
    (hwords : ∀ t ∈ words, t.isEnd = false) (hstop : stop.isEnd = true) :
    Cursor.start (words ++ [stop]) nextId = ⟨words, stop.line, [], nextId⟩ := by
  have hrest : (words ++ [stop]).takeWhile (!·.isEnd) = words := by
    rw [List.takeWhile_append_of_pos fun t ht => by rw [hwords t ht]; rfl]
    rw [List.takeWhile_cons_of_neg (by simp [hstop]), List.append_nil]
  unfold Cursor.start
  dsimp only
  rw [hrest, List.drop_left]

/-- Of tokens whose lines do not go down, the faults are found in turn. -/
theorem programItems_in_turn {words : List Token} {stop : Token} (nextId : Nat)
    (hwords : ∀ t ∈ words, t.isEnd = false) (hstop : stop.isEnd = true)
    (hsorted : (words ++ [stop]).Pairwise (·.line ≤ ·.line)) :
    (itemFaults (programItems (words ++ [stop]) nextId).1).Pairwise (InTurn words) := by
  obtain ⟨hbefore, _, hlast⟩ := List.pairwise_append.mp hsorted
  have hstart : Inside words (Cursor.start (words ++ [stop]) nextId) := by
    rw [start_of_words nextId hwords hstop]
    exact ⟨List.suffix_refl _, hbefore, fun t ht => hlast t ht stop List.mem_cons_self⟩
  exact (programItemsFrom_orders hstart (congrArg Cursor.noted (start_of_words _ hwords hstop))).2

end LoxLang
