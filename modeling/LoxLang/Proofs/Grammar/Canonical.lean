import Mathlib.Data.List.Forall2
import LoxLang.Proofs.Grammar.Completeness
import LoxLang.Proofs.Grammar.Soundness

/-!
The written form of an expression. `Expr.Canonical` says that every operand binds at least as tightly
as its position asks, with `Expr.level` as the measure, and `Expr.pieces` is what a tree leaves open
of the tokens that it is written with: those it keeps, and the kinds of all others. The main
statement is that reading tokens as an expression and writing expressions as tokens are inverse, the
identities of references aside, so that tokens stand for one expression at most.
-/
namespace LoxLang
set_option autoImplicit false

/-! ## Levels -/

/-- How tightly `or` and `and` bind. -/
def TokenKind.logicalStrength : TokenKind → Option Nat
  | .keyword .orWord => some 1
  | .keyword .andWord => some 2
  | _ => none

/-- How tightly the other operators with two sides bind. -/
def TokenKind.binaryStrength : TokenKind → Option Nat
  | .symbol .bangEqual => some 3
  | .symbol .equalEqual => some 3
  | .symbol .greater => some 4
  | .symbol .greaterEqual => some 4
  | .symbol .less => some 4
  | .symbol .lessEqual => some 4
  | .symbol .minus => some 5
  | .symbol .plus => some 5
  | .symbol .star => some 6
  | .symbol .slash => some 6
  | _ => none

/-- How tightly an expression binds, from an assignment to what needs no parentheses anywhere. -/
def Expr.level : Expr → Nat
  | .assign _ _ => 0
  | .set _ _ _ => 0
  | .logical _ operator _ => operator.kind.logicalStrength.getD 0
  | .binary _ operator _ => operator.kind.binaryStrength.getD 0
  | .unary _ _ => 7
  | .call _ _ _ => 8
  | .get _ _ => 8
  | _ => 9

mutual

/-- Every operand is at the level that its position asks for, and every token of the kind. The two
sides of an operator group to the left, those of an assignment to the right. -/
def Expr.Canonical : Expr → Prop
  | .literal _ => True
  | .unary operator operand =>
    (operator.kind = .symbol .bang ∨ operator.kind = .symbol .minus) ∧ 7 ≤ operand.level ∧
      operand.Canonical
  | .binary left operator right => ∃ n, operator.kind.binaryStrength = some n ∧
    n ≤ left.level ∧ n < right.level ∧ left.Canonical ∧ right.Canonical
  | .logical left operator right => ∃ n, operator.kind.logicalStrength = some n ∧
    n ≤ left.level ∧ n < right.level ∧ left.Canonical ∧ right.Canonical
  | .grouping inner => inner.Canonical
  | .variable target => target.name.kind = .identifier
  | .assign target value => target.name.kind = .identifier ∧ value.Canonical
  | .call callee paren arguments => 8 ≤ callee.level ∧ callee.Canonical ∧
    paren.kind = .symbol .rightParen ∧ arguments.length ≤ 255 ∧ Expr.AllCanonical arguments
  | .get object name => 8 ≤ object.level ∧ object.Canonical ∧ name.kind = .identifier
  | .set object name value => 8 ≤ object.level ∧ object.Canonical ∧ name.kind = .identifier ∧
    value.Canonical
  | .thisObject keyword => keyword.name.kind = .keyword .thisWord
  | .superMethod keyword method => keyword.name.kind = .keyword .superWord ∧
    method.kind = .identifier

def Expr.AllCanonical : List Expr → Prop
  | [] => True
  | e :: rest => e.Canonical ∧ Expr.AllCanonical rest

end

/-! ## Written forms -/

/-- A token in the written form of an expression: the token itself, or its kind only. -/
inductive Piece where
  | kept (t : Token)
  | anyOf (kind : TokenKind)

def Piece.Matches : Piece → Token → Prop
  | .kept t, t' => t' = t
  | .anyOf kind, t' => t'.kind = kind

/-- The kind of a constant. -/
def Literal.kind : Literal → TokenKind
  | .number value => .number value
  | .string value => .string value
  | .bool true => .keyword .trueWord
  | .bool false => .keyword .falseWord
  | .nil => .keyword .nilWord

mutual

/-- What an expression is written as. -/
def Expr.pieces : Expr → List Piece
  | .literal value => [.anyOf value.kind]
  | .unary operator operand => .kept operator :: operand.pieces
  | .binary left operator right => left.pieces ++ .kept operator :: right.pieces
  | .logical left operator right => left.pieces ++ .kept operator :: right.pieces
  | .grouping inner =>
    .anyOf (.symbol .leftParen) :: (inner.pieces ++ [.anyOf (.symbol .rightParen)])
  | .variable target => [.kept target.name]
  | .assign target value => .kept target.name :: .anyOf (.symbol .equal) :: value.pieces
  | .call callee paren arguments =>
    callee.pieces ++ .anyOf (.symbol .leftParen) :: (Expr.piecesAll arguments ++ [.kept paren])
  | .get object name => object.pieces ++ [.anyOf (.symbol .dot), .kept name]
  | .set object name value =>
    object.pieces ++ .anyOf (.symbol .dot) :: .kept name :: .anyOf (.symbol .equal) :: value.pieces
  | .thisObject keyword => [.kept keyword.name]
  | .superMethod keyword method => [.kept keyword.name, .anyOf (.symbol .dot), .kept method]

def Expr.piecesAll : List Expr → List Piece
  | [] => []
  | [e] => e.pieces
  | e :: rest => e.pieces ++ .anyOf (.symbol .comma) :: Expr.piecesAll rest

end

theorem Expr.piecesAll_cons {e : Expr} {rest : List Expr} (h : rest ≠ []) :
    Expr.piecesAll (e :: rest) = e.pieces ++ .anyOf (.symbol .comma) :: Expr.piecesAll rest := by
  cases rest with
  | nil => exact absurd rfl h
  | cons _ _ => rfl

/-- The tokens are an expression written out. -/
def Expr.Written (e : Expr) (w : List Token) : Prop :=
  List.Forall₂ Piece.Matches e.pieces w

mutual

/-- An expression but for the identities of its references. -/
def Expr.withoutIds : Expr → Expr
  | .literal value => .literal value
  | .unary operator operand => .unary operator operand.withoutIds
  | .binary left operator right => .binary left.withoutIds operator right.withoutIds
  | .logical left operator right => .logical left.withoutIds operator right.withoutIds
  | .grouping inner => .grouping inner.withoutIds
  | .variable target => .variable ⟨0, target.name⟩
  | .assign target value => .assign ⟨0, target.name⟩ value.withoutIds
  | .call callee paren arguments =>
    .call callee.withoutIds paren (Expr.withoutIdsAll arguments)
  | .get object name => .get object.withoutIds name
  | .set object name value => .set object.withoutIds name value.withoutIds
  | .thisObject keyword => .thisObject ⟨0, keyword.name⟩
  | .superMethod keyword method => .superMethod ⟨0, keyword.name⟩ method

def Expr.withoutIdsAll : List Expr → List Expr
  | [] => []
  | e :: rest => e.withoutIds :: Expr.withoutIdsAll rest

end

theorem Expr.withoutIdsAll_length (es : List Expr) : (Expr.withoutIdsAll es).length = es.length := by
  induction es with
  | nil => rfl
  | cons e rest ih => rw [Expr.withoutIdsAll, List.length_cons, List.length_cons, ih]

/-- The token of a piece. Where only the kind is given, text and line are made up. -/
def Piece.token : Piece → Token
  | .kept t => t
  | .anyOf kind => ⟨kind, "", 1⟩

def Expr.yield (e : Expr) : List Token :=
  e.pieces.map Piece.token

theorem Expr.written_yield (e : Expr) : e.Written e.yield := by
  rw [Expr.Written, Expr.yield, List.forall₂_map_right_iff, List.forall₂_same]
  intro piece _
  cases piece <;> rfl

/-! ## Tokens of written forms -/

theorem Literal.ofKind?_eq_some_iff {kind : TokenKind} {value : Literal} :
    Literal.ofKind? kind = some value ↔ kind = value.kind := by
  constructor
  · intro h
    unfold Literal.ofKind? at h
    split at h <;> cases h <;> rfl
  · rintro rfl
    cases value with
    | bool b => cases b <;> rfl
    | _ => rfl

section Matches
variable {a b : List Piece} {w : List Token}

theorem matches_append {u v : List Token} (h : List.Forall₂ Piece.Matches a u)
    (h' : List.Forall₂ Piece.Matches b v) : List.Forall₂ Piece.Matches (a ++ b) (u ++ v) :=
  List.rel_append h h'

theorem exists_of_matches_kept {t : Token} (h : List.Forall₂ Piece.Matches (.kept t :: a) w) :
    ∃ v, w = t :: v ∧ List.Forall₂ Piece.Matches a v := by
  cases h with
  | cons ht hv =>
    cases ht
    exact ⟨_, rfl, hv⟩

theorem exists_of_matches_anyOf {kind : TokenKind}
    (h : List.Forall₂ Piece.Matches (.anyOf kind :: a) w) :
    ∃ t v, w = t :: v ∧ t.kind = kind ∧ List.Forall₂ Piece.Matches a v := by
  cases h with
  | cons ht hv => exact ⟨_, _, rfl, ht, hv⟩

theorem exists_of_matches_append (h : List.Forall₂ Piece.Matches (a ++ b) w) :
    ∃ u v, w = u ++ v ∧ List.Forall₂ Piece.Matches a u ∧ List.Forall₂ Piece.Matches b v := by
  refine ⟨w.take a.length, w.drop a.length, (List.take_append_drop _ w).symm, ?_, ?_⟩
  · have htake := List.forall₂_take a.length h
    rwa [List.take_left] at htake
  · have hdrop := List.forall₂_drop a.length h
    rwa [List.drop_left] at hdrop

end Matches

/-! ## Canonical expressions have texts -/

/-- The place in the grammar of what binds as tightly as some level. -/
def Place.ofLevel : Nat → Place
  | 0 => .expression
  | 1 => .joined OperatorLevel.all
  | 2 => .joined (OperatorLevel.all.drop 1)
  | 3 => .joined (OperatorLevel.all.drop 2)
  | 4 => .joined (OperatorLevel.all.drop 3)
  | 5 => .joined (OperatorLevel.all.drop 4)
  | 6 => .joined (OperatorLevel.all.drop 5)
  | 7 => .unary
  | 8 => .call
  | _ => .primary

section Texts
variable {lo mid hi n : Nat} {u w : List Token} {e left right : Expr} {operator : Token}

theorem ExprText.looser_one (n : Nat) (h : ExprText (.ofLevel (n + 1)) lo w e hi) :
    ExprText (.ofLevel n) lo w e hi :=
  match n with
  | 0 => .joined h
  | 1 => .tighter h
  | 2 => .tighter h
  | 3 => .tighter h
  | 4 => .tighter h
  | 5 => .tighter h
  | 6 => .tighter (.tightest h)
  | 7 => .unoperated h
  | 8 => .operand h
  | _ + 9 => h

theorem ExprText.looser {m : Nat} (h : ExprText (.ofLevel m) lo w e hi) (hn : n ≤ m) :
    ExprText (.ofLevel n) lo w e hi := by
  induction hn with
  | refl => exact h
  | step _ ih => exact ih (h.looser_one _)

theorem ExprText.logicalAt (hoperator : operator.kind.logicalStrength = some n)
    (hleft : ExprText (.ofLevel n) lo u left mid) (hright : ExprText (.ofLevel (n + 1)) mid w right hi) :
    ExprText (.ofLevel n) lo (u ++ operator :: w) (.logical left operator right) hi := by
  have hn : (n = 1 ∧ operator.kind ∈ [TokenKind.keyword .orWord]) ∨
      (n = 2 ∧ operator.kind ∈ [TokenKind.keyword .andWord]) := by
    unfold TokenKind.logicalStrength at hoperator
    split at hoperator <;> cases hoperator <;> simp [*]
  obtain ⟨rfl, hkind⟩ | ⟨rfl, hkind⟩ := hn
  · exact .operator (List.suffix_refl OperatorLevel.all) hleft (OperatorLevel.admits_of_mem hkind) hright
  · exact .operator (List.drop_suffix 1 OperatorLevel.all) hleft (OperatorLevel.admits_of_mem hkind) hright

theorem ExprText.binaryAt (hoperator : operator.kind.binaryStrength = some n)
    (hleft : ExprText (.ofLevel n) lo u left mid) (hright : ExprText (.ofLevel (n + 1)) mid w right hi) :
    ExprText (.ofLevel n) lo (u ++ operator :: w) (.binary left operator right) hi := by
  have hn : (n = 3 ∧ operator.kind ∈ [TokenKind.symbol .bangEqual, .symbol .equalEqual]) ∨
      (n = 4 ∧ operator.kind ∈
        [TokenKind.symbol .greater, .symbol .greaterEqual, .symbol .less, .symbol .lessEqual]) ∨
      (n = 5 ∧ operator.kind ∈ [TokenKind.symbol .minus, .symbol .plus]) ∨
      (n = 6 ∧ operator.kind ∈ [TokenKind.symbol .star, .symbol .slash]) := by
    unfold TokenKind.binaryStrength at hoperator
    split at hoperator <;> cases hoperator <;> simp [*]
  obtain ⟨rfl, hkind⟩ | ⟨rfl, hkind⟩ | ⟨rfl, hkind⟩ | ⟨rfl, hkind⟩ := hn
  · exact .operator (List.drop_suffix 2 OperatorLevel.all) hleft (OperatorLevel.admits_of_mem hkind) hright
  · exact .operator (List.drop_suffix 3 OperatorLevel.all) hleft (OperatorLevel.admits_of_mem hkind) hright
  · exact .operator (List.drop_suffix 4 OperatorLevel.all) hleft (OperatorLevel.admits_of_mem hkind) hright
  · exact .operator (List.drop_suffix 5 OperatorLevel.all) hleft (OperatorLevel.admits_of_mem hkind) (.tightest hright)

end Texts

/-- The rule of the grammar by which a part of an expression is read, once it is given a text. -/
def Expr.HasText (n : Nat) (w : List Token) (e : Expr) : Prop :=
  ∀ lo, ∃ e' hi, ExprText (.ofLevel n) lo w e' hi ∧ e'.withoutIds = e.withoutIds

theorem Expr.HasText.looser {n m : Nat} {w : List Token} {e : Expr} (h : e.HasText m w)
    (hn : n ≤ m) : e.HasText n w := by
  intro lo
  obtain ⟨e', hi, htext, hsame⟩ := h lo
  exact ⟨e', hi, htext.looser hn, hsame⟩

mutual

/-- A canonical expression is read from what it is written as, whatever identities come next. -/
theorem Expr.hasText (e : Expr) (w : List Token) (he : e.Canonical) (hw : e.Written w) :
    e.HasText e.level w := by
  intro lo
  cases e with
  | literal value =>
    obtain ⟨t, v, rfl, ht, hv⟩ := exists_of_matches_anyOf hw
    cases hv
    exact ⟨_, _, .literal (Literal.ofKind?_eq_some_iff.mpr ht), rfl⟩
  | unary operator operand =>
    obtain ⟨hoperator, hlevel, hoperand⟩ := he
    obtain ⟨v, rfl, hv⟩ := exists_of_matches_kept hw
    obtain ⟨operand', hi, htext, hsame⟩ := (operand.hasText v hoperand hv).looser hlevel lo
    exact ⟨_, hi, .unary hoperator htext, by rw [Expr.withoutIds, Expr.withoutIds, hsame]⟩
  | binary left operator right =>
    obtain ⟨n, hstrength, hl, hr, hleft, hright⟩ := he
    obtain ⟨u, more, rfl, hu, hmore⟩ := exists_of_matches_append hw
    obtain ⟨v, rfl, hv⟩ := exists_of_matches_kept hmore
    obtain ⟨left', mid, hltext, hlsame⟩ := (left.hasText u hleft hu).looser hl lo
    obtain ⟨right', hi, hrtext, hrsame⟩ := (right.hasText v hright hv).looser hr mid
    -- The level of the node is the strength of its operator.
    have hlevel : (Expr.binary left operator right).level = n := by rw [Expr.level, hstrength]; rfl
    rw [hlevel]
    exact ⟨_, hi, .binaryAt hstrength hltext hrtext,
      by rw [Expr.withoutIds, Expr.withoutIds, hlsame, hrsame]⟩
  | logical left operator right =>
    obtain ⟨n, hstrength, hl, hr, hleft, hright⟩ := he
    obtain ⟨u, more, rfl, hu, hmore⟩ := exists_of_matches_append hw
    obtain ⟨v, rfl, hv⟩ := exists_of_matches_kept hmore
    obtain ⟨left', mid, hltext, hlsame⟩ := (left.hasText u hleft hu).looser hl lo
    obtain ⟨right', hi, hrtext, hrsame⟩ := (right.hasText v hright hv).looser hr mid
    have hlevel : (Expr.logical left operator right).level = n := by rw [Expr.level, hstrength]; rfl
    rw [hlevel]
    exact ⟨_, hi, .logicalAt hstrength hltext hrtext,
      by rw [Expr.withoutIds, Expr.withoutIds, hlsame, hrsame]⟩
  | grouping inner =>
    obtain ⟨opening, more, rfl, hopening, hmore⟩ := exists_of_matches_anyOf hw
    obtain ⟨v, last, rfl, hv, hlast⟩ := exists_of_matches_append hmore
    obtain ⟨closing, rest, rfl, hclosing, hrest⟩ := exists_of_matches_anyOf hlast
    cases hrest
    obtain ⟨inner', hi, htext, hsame⟩ := (inner.hasText v he hv).looser (Nat.zero_le _) lo
    exact ⟨_, hi, .grouping hopening htext hclosing, by rw [Expr.withoutIds, Expr.withoutIds, hsame]⟩
  | «variable» target =>
    obtain ⟨v, rfl, hv⟩ := exists_of_matches_kept hw
    cases hv
    exact ⟨_, _, .variable he, rfl⟩
  | assign target value =>
    obtain ⟨hname, hvalue⟩ := he
    obtain ⟨more, rfl, hmore⟩ := exists_of_matches_kept hw
    obtain ⟨equals, v, rfl, hequals, hv⟩ := exists_of_matches_anyOf hmore
    obtain ⟨value', hi, htext, hsame⟩ := (value.hasText v hvalue hv).looser (Nat.zero_le _) (lo + 1)
    exact ⟨_, _, .assign hname hequals htext, by rw [Expr.withoutIds, Expr.withoutIds, hsame]⟩
  | call callee paren arguments =>
    obtain ⟨hlevel, hcallee, hparen, hlength, harguments⟩ := he
    obtain ⟨u, more, rfl, hu, hmore⟩ := exists_of_matches_append hw
    obtain ⟨opening, inside, rfl, hopening, hinside⟩ := exists_of_matches_anyOf hmore
    obtain ⟨v, last, rfl, hv, hlast⟩ := exists_of_matches_append hinside
    obtain ⟨rest, rfl, hrest⟩ := exists_of_matches_kept hlast
    cases hrest
    obtain ⟨callee', mid, htext, hsame⟩ := (callee.hasText u hcallee hu).looser hlevel lo
    by_cases hempty : arguments = []
    · subst hempty
      cases hv
      exact ⟨_, mid, .callWithout htext hopening hparen, by rw [Expr.withoutIds, Expr.withoutIds, hsame]⟩
    · obtain ⟨arguments', hi, htexts, hsames⟩ := Expr.hasTexts arguments v harguments hv hempty mid
      have hcount : arguments'.length = arguments.length := by
        have hmap := congrArg List.length hsames
        rwa [Expr.withoutIdsAll_length, Expr.withoutIdsAll_length] at hmap
      exact ⟨_, hi, .call htext hopening htexts (by rw [hcount]; exact hlength) hparen,
        by rw [Expr.withoutIds, Expr.withoutIds, hsame, hsames]⟩
  | get object name =>
    obtain ⟨hlevel, hobject, hname⟩ := he
    obtain ⟨u, more, rfl, hu, hmore⟩ := exists_of_matches_append hw
    obtain ⟨dot, last, rfl, hdot, hlast⟩ := exists_of_matches_anyOf hmore
    obtain ⟨rest, rfl, hrest⟩ := exists_of_matches_kept hlast
    cases hrest
    obtain ⟨object', hi, htext, hsame⟩ := (object.hasText u hobject hu).looser hlevel lo
    exact ⟨_, hi, .get htext hdot hname, by rw [Expr.withoutIds, Expr.withoutIds, hsame]⟩
  | set object name value =>
    obtain ⟨hlevel, hobject, hname, hvalue⟩ := he
    obtain ⟨u, more, rfl, hu, hmore⟩ := exists_of_matches_append hw
    obtain ⟨dot, named, rfl, hdot, hnamed⟩ := exists_of_matches_anyOf hmore
    obtain ⟨last, rfl, hlast⟩ := exists_of_matches_kept hnamed
    obtain ⟨equals, v, rfl, hequals, hv⟩ := exists_of_matches_anyOf hlast
    obtain ⟨object', mid, htext, hsame⟩ := (object.hasText u hobject hu).looser hlevel lo
    obtain ⟨value', hi, hvtext, hvsame⟩ := (value.hasText v hvalue hv).looser (Nat.zero_le _) mid
    exact ⟨_, hi, .set htext hdot hname hequals hvtext,
      by rw [Expr.withoutIds, Expr.withoutIds, hsame, hvsame]⟩
  | thisObject keyword =>
    obtain ⟨v, rfl, hv⟩ := exists_of_matches_kept hw
    cases hv
    exact ⟨_, _, .thisObject he, rfl⟩
  | superMethod keyword method =>
    obtain ⟨hkeyword, hmethod⟩ := he
    obtain ⟨more, rfl, hmore⟩ := exists_of_matches_kept hw
    obtain ⟨dot, last, rfl, hdot, hlast⟩ := exists_of_matches_anyOf hmore
    obtain ⟨v, rfl, hv⟩ := exists_of_matches_kept hlast
    cases hv
    exact ⟨_, _, .superMethod hkeyword hdot hmethod, rfl⟩

theorem Expr.hasTexts (es : List Expr) (w : List Token) (he : Expr.AllCanonical es)
    (hw : List.Forall₂ Piece.Matches (Expr.piecesAll es) w) (hne : es ≠ []) (lo : Nat) :
    ∃ es' hi, CommaText (ExprText .expression) lo w es' hi ∧
      Expr.withoutIdsAll es' = Expr.withoutIdsAll es := by
  match es with
  | [] => exact absurd rfl hne
  | [e] =>
    obtain ⟨e', hi, htext, hsame⟩ := (e.hasText w he.1 hw).looser (Nat.zero_le _) lo
    exact ⟨[e'], hi, .last htext, by rw [Expr.withoutIdsAll, Expr.withoutIdsAll, hsame]; rfl⟩
  | e :: next :: rest =>
    obtain ⟨u, more, rfl, hu, hmore⟩ := exists_of_matches_append hw
    obtain ⟨comma, v, rfl, hcomma, hv⟩ := exists_of_matches_anyOf hmore
    obtain ⟨e', mid, htext, hsame⟩ := (e.hasText u he.1 hu).looser (Nat.zero_le _) lo
    obtain ⟨rest', hi, htexts, hsames⟩ := Expr.hasTexts (next :: rest) v he.2 hv nofun mid
    exact ⟨e' :: rest', hi, .more htext hcomma htexts,
      by rw [Expr.withoutIdsAll, hsame, hsames]; rfl⟩

end

/-! ## Texts are written forms of canonical expressions -/

/-- The least level that a place asks for. -/
def Place.floor : Place → Nat
  | .primary => 9
  | .call => 8
  | .unary => 7
  | .joined levels => 7 - levels.length
  | .expression => 0

/-- What the text of an expression at a place says of it. -/
def WrittenAt (place : Place) (w : List Token) (e : Expr) : Prop :=
  e.Canonical ∧ place.floor ≤ e.level ∧ e.Written w

theorem WrittenAt.at {place place' : Place} {w : List Token} {e : Expr} (h : WrittenAt place w e)
    (hplace : place'.floor ≤ place.floor) : WrittenAt place' w e :=
  ⟨h.1, Nat.le_trans hplace h.2.1, h.2.2⟩

/-- The node of a level, and the strength of its operators. -/
theorem OperatorLevel.node_cases {level : OperatorLevel} {tighter : List OperatorLevel}
    {operator : Token} (hlevels : level :: tighter <:+ OperatorLevel.all)
    (hoperator : level.admits operator = true) :
    (level.node = .logical ∧ operator.kind.logicalStrength = some (6 - tighter.length)) ∨
    (level.node = .binary ∧ operator.kind.binaryStrength = some (6 - tighter.length)) := by
  have hkind := OperatorLevel.mem_operators (hlevels.subset List.mem_cons_self) hoperator
  simp only [OperatorLevel.all, List.suffix_cons_iff, List.cons.injEq, List.suffix_nil,
    reduceCtorEq, or_false] at hlevels
  rcases hlevels with ⟨rfl, rfl⟩ | ⟨rfl, rfl⟩ | ⟨rfl, rfl⟩ | ⟨rfl, rfl⟩ | ⟨rfl, rfl⟩ | ⟨rfl, rfl⟩ <;>
    simp only [List.mem_cons, List.not_mem_nil, or_false] at hkind
  · exact Or.inl ⟨rfl, by rw [hkind]; rfl⟩
  · exact Or.inl ⟨rfl, by rw [hkind]; rfl⟩
  · exact Or.inr ⟨rfl, by rcases hkind with hkind | hkind <;> rw [hkind] <;> rfl⟩
  · exact Or.inr ⟨rfl, by rcases hkind with hkind | hkind | hkind | hkind <;> rw [hkind] <;> rfl⟩
  · exact Or.inr ⟨rfl, by rcases hkind with hkind | hkind <;> rw [hkind] <;> rfl⟩
  · exact Or.inr ⟨rfl, by rcases hkind with hkind | hkind <;> rw [hkind] <;> rfl⟩

theorem written_operator {level : OperatorLevel} {tighter : List OperatorLevel} {operator : Token}
    {u w : List Token} {left right : Expr} (hlevels : level :: tighter <:+ OperatorLevel.all)
    (hleft : WrittenAt (.joined (level :: tighter)) u left) (hoperator : level.admits operator = true)
    (hright : WrittenAt (.joined tighter) w right) :
    WrittenAt (.joined (level :: tighter)) (u ++ operator :: w) (level.node left operator right) := by
  obtain ⟨hlcanonical, hl, hu⟩ := hleft
  obtain ⟨hrcanonical, hr, hw⟩ := hright
  have hlength : tighter.length ≤ 5 := by
    have hle := hlevels.length_le
    simp only [OperatorLevel.all, List.length_cons, List.length_nil] at hle
    omega
  simp only [Place.floor, List.length_cons] at hl hr
  have hl : 6 - tighter.length ≤ left.level := by omega
  have hr : 6 - tighter.length < right.level := by omega
  have hword := matches_append hu (List.Forall₂.cons (R := Piece.Matches) (a := .kept operator) rfl hw)
  obtain ⟨hnode, hstrength⟩ | ⟨hnode, hstrength⟩ :=
    OperatorLevel.node_cases hlevels hoperator
  · rw [hnode]
    refine ⟨⟨_, hstrength, hl, hr, hlcanonical, hrcanonical⟩, ?_, hword⟩
    simp only [Place.floor, List.length_cons, Expr.level, hstrength, Option.getD_some]
    omega
  · rw [hnode]
    refine ⟨⟨_, hstrength, hl, hr, hlcanonical, hrcanonical⟩, ?_, hword⟩
    simp only [Place.floor, List.length_cons, Expr.level, hstrength, Option.getD_some]
    omega

theorem matches_cons {piece : Piece} {a : List Piece} {t : Token} {w : List Token}
    (h : piece.Matches t) (h' : List.Forall₂ Piece.Matches a w) :
    List.Forall₂ Piece.Matches (piece :: a) (t :: w) :=
  .cons h h'

mutual

theorem ExprText.written {place : Place} {lo hi : Nat} {w : List Token} {e : Expr}
    (h : ExprText place lo w e hi) : WrittenAt place w e :=
  match h with
  | .literal hvalue =>
    ⟨trivial, Nat.le_refl _, matches_cons (Literal.ofKind?_eq_some_iff.mp hvalue) .nil⟩
  | .variable hname => ⟨hname, Nat.le_refl _, matches_cons rfl .nil⟩
  | .thisObject hkeyword => ⟨hkeyword, Nat.le_refl _, matches_cons rfl .nil⟩
  | .superMethod hkeyword hdot hmethod =>
    ⟨⟨hkeyword, hmethod⟩, Nat.le_refl _, matches_cons rfl (matches_cons hdot (matches_cons rfl .nil))⟩
  | .grouping hleft hinner hright =>
    ⟨hinner.written.1, Nat.le_refl _, matches_cons hleft
      (matches_append hinner.written.2.2 (matches_cons hright .nil))⟩
  | .operand hprimary => hprimary.written.at (by decide)
  | .callWithout hcallee hleft hparen =>
    ⟨⟨hcallee.written.2.1, hcallee.written.1, hparen, Nat.zero_le _, trivial⟩, Nat.le_refl _,
      matches_append hcallee.written.2.2 (matches_cons hleft (matches_cons rfl .nil))⟩
  | .call hcallee hleft harguments hlength hparen =>
    ⟨⟨hcallee.written.2.1, hcallee.written.1, hparen, hlength, harguments.written.1⟩, Nat.le_refl _,
      matches_append hcallee.written.2.2 (matches_cons hleft
        (matches_append harguments.written.2 (matches_cons rfl .nil)))⟩
  | .get hobject hdot hname =>
    ⟨⟨hobject.written.2.1, hobject.written.1, hname⟩, Nat.le_refl _,
      matches_append hobject.written.2.2 (matches_cons hdot (matches_cons rfl .nil))⟩
  | .unoperated hcall => hcall.written.at (by decide)
  | .unary hoperator hinner =>
    ⟨⟨hoperator, hinner.written.2.1, hinner.written.1⟩, Nat.le_refl _,
      matches_cons rfl hinner.written.2.2⟩
  | .tightest hunary => hunary.written.at (Nat.le_refl _)
  -- A place with more levels of operators asks for less.
  | .tighter htighter => htighter.written.at (Nat.sub_le_sub_left (Nat.le_succ _) 7)
  | .operator hlevels hleft hoperator hright =>
    written_operator hlevels hleft.written hoperator hright.written
  | .joined hjoined => hjoined.written.at (Nat.zero_le _)
  | .assign hname hequals hvalue =>
    ⟨⟨hname, hvalue.written.1⟩, Nat.le_refl _,
      matches_cons rfl (matches_cons hequals hvalue.written.2.2)⟩
  | .set hobject hdot hname hequals hvalue =>
    ⟨⟨hobject.written.2.1, hobject.written.1, hname, hvalue.written.1⟩, Nat.le_refl _,
      matches_append hobject.written.2.2
        (matches_cons hdot (matches_cons rfl (matches_cons hequals hvalue.written.2.2)))⟩

theorem CommaText.written {lo hi : Nat} {w : List Token} {es : List Expr}
    (h : CommaText (ExprText .expression) lo w es hi) :
    Expr.AllCanonical es ∧ List.Forall₂ Piece.Matches (Expr.piecesAll es) w :=
  match h with
  | .last he => ⟨⟨he.written.1, trivial⟩, he.written.2.2⟩
  | .more he hcomma hrest => by
    refine ⟨⟨he.written.1, hrest.written.1⟩, ?_⟩
    rw [Expr.piecesAll_cons hrest.ne_nil]
    exact matches_append he.written.2.2 (matches_cons hcomma hrest.written.2)

end

/-! ## Identities do not matter -/

theorem Expr.level_withoutIds (e : Expr) : e.withoutIds.level = e.level := by
  cases e <;> rfl

mutual

theorem Expr.canonical_withoutIds (e : Expr) : e.withoutIds.Canonical ↔ e.Canonical := by
  cases e with
  | literal _ => exact Iff.rfl
  | unary _ operand =>
    simp only [Expr.withoutIds, Expr.Canonical, operand.level_withoutIds, operand.canonical_withoutIds]
  | binary left _ right =>
    simp only [Expr.withoutIds, Expr.Canonical, Expr.level_withoutIds, left.canonical_withoutIds,
      right.canonical_withoutIds]
  | logical left _ right =>
    simp only [Expr.withoutIds, Expr.Canonical, Expr.level_withoutIds, left.canonical_withoutIds,
      right.canonical_withoutIds]
  | grouping inner => simp only [Expr.withoutIds, Expr.Canonical, inner.canonical_withoutIds]
  | «variable» _ => exact Iff.rfl
  | assign _ value => simp only [Expr.withoutIds, Expr.Canonical, value.canonical_withoutIds]
  | call callee _ arguments =>
    simp only [Expr.withoutIds, Expr.Canonical, Expr.level_withoutIds, callee.canonical_withoutIds,
      Expr.allCanonical_withoutIds arguments, Expr.withoutIdsAll_length]
  | get object _ =>
    simp only [Expr.withoutIds, Expr.Canonical, Expr.level_withoutIds, object.canonical_withoutIds]
  | set object _ value =>
    simp only [Expr.withoutIds, Expr.Canonical, Expr.level_withoutIds, object.canonical_withoutIds,
      value.canonical_withoutIds]
  | thisObject _ => exact Iff.rfl
  | superMethod _ _ => exact Iff.rfl

theorem Expr.allCanonical_withoutIds (es : List Expr) :
    Expr.AllCanonical (Expr.withoutIdsAll es) ↔ Expr.AllCanonical es := by
  cases es with
  | nil => exact Iff.rfl
  | cons e rest =>
    simp only [Expr.withoutIdsAll, Expr.AllCanonical, e.canonical_withoutIds,
      Expr.allCanonical_withoutIds rest]

end

mutual

theorem Expr.pieces_withoutIds (e : Expr) : e.withoutIds.pieces = e.pieces := by
  cases e with
  | literal _ => rfl
  | unary _ operand => simp only [Expr.withoutIds, Expr.pieces, operand.pieces_withoutIds]
  | binary left _ right =>
    simp only [Expr.withoutIds, Expr.pieces, left.pieces_withoutIds, right.pieces_withoutIds]
  | logical left _ right =>
    simp only [Expr.withoutIds, Expr.pieces, left.pieces_withoutIds, right.pieces_withoutIds]
  | grouping inner => simp only [Expr.withoutIds, Expr.pieces, inner.pieces_withoutIds]
  | «variable» _ => rfl
  | assign _ value => simp only [Expr.withoutIds, Expr.pieces, value.pieces_withoutIds]
  | call callee _ arguments =>
    simp only [Expr.withoutIds, Expr.pieces, callee.pieces_withoutIds,
      Expr.piecesAll_withoutIds arguments]
  | get object _ => simp only [Expr.withoutIds, Expr.pieces, object.pieces_withoutIds]
  | set object _ value =>
    simp only [Expr.withoutIds, Expr.pieces, object.pieces_withoutIds, value.pieces_withoutIds]
  | thisObject _ => rfl
  | superMethod _ _ => rfl

theorem Expr.piecesAll_withoutIds (es : List Expr) :
    Expr.piecesAll (Expr.withoutIdsAll es) = Expr.piecesAll es := by
  match es with
  | [] => rfl
  | [e] => exact e.pieces_withoutIds
  | e :: next :: rest =>
    simp only [Expr.withoutIdsAll, Expr.piecesAll, e.pieces_withoutIds]
    rw [← Expr.piecesAll_withoutIds (next :: rest), Expr.withoutIdsAll]

end

/-! ## Tokens of expressions -/

/-- Whether tokens of some kind can stand in an expression. -/
def TokenKind.inExpression : TokenKind → Bool
  | .symbol s => s ∉ [.semicolon, .leftBrace, .rightBrace]
  | .keyword k =>
    k ∈ [.andWord, .falseWord, .nilWord, .orWord, .superWord, .thisWord, .trueWord]
  | .endOfInput => false
  | _ => true

def InExpression (w : List Token) : Prop :=
  ∀ t ∈ w, t.kind.inExpression = true

theorem InExpression.nil : InExpression [] :=
  nofun

theorem InExpression.cons {t : Token} {w : List Token} {kind : TokenKind} (ht : t.kind = kind)
    (hkind : kind.inExpression = true) (h : InExpression w) : InExpression (t :: w) :=
  List.forall_mem_cons.mpr ⟨by rw [ht, hkind], h⟩

theorem InExpression.append {u w : List Token} (h : InExpression u) (h' : InExpression w) :
    InExpression (u ++ w) :=
  List.forall_mem_append.mpr ⟨h, h'⟩

theorem Literal.inExpression (value : Literal) : value.kind.inExpression = true := by
  cases value with
  | bool b => cases b <;> rfl
  | _ => rfl

theorem OperatorLevel.inExpression {level : OperatorLevel} {levels : List OperatorLevel}
    {t : Token} (hlevels : level :: levels <:+ OperatorLevel.all) (h : level.admits t = true) :
    t.kind.inExpression = true := by
  have hkind := OperatorLevel.mem_operators (hlevels.subset List.mem_cons_self) h
  have hall : ∀ level ∈ OperatorLevel.all, ∀ kind ∈ level.operators,
      kind.inExpression = true := by
    simp [OperatorLevel.all, TokenKind.inExpression]
  exact hall level (hlevels.subset List.mem_cons_self) _ hkind

mutual

/-- The text of an expression holds no semicolon, no brace, no word that opens a statement and no
end of input. -/
theorem ExprText.inExpression {place : Place} {lo hi : Nat} {w : List Token} {e : Expr}
    (h : ExprText place lo w e hi) : InExpression w :=
  match h with
  | .literal hvalue =>
    .cons (Literal.ofKind?_eq_some_iff.mp hvalue) (Literal.inExpression _) .nil
  | .variable hname => .cons hname rfl .nil
  | .thisObject hkeyword => .cons hkeyword rfl .nil
  | .superMethod hkeyword hdot hmethod =>
    .cons hkeyword rfl (.cons hdot rfl (.cons hmethod rfl .nil))
  | .grouping hleft hinner hright =>
    .cons hleft rfl (hinner.inExpression.append (.cons hright rfl .nil))
  | .operand hprimary => hprimary.inExpression
  | .callWithout hcallee hleft hparen =>
    hcallee.inExpression.append (.cons hleft rfl (.cons hparen rfl .nil))
  | .call hcallee hleft harguments _ hparen =>
    hcallee.inExpression.append
      (.cons hleft rfl (harguments.inExpression.append (.cons hparen rfl .nil)))
  | .get hobject hdot hname =>
    hobject.inExpression.append (.cons hdot rfl (.cons hname rfl .nil))
  | .unoperated hcall => hcall.inExpression
  | .unary (.inl hoperator) hinner => .cons hoperator rfl hinner.inExpression
  | .unary (.inr hoperator) hinner => .cons hoperator rfl hinner.inExpression
  | .tightest hunary => hunary.inExpression
  | .tighter htighter => htighter.inExpression
  | .operator hlevels hleft hoperator hright =>
    hleft.inExpression.append
      (.cons rfl (OperatorLevel.inExpression hlevels hoperator) hright.inExpression)
  | .joined hjoined => hjoined.inExpression
  | .assign hname hequals hvalue => .cons hname rfl (.cons hequals rfl hvalue.inExpression)
  | .set hobject hdot hname hequals hvalue =>
    hobject.inExpression.append
      (.cons hdot rfl (.cons hname rfl (.cons hequals rfl hvalue.inExpression)))

theorem CommaText.inExpression {lo hi : Nat} {w : List Token} {es : List Expr}
    (h : CommaText (ExprText .expression) lo w es hi) : InExpression w :=
  match h with
  | .last he => he.inExpression
  | .more he hcomma hrest => he.inExpression.append (.cons hcomma rfl hrest.inExpression)

end

/-! ## Reading and writing -/

/-- The tokens of a text hold no end of input. -/
def NoEnd (w : List Token) : Prop :=
  ∀ t ∈ w, t.isEnd = false

theorem NoEnd.takeWhile {w after : List Token} {stop : Token} (h : NoEnd w) (hstop : stop.isEnd = true) :
    (w ++ stop :: after).takeWhile (!·.isEnd) = w := by
  rw [List.takeWhile_append_of_pos fun t ht => by rw [h t ht]; rfl]
  rw [List.takeWhile_cons_of_neg (by simp [hstop]), List.append_nil]

theorem ExprText.noEnd {place : Place} {lo hi : Nat} {w : List Token} {e : Expr}
    (h : ExprText place lo w e hi) : NoEnd w := by
  intro t ht
  have hkind := h.inExpression t ht
  unfold Token.isEnd
  cases hend : t.kind with
  | endOfInput =>
    rw [hend] at hkind
    cases hkind
  | _ => rfl

/-- What can be read of tokens, whatever identity comes next: the canonical expressions that the
tokens before the end are written out from. -/
theorem reads_iff_written (tokens : List Token) (nextId : Nat) (e : Expr) :
    (∃ e', (expressionOfTokens tokens nextId).1 = .ok e' ∧ e'.withoutIds = e.withoutIds) ↔
      e.Canonical ∧ e.Written (tokens.takeWhile (!·.isEnd)) := by
  constructor
  · rintro ⟨e', hread, hsame⟩
    obtain ⟨hcanonical, -, hwritten⟩ := (expression_text hread).written
    constructor
    · rw [← e.canonical_withoutIds, ← hsame, e'.canonical_withoutIds]
      exact hcanonical
    · rw [Expr.Written, ← e.pieces_withoutIds, ← hsame, e'.pieces_withoutIds]
      exact hwritten
  · rintro ⟨hcanonical, hwritten⟩
    have htext := (e.hasText _ hcanonical hwritten).looser (Nat.zero_le _)
    obtain ⟨e', hi, htext, hsame⟩ := htext nextId
    exact ⟨e', by rw [expressionOfTokens_of_text htext], hsame⟩

/-- Reading and writing expressions are inverse. A canonical expression is read back from what it is
written as, up to identities; what is read is exactly the canonical expressions that the tokens before
the end are written out from; and there is at most one of those. -/
theorem expression_round_trip :
    (∀ (e : Expr) (stop : Token) (after : List Token) (nextId : Nat), e.Canonical →
      stop.isEnd = true → ∃ e', (expressionOfTokens (e.yield ++ stop :: after) nextId).1 = .ok e' ∧
        e'.withoutIds = e.withoutIds) ∧
    (∀ (tokens : List Token) (nextId : Nat) (e : Expr),
      (∃ e', (expressionOfTokens tokens nextId).1 = .ok e' ∧ e'.withoutIds = e.withoutIds) ↔
        e.Canonical ∧ e.Written (tokens.takeWhile (!·.isEnd))) ∧
    (∀ (e e' : Expr) (w : List Token), e.Canonical → e'.Canonical → e.Written w → e'.Written w →
      e.withoutIds = e'.withoutIds) := by
  have hnoEnd : ∀ (e : Expr) (w : List Token), e.Canonical → e.Written w → NoEnd w := by
    intro e w hcanonical hwritten
    obtain ⟨e', hi, htext, -⟩ := e.hasText w hcanonical hwritten 0
    exact htext.noEnd
  refine ⟨?_, reads_iff_written, ?_⟩
  · intro e stop after nextId hcanonical hstop
    refine (reads_iff_written _ nextId e).mpr ⟨hcanonical, ?_⟩
    rw [(hnoEnd e _ hcanonical e.written_yield).takeWhile hstop]
    exact e.written_yield
  · intro e e' w hcanonical hcanonical' hwritten hwritten'
    have hw : (w ++ [Token.endOn 1]).takeWhile (!·.isEnd) = w :=
      (hnoEnd e w hcanonical hwritten).takeWhile rfl
    obtain ⟨e₁, hread, hsame⟩ :=
      (reads_iff_written (w ++ [.endOn 1]) 0 e).mpr ⟨hcanonical, by rwa [hw]⟩
    obtain ⟨e₂, hread', hsame'⟩ :=
      (reads_iff_written (w ++ [.endOn 1]) 0 e').mpr ⟨hcanonical', by rwa [hw]⟩
    rw [hread] at hread'
    cases hread'
    rw [← hsame, hsame']

/-- The expression `a = b.c(d) - -e * (f or g)`, all of its references having one identity. -/
def nestedAssignment (id : Nat) : Expr :=
  let name (lexeme : String) : Token := ⟨.identifier, lexeme, 1⟩
  let use (lexeme : String) : Expr := .variable ⟨id, name lexeme⟩
  .assign ⟨id, name "a"⟩
    (.binary (.call (.get (use "b") (name "c")) ⟨.symbol .rightParen, ")", 1⟩ [use "d"])
      ⟨.symbol .minus, "-", 1⟩
      (.binary (.unary ⟨.symbol .minus, "-", 1⟩ (use "e")) ⟨.symbol .star, "*", 1⟩
        (.grouping (.logical (use "f") ⟨.keyword .orWord, "or", 1⟩ (use "g")))))

theorem nestedAssignment_canonical (id : Nat) : (nestedAssignment id).Canonical := by
  simp [nestedAssignment, Expr.Canonical, Expr.AllCanonical, Expr.level, TokenKind.binaryStrength,
    TokenKind.logicalStrength]

theorem expression_round_trip_of_nested :
    (nestedAssignment 0).Canonical ∧ (nestedAssignment 1).Canonical ∧
    (nestedAssignment 1).Written (nestedAssignment 0).yield ∧
    (∃ e', (expressionOfTokens ((nestedAssignment 0).yield ++ [Token.endOn 1]) 5).1 = .ok e' ∧
      e'.withoutIds = (nestedAssignment 0).withoutIds) ∧
    (nestedAssignment 0).withoutIds = (nestedAssignment 1).withoutIds :=
  ⟨nestedAssignment_canonical 0, nestedAssignment_canonical 1, (nestedAssignment 1).written_yield,
    expression_round_trip.1 (nestedAssignment 0) (.endOn 1) [] 5 (nestedAssignment_canonical 0) rfl,
    expression_round_trip.2.2 (nestedAssignment 0) (nestedAssignment 1) (nestedAssignment 0).yield
      (nestedAssignment_canonical 0) (nestedAssignment_canonical 1)
      (nestedAssignment 0).written_yield (nestedAssignment 1).written_yield⟩

end LoxLang
