import LoxLang.Machine.Step
import LoxLang.Proofs.Binding.Enclosure
import LoxLang.Proofs.Grammar.Text

/-!
What a `for` statement means. `ForLoop.after` is the loop that a reader of its clauses has in mind: the
initializer runs once in a scope of its own, the condition is tested before each round, and after a round
that has completed the increment is evaluated. Each part runs on a machine of its own, and no scope is
opened for a round. The parser has no tree for loops of this kind and builds blocks around a `while` loop
instead (`ForLoop.tree`), with the body and the increment one block deeper than the condition
(`ForLoop.sites_tree`).
-/
namespace LoxLang
set_option autoImplicit false

/-- The clauses of a `for` statement and its body. -/
structure ForLoop where
  initializer : Option Stmt
  condition : Option Expr
  increment : Option Expr
  body : Stmt

namespace ForLoop

/-- The tree that the parser builds. -/
def tree (l : ForLoop) : Stmt :=
  .forLoop l.initializer l.condition l.increment l.body

/-- The expression that is tested before each round; without a condition it is true. -/
def test (l : ForLoop) : Expr :=
  l.condition.getD (.literal (.bool true))

/-! ## The reference loop -/

inductive Part where
  | initializer
  | test
  | body
  | increment

/-- A part of the loop runs, or the loop is over. -/
inductive State where
  | running (part : Part) (machine : Machine)
  | ended (world : World) (result : Except RuntimeFault Completion)

def State.world : State → World
  | .running _ m => m.world
  | .ended w _ => w

def State.isOver : State → Bool
  | .running _ _ => false
  | .ended _ _ => true

/-- Sets out to test the condition. -/
def testing (l : ForLoop) (w : World) : State :=
  .running .test ⟨w, .eval l.test, []⟩

/-- The text has a block around the body and the increment. No scope is opened for it here, and the scope
in which the loop stands takes its place in the chain as well. -/
def deeper : Chain → Chain
  | [] => []
  | id :: outer => id :: id :: outer

/-- Sets out on a round. -/
def round (l : ForLoop) (w : World) : State :=
  match l.increment with
  | some _ => .running .body ⟨w.withChain (deeper w.chain), .exec l.body, []⟩
  | none => .running .body ⟨w, .exec l.body, []⟩

/-- The scopes of a round are those of the condition, with an increment one further out. -/
theorem chain_round (l : ForLoop) (w : World) (distance : Nat) :
    (l.round w).world.chain[distance + l.increment.toList.length]? = w.chain[distance]? := by
  unfold round
  cases l.increment with
  | none => rfl
  | some e =>
    change (deeper w.chain)[distance + 1]? = w.chain[distance]?
    cases w.chain <;> rfl

/-- Goes on when a part has come to a value, or a statement to its normal completion. -/
def proceed (l : ForLoop) (outer : Chain) (w : World) (v : Value) : Part → State
  | .initializer => l.testing w
  | .test => if v.isTruthy then l.round w else .ended (w.withChain outer) (.ok .normal)
  | .body =>
    match l.increment with
    | some e => .running .increment ⟨w, .eval e, []⟩
    | none => l.testing w
  | .increment => l.testing (w.withChain w.chain.tail)

/-- Goes on with what a part has come to. A `return` and a fault leave the loop at once. -/
def next (l : ForLoop) (outer : Chain) (part : Part) (w : World) : Outcome → State
  | .value v => l.proceed outer w v part
  | .done .normal => l.proceed outer w .nil part
  | .done (.returned v) => .ended (w.withChain outer) (.ok (.returned v))
  | .fault f => .ended (w.withChain outer) (.error f)

/-- One step of the part that runs, or the passage to the next part; `outer` is active around the loop. -/
def advance (l : ForLoop) (outer : Chain) : State → State
  | .running part m =>
    match m.outcome? with
    | none => .running part m.step
    | some outcome => l.next outer part m.world outcome
  | .ended w result => .ended w result

/-- The initializer, if there is one, runs in a scope of its own. -/
def start (l : ForLoop) (w : World) : State :=
  match l.initializer with
  | some s => .running .initializer ⟨w.enterScope w.chain .empty, .exec s, []⟩
  | none => l.testing w

/-- The loop from a world on, after some steps. -/
def after (l : ForLoop) (w : World) : Nat → State
  | 0 => l.start w
  | n + 1 => l.advance w.chain (l.after w n)

/-! ## The text -/

/-- The tokens of a `for` statement after its first word. -/
inductive Text (l : ForLoop) (dangling : Bool) : Nat → List Token → Nat → Prop
  | intro {lo first second third hi : Nat} {left stop right : Token} {u v v' w : List Token} :
    left.kind = .symbol .leftParen → InitializerText lo u l.initializer first →
    OptionText (ExprText .expression) first v l.condition second → stop.kind = .symbol .semicolon →
    OptionText (ExprText .expression) second v' l.increment third →
    right.kind = .symbol .rightParen → StmtText dangling third w l.body hi →
    Text l dangling lo (left :: (u ++ (v ++ stop :: (v' ++ right :: w)))) hi

end ForLoop

theorem StmtText.isDeclaration_eq {dangling : Bool} {lo hi : Nat} {w : List Token} {s : Stmt}
    (h : StmtText dangling lo w s hi) : s.isDeclaration = false := by
  cases h with
  | expression h =>
    cases h
    rfl
  | @forLoop _ _ _ _ _ _ _ _ _ _ _ _ _ _ initializer =>
    cases initializer <;> rfl
  | _ => rfl

theorem ForLoop.Text.body_isDeclaration {dangling : Bool} {lo hi : Nat} {w : List Token} {l : ForLoop}
    (h : l.Text dangling lo w hi) : l.body.isDeclaration = false := by
  cases h with
  | intro _ _ _ _ _ _ hbody => exact hbody.isDeclaration_eq

/-- A statement that begins with `for` is a loop with the clauses and the body that follow. -/
theorem StmtText.forLoop_of_head {dangling : Bool} {lo hi : Nat} {word : Token} {w : List Token}
    {s : Stmt} (hword : word.kind = .keyword .forWord) (h : StmtText dangling lo (word :: w) s hi) :
    ∃ l : ForLoop, l.Text dangling lo w hi ∧ s = l.tree := by
  have hother : ∀ {t : Token} {v : List Token}, word :: w = t :: v →
      t.kind ≠ .keyword .forWord → False := by
    intro t v heq hne
    cases heq
    exact hne hword
  generalize hall : word :: w = all at h
  cases h with
  | @forLoop _ _ _ _ _ _ _ _ _ _ _ _ _ _ initializer test increment body _ hleft hinit htest hstop
      hincrement hright hbody =>
    cases hall
    exact ⟨⟨initializer, test, increment, body⟩,
      .intro hleft hinit htest hstop hincrement hright hbody, rfl⟩
  | expression h =>
    cases h with
    | intro he _ =>
      obtain ⟨t, v, rfl, ht⟩ := he.head
      exact (hother hall fun hkind => by rw [hkind] at ht; cases ht).elim
  | print hkind => exact (hother hall (by rw [hkind]; nofun)).elim
  | returnWith hkind => exact (hother hall (by rw [hkind]; nofun)).elim
  | block hkind => exact (hother hall (by rw [hkind]; nofun)).elim
  | conditional hkind => exact (hother hall (by rw [hkind]; nofun)).elim
  | alternative hkind => exact (hother hall (by rw [hkind]; nofun)).elim
  | loop hkind => exact (hother hall (by rw [hkind]; nofun)).elim

namespace ForLoop

/-! ## What the parts see -/

/-- The `while` loop in the tree. -/
def core (l : ForLoop) : Stmt :=
  .forLoop none l.condition l.increment l.body

/-- The enclosure in which the initializer stands. -/
def around (l : ForLoop) (Γ : Enclosure) : Enclosure :=
  match l.initializer with
  | some s => ⟨.block [s, l.core], []⟩ :: Γ
  | none => Γ

/-- The enclosure in which the condition stands. -/
def inside (l : ForLoop) (Γ : Enclosure) : Enclosure :=
  match l.initializer with
  | some s => s.after (l.around Γ)
  | none => Γ

/-- The enclosure in which the body and the increment stand. -/
def within (l : ForLoop) (Γ : Enclosure) : Enclosure :=
  match l.increment with
  | some e => ⟨.block [l.body, .expression e], []⟩ :: l.inside Γ
  | none => l.inside Γ

/-- After the statement the enclosure is what it was before. -/
theorem after_tree (l : ForLoop) (Γ : Enclosure) : l.tree.after Γ = Γ := by
  obtain ⟨initializer, condition, increment, body⟩ := l
  cases initializer <;> rfl

theorem sites_tree (l : ForLoop) (hbody : l.body.isDeclaration = false) (Γ : Enclosure) :
    l.tree.sites Γ = l.initializer.toList.flatMap (·.sites (l.around Γ)) ++
      l.test.sites (l.inside Γ) none ++ l.body.sites (l.within Γ) ++
      Expr.sitesOption (l.within Γ) none l.increment := by
  obtain ⟨initializer, condition, increment, body⟩ := l
  have hafter := fun Γ => Stmt.after_of_isDeclaration Γ hbody
  cases initializer <;> cases increment <;>
    simp_all [tree, Stmt.forLoop, Stmt.sites, Stmt.sitesAll, inside, around, within, core, test,
      Expr.sitesOption]

/-- The block around the body and the increment declares nothing: there a name means the same as in the
condition, one layer further out. -/
theorem distance?_within (l : ForLoop) (Γ : Enclosure) (x : String) :
    (l.within Γ).distance? x =
      ((l.inside Γ).distance? x).map (· + l.increment.toList.length) := by
  obtain ⟨initializer, condition, increment, body⟩ := l
  cases increment with
  | none => simp [within]
  | some e =>
    simp [within, Enclosure.distance?, List.findIdx?_cons]

/-- The condition sees the variable of the initializer in the innermost layer. -/
theorem distance?_inside (l : ForLoop) (Γ : Enclosure) {name : Token} {value : Option Expr}
    (h : l.initializer = some (.variable name value)) :
    (l.inside Γ).distance? name.lexeme = some 0 := by
  simp [inside, around, h, Stmt.after, Enclosure.declare, Enclosure.distance?, List.findIdx?_cons]

/-- What the parts of a loop see that stands in an enclosure. -/
structure Sees (l : ForLoop) (Γ : Enclosure) : Prop where
  /-- Where the references of each part stand. -/
  sites : l.tree.sites Γ = l.initializer.toList.flatMap (·.sites (l.around Γ)) ++
    l.test.sites (l.inside Γ) none ++ l.body.sites (l.within Γ) ++
    Expr.sitesOption (l.within Γ) none l.increment
  /-- In the body and the increment a name means the same as in the condition. -/
  within : ∀ x, (l.within Γ).distance? x =
    ((l.inside Γ).distance? x).map (· + l.increment.toList.length)
  /-- The variable of the loop is in the innermost layer of the condition. -/
  declared : ∀ name value, l.initializer = some (.variable name value) →
    (l.inside Γ).distance? name.lexeme = some 0
  /-- After the statement the variable of the loop is gone. -/
  after : l.tree.after Γ = Γ

theorem sees (l : ForLoop) (hbody : l.body.isDeclaration = false) (Γ : Enclosure) : l.Sees Γ :=
  ⟨l.sites_tree hbody Γ, l.distance?_within Γ, fun _ _ => l.distance?_inside Γ, l.after_tree Γ⟩

end ForLoop

end LoxLang
