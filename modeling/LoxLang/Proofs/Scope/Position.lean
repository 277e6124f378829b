import LoxLang.Proofs.Scope.Setting

/-!
Where a machine stands in the text. The frames wait for a value or for the completion of a statement
at some point of a program (`Setting.Awaits`), and the frames of blocks and calls hold chains that
realize the enclosures to which they lead back. The innermost scopes of the active chain and of those
that wait are exact: they bind nothing but the names declared so far, and the later a scope was
opened the earlier it is left.
-/
namespace LoxLang
set_option autoImplicit false

/-- What frames wait for: a value inside an expression, or the completion of a statement after which
an enclosure holds. -/
inductive Awaited where
  | value (Γ : Enclosure) (initializing : Option String)
  | completion (Γ : Enclosure)

/-- The enclosures and chains to which blocks and calls lead back, the innermost first. -/
abbrev Suspended := List (Enclosure × Chain)

/-- A statement that can stand where no declaration can. -/
def Stmt.KnownPlain (S : Setting) (Γ : Enclosure) (s : Stmt) : Prop :=
  s.Known S Γ ∧ s.isDeclaration = false

/-- Frames wait at a point of a program. -/
inductive Setting.Awaits (S : Setting) : Awaited → List Frame → Suspended → Prop
  | program : S.Awaits (.completion []) [] []
  | sequence {Γ : Enclosure} {rest : List Stmt} {frames : List Frame} {stack : Suspended} :
    Stmt.AllKnown S Γ rest → S.Awaits (.completion (Stmt.afterAll Γ rest)) frames stack →
    S.Awaits (.completion Γ) (.sequence rest :: frames) stack
  | loopBody {Γ : Enclosure} {condition : Expr} {body : Stmt} {frames : List Frame}
    {stack : Suspended} : condition.Known S Γ none → body.KnownPlain S Γ →
    S.Awaits (.completion Γ) frames stack →
    S.Awaits (.completion Γ) (.loopBody condition body :: frames) stack
  | block {Γ outer : Enclosure} {chain : Chain} {frames : List Frame} {stack : Suspended} :
    S.Realizes outer chain → S.Awaits (.completion outer) frames stack →
    S.Awaits (.completion Γ) (.block chain :: frames) ((outer, chain) :: stack)
  | call {Γ caller : Enclosure} {p : Option String} {chain : Chain} {closure : Closure}
    {frames : List Frame} {stack : Suspended} : S.Realizes caller chain →
    S.Awaits (.value caller p) frames stack →
    S.Awaits (.completion Γ) (.call chain closure :: frames) ((caller, chain) :: stack)
  | unary {Γ : Enclosure} {p : Option String} {operator : Token} {frames : List Frame}
    {stack : Suspended} : S.Awaits (.value Γ p) frames stack →
    S.Awaits (.value Γ p) (.unary operator :: frames) stack
  | binaryLeft {Γ : Enclosure} {p : Option String} {operator : Token} {right : Expr}
    {frames : List Frame} {stack : Suspended} : right.Known S Γ p →
    S.Awaits (.value Γ p) frames stack →
    S.Awaits (.value Γ p) (.binaryLeft operator right :: frames) stack
  | binaryRight {Γ : Enclosure} {p : Option String} {operator : Token} {left : Value}
    {frames : List Frame} {stack : Suspended} : S.Awaits (.value Γ p) frames stack →
    S.Awaits (.value Γ p) (.binaryRight operator left :: frames) stack
  | logical {Γ : Enclosure} {p : Option String} {operator : Token} {right : Expr}
    {frames : List Frame} {stack : Suspended} : right.Known S Γ p →
    S.Awaits (.value Γ p) frames stack →
    S.Awaits (.value Γ p) (.logical operator right :: frames) stack
  | assign {Γ : Enclosure} {p : Option String} {target : Reference} {frames : List Frame}
    {stack : Suspended} : target.name.IsName S.admits → S.known ⟨target, .write, Γ, p⟩ →
    S.Awaits (.value Γ p) frames stack → S.Awaits (.value Γ p) (.assign target :: frames) stack
  | callee {Γ : Enclosure} {p : Option String} {paren : Token} {arguments : List Expr}
    {frames : List Frame} {stack : Suspended} : Expr.AllKnown S Γ p arguments →
    S.Awaits (.value Γ p) frames stack →
    S.Awaits (.value Γ p) (.callee paren arguments :: frames) stack
  | argument {Γ : Enclosure} {p : Option String} {callee : Value} {paren : Token}
    {before : List Value} {rest : List Expr} {frames : List Frame} {stack : Suspended} :
    callee.Valid S → (∀ v ∈ before, v.Valid S) → Expr.AllKnown S Γ p rest →
    S.Awaits (.value Γ p) frames stack →
    S.Awaits (.value Γ p) (.argument callee paren before rest :: frames) stack
  | get {Γ : Enclosure} {p : Option String} {name : Token} {frames : List Frame}
    {stack : Suspended} : S.Awaits (.value Γ p) frames stack →
    S.Awaits (.value Γ p) (.get name :: frames) stack
  | setObject {Γ : Enclosure} {p : Option String} {name : Token} {value : Expr}
    {frames : List Frame} {stack : Suspended} : value.Known S Γ p →
    S.Awaits (.value Γ p) frames stack →
    S.Awaits (.value Γ p) (.setObject name value :: frames) stack
  | setValue {Γ : Enclosure} {p : Option String} {object : ObjectRef} {name : Token}
    {frames : List Frame} {stack : Suspended} : S.Awaits (.value Γ p) frames stack →
    S.Awaits (.value Γ p) (.setValue object name :: frames) stack
  | construct {Γ : Enclosure} {p : Option String} {object : ObjectRef} {frames : List Frame}
    {stack : Suspended} : object.origin.Valid S → S.Awaits (.value Γ p) frames stack →
    S.Awaits (.value Γ p) (.construct object :: frames) stack
  | discard {Γ : Enclosure} {frames : List Frame} {stack : Suspended} :
    S.Awaits (.completion Γ) frames stack → S.Awaits (.value Γ none) (.discard :: frames) stack
  | print {Γ : Enclosure} {keyword : Token} {frames : List Frame} {stack : Suspended} :
    S.Awaits (.completion Γ) frames stack →
    S.Awaits (.value Γ none) (.print keyword :: frames) stack
  | define {Γ : Enclosure} {name : Token} {frames : List Frame} {stack : Suspended} :
    name.IsName S.admits → S.Awaits (.completion (Γ.declare name.lexeme)) frames stack →
    S.Awaits (.value Γ (Γ.pending name.lexeme)) (.define name :: frames) stack
  | branch {Γ : Enclosure} {thenBranch : Stmt} {elseBranch : Option Stmt} {frames : List Frame}
    {stack : Suspended} : thenBranch.KnownPlain S Γ → (∀ s ∈ elseBranch, s.KnownPlain S Γ) →
    S.Awaits (.completion Γ) frames stack →
    S.Awaits (.value Γ none) (.branch thenBranch elseBranch :: frames) stack
  | loopTest {Γ : Enclosure} {condition : Expr} {body : Stmt} {frames : List Frame}
    {stack : Suspended} : condition.Known S Γ none → body.KnownPlain S Γ →
    S.Awaits (.completion Γ) frames stack →
    S.Awaits (.value Γ none) (.loopTest condition body :: frames) stack
  | returning {Γ : Enclosure} {frames : List Frame} {stack : Suspended} :
    S.Awaits (.completion Γ) frames stack → S.Awaits (.value Γ none) (.returning :: frames) stack
  | superclass {Γ : Enclosure} {name parent : Token} {methods : List FunctionDeclaration}
    {frames : List Frame} {stack : Suspended} : name.IsName S.admits →
    FunctionDeclaration.AllKnown S
      (⟨.ancestry name methods, ["super"]⟩ :: Γ.declare name.lexeme) methods →
    S.Awaits (.completion (Γ.declare name.lexeme)) frames stack →
    S.Awaits (.value Γ none) (.superclass name parent methods :: frames) stack

theorem Setting.Awaits.mono {S S' : Setting} (hle : S.Le S') {awaited : Awaited}
    {frames : List Frame} {stack : Suspended} (h : S.Awaits awaited frames stack) :
    S'.Awaits awaited frames stack := by
  have hname : ∀ {t : Token}, t.IsName S.admits → t.IsName S'.admits :=
    fun ht => hle.admits ▸ ht
  have hplain : ∀ {Γ : Enclosure} {s : Stmt}, s.KnownPlain S Γ → s.KnownPlain S' Γ :=
    fun hs => ⟨hs.1.mono hle, hs.2⟩
  induction h with
  | program => exact .program
  | sequence hrest _ ih => exact .sequence (hrest.mono hle) ih
  | loopBody hc hbody _ ih => exact .loopBody (hc.mono hle) (hplain hbody) ih
  | block hchain _ ih => exact .block (hchain.mono hle) ih
  | call hchain _ ih => exact .call (hchain.mono hle) ih
  | unary _ ih => exact .unary ih
  | binaryLeft hright _ ih => exact .binaryLeft (hright.mono hle) ih
  | binaryRight _ ih => exact .binaryRight ih
  | logical hright _ ih => exact .logical (hright.mono hle) ih
  | assign hn hsite _ ih => exact .assign (hname hn) (hle.known _ hsite) ih
  | callee harguments _ ih => exact .callee (harguments.mono hle) ih
  | argument hcallee hbefore hrest _ ih =>
    exact .argument (hcallee.mono hle) (fun v hv => (hbefore v hv).mono hle) (hrest.mono hle) ih
  | get _ ih => exact .get ih
  | setObject hvalue _ ih => exact .setObject (hvalue.mono hle) ih
  | setValue _ ih => exact .setValue ih
  | construct horigin _ ih => exact .construct (horigin.mono hle) ih
  | discard _ ih => exact .discard ih
  | print _ ih => exact .print ih
  | define hn _ ih => exact .define (hname hn) ih
  | branch hthen helse _ ih =>
    exact .branch (hplain hthen) (fun s hs => hplain (helse s hs)) ih
  | loopTest hc hbody _ ih => exact .loopTest (hc.mono hle) (hplain hbody) ih
  | returning _ ih => exact .returning ih
  | superclass hn hmethods _ ih => exact .superclass (hname hn) (hmethods.mono hle) ih

/-! ## Exact scopes -/

/-- The innermost scopes of some chains bind declared names only, and each is older than those before
it, all being older than `bound`. -/
def Store.Exact (s : Store) : (bound : Nat) → Suspended → Prop
  | _, [] => True
  | bound, (layer :: _, id :: _) :: rest =>
    0 < id ∧ id < bound ∧ (∀ x, s.binds id x = true → x ∈ layer.names) ∧ s.Exact id rest
  | bound, _ :: rest => s.Exact bound rest

namespace Store.Exact
variable {s s' : Store} {bound : Nat} {stack : Suspended}

/-- Scopes that bind no new names stay exact. -/
theorem congr (h : s.Exact bound stack)
    (hbinds : ∀ id x, 0 < id → id < bound → s'.binds id x = true → s.binds id x = true) :
    s'.Exact bound stack := by
  induction stack generalizing bound with
  | nil => trivial
  | cons pair rest ih =>
    obtain ⟨Γ, chain⟩ := pair
    cases Γ with
    | nil => exact ih h hbinds
    | cons layer outer =>
      cases chain with
      | nil => exact ih h hbinds
      | cons id chain =>
        obtain ⟨hpos, hlt, hexact, hrest⟩ := h
        refine ⟨hpos, hlt, fun x hx => hexact x (hbinds id x hpos hlt hx), ih hrest ?_⟩
        exact fun id' x hpos' hlt' => hbinds id' x hpos' (Nat.lt_trans hlt' hlt)

theorem of_scopes (h : s.Exact s.scopes.size stack) (hs : s'.scopes = s.scopes) :
    s'.Exact s'.scopes.size stack := by
  rw [hs]
  refine h.congr fun id x _ _ hx => ?_
  simpa only [binds, scope, hs] using hx

theorem mono {bound' : Nat} (h : s.Exact bound stack) (hle : bound ≤ bound') :
    s.Exact bound' stack := by
  induction stack generalizing bound bound' with
  | nil => trivial
  | cons pair rest ih =>
    obtain ⟨Γ, chain⟩ := pair
    cases Γ with
    | nil => exact ih h hle
    | cons layer outer =>
      cases chain with
      | nil => exact ih h hle
      | cons id chain => exact ⟨h.1, Nat.lt_of_lt_of_le h.2.1 hle, h.2.2⟩

/-- What waits for the active chain is exact on its own. -/
theorem tail {pair : Enclosure × Chain} (h : s.Exact bound (pair :: stack)) :
    s.Exact bound stack := by
  obtain ⟨Γ, chain⟩ := pair
  cases Γ with
  | nil => exact h
  | cons layer outer =>
    cases chain with
    | nil => exact h
    | cons id chain => exact h.2.2.2.mono (Nat.le_of_lt h.2.1)

/-- The innermost scope binds declared names only. -/
theorem innermost {layer : Layer} {Γ : Enclosure} {chain : Chain} {id : ScopeId} {x : String}
    (h : s.Exact bound ((layer :: Γ, chain) :: stack)) (hid : chain[0]? = some id)
    (hx : s.binds id x = true) : x ∈ layer.names := by
  cases chain with
  | nil => cases hid
  | cons first chain =>
    cases hid
    exact h.2.2.1 x hx

theorem bind_bound {id : ScopeId} {x : String} {v : Value} (h : s.Exact bound stack)
    (hx : s.binds id x = true) : (s.bind id x v).Exact bound stack := by
  refine h.congr fun other y _ _ hy => ?_
  rcases (s.binds_bind id other x y v).mp hy with ⟨rfl, -, rfl⟩ | hold
  · exact hx
  · exact hold

theorem declare {Γ : Enclosure} {chain : Chain} {x : String} {v : Value}
    (h : s.Exact bound ((Γ, chain) :: stack)) (hglobal : Γ = [] → chain = .globals) :
    (s.define chain x v).Exact bound ((Γ.declare x, chain) :: stack) := by
  cases Γ with
  | nil =>
    obtain rfl := hglobal rfl
    have hrest : s.Exact bound stack := h
    refine hrest.congr fun id y hpos _ hy => ?_
    rcases (s.binds_bind 0 id x y v).mp hy with ⟨rfl, -, -⟩ | hold
    · exact absurd hpos (Nat.lt_irrefl 0)
    · exact hold
  | cons layer outer =>
    cases chain with
    | nil => exact h
    | cons id chain =>
      obtain ⟨hpos, hlt, hexact, hrest⟩ := h
      refine ⟨hpos, hlt, fun y hy => ?_, hrest.congr fun other y _ hother hy => ?_⟩
      · rcases (s.binds_bind id id x y v).mp hy with ⟨-, -, rfl⟩ | hold
        · exact List.mem_cons_self
        · exact List.mem_cons_of_mem _ (hexact y hold)
      · rcases (s.binds_bind id other x y v).mp hy with ⟨rfl, -, -⟩ | hold
        · exact absurd hother (Nat.lt_irrefl id)
        · exact hold

theorem newScope (h : s.Exact s.scopes.size stack) (bindings : Table Value) :
    (s.newScope bindings).2.Exact s.scopes.size stack :=
  h.congr fun _ x _ hlt hx => (binds_newScope_ne (Nat.ne_of_lt hlt) bindings x).symm.trans hx

theorem enter (h : s.Exact s.scopes.size stack) (hpos : 0 < s.scopes.size)
    (bindings : Table Value) (layer : Layer) (Γ : Enclosure) (outer : Chain)
    (hb : ∀ x, bindings.contains x = true → x ∈ layer.names) :
    (s.newScope bindings).2.Exact (s.newScope bindings).2.scopes.size
      ((layer :: Γ, s.scopes.size :: outer) :: stack) := by
  refine ⟨hpos, by simp, fun x hx => hb x ?_, h.newScope bindings⟩
  rw [← binds_newScope]
  exact hx

end Store.Exact

/-! ## Positions -/

namespace Setting

/-- The active chain belongs to an enclosure, and the frames wait there. -/
def Stands (S : Setting) (Γ : Enclosure) (awaited : Awaited) (chain : Chain)
    (frames : List Frame) : Prop :=
  S.Realizes Γ chain ∧ ∃ stack, S.Awaits awaited frames stack ∧
    S.store.Exact S.store.scopes.size ((Γ, chain) :: stack)

/-- What a machine does is a part of a program, and its active chain belongs there. On the way out
of a call the active chain is of no account, and after a fault the frames are neither. -/
def Places (S : Setting) (chain : Chain) (frames : List Frame) : Control → Prop
  | .eval e => ∃ Γ p, e.Known S Γ p ∧ S.Stands Γ (.value Γ p) chain frames
  | .exec s => ∃ Γ, s.Known S Γ ∧ S.Stands Γ (.completion (s.after Γ)) chain frames
  | .execAll body =>
    ∃ Γ, Stmt.AllKnown S Γ body ∧ S.Stands Γ (.completion (Stmt.afterAll Γ body)) chain frames
  | .value v => v.Valid S ∧ ∃ Γ p, S.Stands Γ (.value Γ p) chain frames
  | .done .normal => ∃ Γ, S.Stands Γ (.completion Γ) chain frames
  | .done (.returned v) => v.Valid S ∧ ∃ Γ stack, S.Awaits (.completion Γ) frames stack ∧
    S.store.Exact S.store.scopes.size stack
  | .fault _ => True

variable {S S' : Setting} {Γ : Enclosure} {awaited : Awaited} {chain : Chain} {frames : List Frame}

theorem Stands.mono (hle : S.Le S') (h : S.Stands Γ awaited chain frames)
    (hexact : ∀ stack, S.store.Exact S.store.scopes.size stack →
      S'.store.Exact S'.store.scopes.size stack) : S'.Stands Γ awaited chain frames := by
  obtain ⟨hchain, stack, hframes, hstack⟩ := h
  exact ⟨hchain.mono hle, stack, hframes.mono hle, hexact _ hstack⟩

/-- Other frames that wait on the same chain. -/
theorem Stands.reframe {awaited' : Awaited} {frames' : List Frame}
    (h : S.Stands Γ awaited chain frames)
    (hframes : ∀ stack, S.Awaits awaited frames stack → S.Awaits awaited' frames' stack) :
    S.Stands Γ awaited' chain frames' := by
  obtain ⟨hchain, stack, hwait, hstack⟩ := h
  exact ⟨hchain, stack, hframes stack hwait, hstack⟩

end Setting

end LoxLang
