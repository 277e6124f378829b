import LoxLang.Proofs.Scope.Calls

/-!
A step keeps a machine where the text has it. There is one lemma for each part of a step, by cases on
the statement or expression that is begun and on the frame that is resumed, and `step_leads` puts them
together.
-/
namespace LoxLang
set_option autoImplicit false

namespace Setting

/-! ## Declarations -/

section Declarations
variable {S : Setting} {m m' : Machine} {Γ : Enclosure} {frames : List Frame}

theorem le_define {t : Token} (ht : t.IsName S.admits) (chain : Chain) (v : Value) :
    S.Le (S.withStore (S.store.define chain t.lexeme v)) :=
  le_withStore (Store.grows_define S.store chain v fun hs => (hs t ht.1).not_reserved ht.2)

/-- A name is declared where the frames wait for its declaration. -/
theorem Stands.define {name : Token} (hname : name.IsName S.admits) {chain : Chain}
    (h : S.Stands Γ (.completion (Γ.declare name.lexeme)) chain frames) (v : Value) :
    (S.withStore (S.store.define chain name.lexeme v)).Stands (Γ.declare name.lexeme)
      (.completion (Γ.declare name.lexeme)) chain frames := by
  have hle := le_define hname chain v
  obtain ⟨hchain, stack, hframes, hexact⟩ := h
  have hstack := hexact.declare (x := name.lexeme) (v := v) fun hnil => by
    subst hnil
    exact hchain.globals_of_nil
  exact ⟨hchain.define hle, stack, hframes.mono hle, by simpa [withStore] using hstack⟩

/-- A declaration binds its name in the active scope; the value may refer to that binding. -/
theorem define_leads {w : World} (hstore : w.store = S.store)
    (hdistances : w.distances = m.world.distances) (hholds : S.Holds) {name : Token}
    (hname : name.IsName S.admits)
    (h : S.Stands Γ (.completion (Γ.declare name.lexeme)) w.chain frames) {v : Value}
    (hv : (S.withStore (S.store.define w.chain name.lexeme v)).Realizes (Γ.declare name.lexeme)
      w.chain → v.Valid (S.withStore (S.store.define w.chain name.lexeme v))) :
    S.Leads m (Machine.complete (w.define name.lexeme v) frames) := by
  have hle := le_define hname w.chain v
  have hstands := h.define hname v
  refine leads_withStore hle.grows (hholds.define hle (hv hstands.1)) ?_ hdistances ⟨_, hstands⟩
  simp [Machine.complete, withStore, hstore]

theorem declareFunction_leads {w : World} (hstore : w.store = S.store) (hholds : S.Holds)
    (hdistances : w.distances = m.world.distances) {declaration : FunctionDeclaration}
    (hknown : declaration.Known S (Γ.declare declaration.name.lexeme))
    (h : S.Stands Γ (.completion (Γ.declare declaration.name.lexeme)) w.chain frames) :
    S.Leads m (Machine.declareFunction w declaration frames) := by
  let closure : Closure := ⟨declaration, w.chain, false⟩
  have hidentity := le_withStore (S := S) (s := (S.store.newFunction closure).2) (.of_scopes rfl)
  have hstands := h.mono hidentity fun _ hstack => hstack.of_scopes rfl
  have hknown' := hknown.mono hidentity
  refine .of_le hidentity rfl (fun _ _ _ => .inl) (define_leads
    (S := S.withStore (S.store.newFunction closure).2) (w := (w.onStore (·.newFunction closure)).2)
    ?_ hdistances (hholds.of_eq rfl rfl) hknown'.name hstands fun hchain => ?_)
  · simp [withStore, hstore]
  · exact ⟨_, hchain, hknown'.mono (le_define hknown'.name _ _)⟩

/-- The methods of a class are those of its own declaration and those of the superclass. -/
theorem valid_declared {chain : Chain} (hchain : S.Realizes Γ chain)
    {methods : List FunctionDeclaration} (hmethods : FunctionDeclaration.AllKnown S Γ methods)
    {superclass : Option ClassObject} (hsuper : ∀ c ∈ superclass, c.Valid S) (id : Nat)
    (name : String) :
    ClassObject.Valid S ⟨id, name, superclass, Machine.methodTable chain methods⟩ := by
  have hown : ∀ x method, (Machine.methodTable chain methods).get? x = some method →
      method.ValidMethod S := by
    intro x method hget
    obtain ⟨d, hd, heq⟩ := List.mem_map.mp (Table.mem_of_get?_ofList hget)
    cases heq
    exact ⟨Γ, hchain, hmethods.of_mem hd⟩
  intro x method hget
  cases superclass with
  | none => exact hown x method hget
  | some parent =>
    unfold ClassObject.method? at hget
    split at hget
    · rename_i own hget'
      cases hget
      exact hown x method hget'
    · exact hsuper parent rfl x method hget

/-- A declared class takes the place of the provisional value of its name. -/
theorem redefine_leads {w : World} (hstore : w.store = S.store)
    (hdistances : w.distances = m.world.distances) (hholds : S.Holds) {name : Token}
    (hname : name.IsName S.admits) (h : S.Stands Γ (.completion Γ) w.chain frames)
    (hbound : ∀ id ∈ w.chain.head?, S.store.binds id name.lexeme = true) {v : Value}
    (hv : v.Valid S) : S.Leads m (Machine.complete (w.define name.lexeme v) frames) := by
  have hle := le_define hname w.chain v
  refine leads_withStore hle.grows (hholds.define hle (hv.mono hle)) ?_ hdistances
    ⟨Γ, h.mono hle fun stack hstack => ?_⟩
  · simp [Machine.complete, withStore, hstore]
  · cases hchain : w.chain with
    | nil => exact hstack
    | cons id outer =>
      have hbinds := hbound id (by rw [hchain]; rfl)
      simpa [withStore, Store.define] using hstack.bind_bound hbinds

theorem finishClass_leads {w : World} (hstore : w.store = S.store)
    (hdistances : w.distances = m.world.distances) (hholds : S.Holds) {name : Token}
    (hname : name.IsName S.admits) {outer : Chain}
    (h : S.Stands Γ (.completion Γ) outer frames)
    (hbound : ∀ id ∈ outer.head?, S.store.binds id name.lexeme = true) {shared : Enclosure}
    (hchain : S.Realizes shared w.chain) {methods : List FunctionDeclaration}
    (hmethods : FunctionDeclaration.AllKnown S shared methods) {superclass : Option ClassObject}
    (hsuper : ∀ c ∈ superclass, c.Valid S) :
    S.Leads m (Machine.complete (((w.onStore Store.newIdentity).2.withChain outer).define name.lexeme
      (.callable (.classObject ⟨(w.onStore Store.newIdentity).1, name.lexeme, superclass,
        Machine.methodTable w.chain methods⟩))) frames) := by
  have hle := le_withStore (S := S) (s := S.store.newIdentity.2) (.of_scopes rfl)
  have hstands := h.mono hle fun _ hstack => hstack.of_scopes rfl
  have hvalid := valid_declared (hchain.mono hle) (hmethods.mono hle)
    (fun c hc => (hsuper c hc).mono hle) (w.onStore Store.newIdentity).1 name.lexeme
  refine .of_le hle rfl (fun _ _ _ => .inl) (redefine_leads (S := S.withStore S.store.newIdentity.2)
    (w := (w.onStore Store.newIdentity).2.withChain outer) ?_ hdistances (hholds.of_eq rfl rfl) hname
    hstands (fun id hid => ?_) (v := .callable (.classObject _)) hvalid)
  · simp [withStore, hstore]
  · exact hbound id hid

theorem declareClass_leads {w : World} (hstore : w.store = S.store)
    (hdistances : w.distances = m.world.distances) (hholds : S.Holds) {name : Token}
    (hname : name.IsName S.admits)
    (h : S.Stands Γ (.completion (Γ.declare name.lexeme)) w.chain frames)
    {superclass : Option ClassObject} (hsuper : ∀ c ∈ superclass, c.Valid S)
    {methods : List FunctionDeclaration}
    (hmethods : FunctionDeclaration.AllKnown S (superclass.elim (Γ.declare name.lexeme) fun _ =>
      ⟨.ancestry name methods, ["super"]⟩ :: Γ.declare name.lexeme) methods)
    (hopens : ∀ c ∈ superclass,
      m.Opens (.inheritance name methods c) w.store.scopes.size w.chain) :
    S.Leads m (Machine.declareClass w name superclass methods frames) := by
  -- The name is bound to nil before the methods are made, so that they close over its binding.
  let named := S.withStore (S.store.define w.chain name.lexeme .nil)
  have hle : S.Le named := le_define hname w.chain .nil
  have hheld : named.Holds := hholds.define hle trivial
  have hstands : named.Stands (Γ.declare name.lexeme) (.completion (Γ.declare name.lexeme)) w.chain
      frames := h.define hname .nil
  have hbound : ∀ id ∈ w.chain.head?, named.store.binds id name.lexeme = true := by
    intro id hid
    obtain ⟨first, outer, hchain, hlt⟩ := h.1.head_lt hholds.globals
    simp only [hchain, List.head?_cons, Option.mem_some_iff] at hid
    subst hid
    simp only [named, withStore, hchain, Store.define]
    exact (Store.binds_bind _ _ _ _ _ _).mpr (.inl ⟨rfl, hlt, rfl⟩)
  unfold Machine.declareClass
  cases superclass with
  | none =>
    exact .of_le hle rfl (fun _ _ _ => .inl) (finishClass_leads (S := named)
      (w := w.define name.lexeme .nil) (by simp [named, withStore, hstore]) hdistances hheld hname
      hstands hbound hstands.1 (hmethods.mono hle) fun _ hc => absurd hc (Option.not_mem_none _))
  | some parent =>
    -- The scope of `super` is in the chains of the methods only; the active chain never gets it.
    let bindings := (Table.empty : Table Value).insert "super" (.callable (.classObject parent))
    have hparent := (hsuper parent rfl).mono hle
    have hopening := named.le_opening (.inheritance name methods parent) w.chain bindings
    have hshared : (named.opening (.inheritance name methods parent) w.chain bindings).Realizes
        (⟨.ancestry name methods, ["super"]⟩ :: _) _ := hstands.1.opening_single rfl rfl
    have hheld' : (named.opening (.inheritance name methods parent) w.chain bindings).Holds :=
      hheld.opening_single _ _ hparent
    have hopened : m.Opens (.inheritance name methods parent) named.store.scopes.size w.chain := by
      simpa [named, withStore, ← hstore] using hopens parent rfl
    let opened := (w.define name.lexeme .nil).enterScope w.chain bindings
    refine .of_le (hle.trans hopening) rfl (opened_opening hopened) (finishClass_leads (w := opened)
      ?_ hdistances hheld' hname (hstands.mono hopening fun _ => exact_opening)
      (fun id hid => hopening.grows.binds _ _ (hbound id hid)) ?_
      ((hmethods.mono hle).mono hopening) fun c hc => ?_)
    · simp [opened, named, opening, withStore, hstore]
    · simpa [opened, named, withStore, hstore] using hshared
    · cases hc
      exact ClassObject.Valid.mono hopening hparent

end Declarations

/-! ## Steps -/

section Steps
variable {S : Setting} {w : World} {frames : List Frame} {Γ : Enclosure}

theorem stepEval_leads (hstore : w.store = S.store) (hholds : S.Holds) {p : Option String} {e : Expr}
    (he : e.Known S Γ p) (h : S.Stands Γ (.value Γ p) w.chain frames) :
    S.Leads ⟨w, .eval e, frames⟩ (Machine.stepEval w frames e) := by
  cases e with
  | literal value =>
    exact leads_same hholds hstore rfl (places_value (Value.plain_ofLiteral value).valid h)
  | unary operator operand =>
    exact leads_same hholds hstore rfl ⟨Γ, p, ⟨he.1.2, he.2⟩, h.reframe fun _ => .unary⟩
  | binary left operator right =>
    obtain ⟨hleft, hright⟩ := List.forall_mem_append.mp he.2
    exact leads_same hholds hstore rfl
      ⟨Γ, p, ⟨he.1.2.1, hleft⟩, h.reframe fun _ => .binaryLeft ⟨he.1.2.2, hright⟩⟩
  | logical left operator right =>
    obtain ⟨hleft, hright⟩ := List.forall_mem_append.mp he.2
    exact leads_same hholds hstore rfl
      ⟨Γ, p, ⟨he.1.2.1, hleft⟩, h.reframe fun _ => .logical ⟨he.1.2.2, hright⟩⟩
  | grouping inner => exact leads_same hholds hstore rfl ⟨Γ, p, he, h⟩
  | «variable» target =>
    exact read_leads (m := ⟨w, .eval (.variable target), frames⟩) hstore hholds h target
  | assign target value =>
    obtain ⟨hvalue, hsite⟩ := List.forall_mem_append.mp he.2
    exact leads_same hholds hstore rfl ⟨Γ, p, ⟨he.1.2, hvalue⟩,
      h.reframe fun _ => .assign he.1.1 (hsite _ List.mem_cons_self)⟩
  | call callee paren arguments =>
    obtain ⟨hcallee, harguments⟩ := List.forall_mem_append.mp he.2
    exact leads_same hholds hstore rfl
      ⟨Γ, p, ⟨he.1.1, hcallee⟩, h.reframe fun _ => .callee ⟨he.1.2, harguments⟩⟩
  | get object name =>
    exact leads_same hholds hstore rfl ⟨Γ, p, ⟨he.1.1, he.2⟩, h.reframe fun _ => .get⟩
  | set object name value =>
    obtain ⟨hvalue, hobject⟩ := List.forall_mem_append.mp he.2
    exact leads_same hholds hstore rfl
      ⟨Γ, p, ⟨he.1.1, hobject⟩, h.reframe fun _ => .setObject ⟨he.1.2.2, hvalue⟩⟩
  | thisObject keyword =>
    exact read_leads (m := ⟨w, .eval (.thisObject keyword), frames⟩) hstore hholds h keyword
  | superMethod keyword method => exact readSuper_leads hstore hholds h

theorem stepExec_leads (hstore : w.store = S.store) (hholds : S.Holds) {s : Stmt}
    (hs : s.Known S Γ) (h : S.Stands Γ (.completion (s.after Γ)) w.chain frames) :
    S.Leads ⟨w, .exec s, frames⟩ (Machine.stepExec w frames s) := by
  cases s with
  | expression value =>
    exact leads_same hholds hstore rfl ⟨Γ, none, hs, h.reframe fun _ => .discard⟩
  | print keyword value =>
    exact leads_same hholds hstore rfl ⟨Γ, none, hs, h.reframe fun _ => .print⟩
  | «variable» name initializer =>
    cases initializer with
    | none => exact define_leads hstore rfl hholds hs.1.1 h fun _ => trivial
    | some e =>
      exact leads_same hholds hstore rfl
        ⟨Γ, Γ.pending name.lexeme, ⟨hs.1.2, hs.2⟩, h.reframe fun _ => .define hs.1.1⟩
  | block body =>
    obtain ⟨hchain, stack, hframes, hexact⟩ := h
    have hopens : Machine.Opens ⟨w, .exec (.block body), frames⟩ (.block body)
        S.store.scopes.size w.chain := hstore ▸ .block w frames body
    have hle := S.le_opening (.block body) w.chain .empty
    have hempty : ∀ x (v : Value), Table.empty.get? x = some v → v.Valid S :=
      fun _ _ hv => absurd hv.symm (Option.some_ne_none _)
    have hunnamed : ∀ x ∈ ([] : List String), (Table.empty : Table Value).contains x = true :=
      fun _ hx => absurd hx List.not_mem_nil
    have hunbound : ∀ x, (Table.empty : Table Value).contains x = true → x ∈ ([] : List String) :=
      fun _ hx => absurd hx Bool.false_ne_true
    refine ⟨S.opening (.block body) w.chain .empty, hle, rfl, opened_opening hopens, ?_, rfl,
      hholds.opening _ _ _ hempty, ?_⟩
    · simp [Machine.stepExec, opening, hstore]
    · refine ⟨⟨.block body, []⟩ :: Γ, Stmt.AllKnown.mono hle hs, ?_, _,
        .block (hchain.mono hle) (hframes.mono hle), ?_⟩
      · have hentered := hchain.opening (.block body) ⟨.block body, []⟩ .empty rfl hunnamed trivial
        simpa [Machine.stepExec, hstore] using hentered
      · have hentered := hexact.enter hholds.globals .empty ⟨.block body, []⟩ Γ w.chain hunbound
        simpa [Machine.stepExec, opening, hstore] using hentered
  | conditional condition thenBranch elseBranch =>
    cases elseBranch with
    | none =>
      obtain ⟨hcondition, hthen⟩ := List.forall_mem_append.mp hs.2
      have hnone : ∀ s ∈ (none : Option Stmt), s.KnownPlain S Γ :=
        fun _ hs => absurd hs (Option.not_mem_none _)
      exact leads_same hholds hstore rfl ⟨Γ, none, ⟨hs.1.1, hcondition⟩,
        h.reframe fun _ => .branch ⟨⟨hs.1.2.2, hthen⟩, hs.1.2.1⟩ hnone⟩
    | some elseBranch =>
      obtain ⟨hboth, helse⟩ := List.forall_mem_append.mp hs.2
      obtain ⟨hcondition, hthen⟩ := List.forall_mem_append.mp hboth
      refine leads_same hholds hstore rfl ⟨Γ, none, ⟨hs.1.1, hcondition⟩,
        h.reframe fun _ => .branch ⟨⟨hs.1.2.1.2, hthen⟩, hs.1.2.1.1⟩ ?_⟩
      rintro _ ⟨⟩
      exact ⟨⟨hs.1.2.2.2, helse⟩, hs.1.2.2.1⟩
  | loop condition body =>
    obtain ⟨hcondition, hbody⟩ := List.forall_mem_append.mp hs.2
    have hcondition : condition.Known S Γ none := ⟨hs.1.1, hcondition⟩
    exact leads_same hholds hstore rfl ⟨Γ, none, hcondition,
      h.reframe fun _ => .loopTest hcondition ⟨⟨hs.1.2.2, hbody⟩, hs.1.2.1⟩⟩
  | function declaration => exact declareFunction_leads hstore hholds rfl hs h
  | returnWith keyword value =>
    cases value with
    | none =>
      obtain ⟨hchain, stack, hframes, hexact⟩ := h
      exact leads_same hholds hstore rfl ⟨trivial, Γ, stack, hframes, hexact.tail⟩
    | some e => exact leads_same hholds hstore rfl ⟨Γ, none, hs, h.reframe fun _ => .returning⟩
  | classDeclaration name superclass methods =>
    obtain ⟨hparent, hmethods⟩ := List.forall_mem_append.mp hs.2
    cases superclass with
    | none =>
      have hnone : ∀ {holds : ClassObject → Prop}, ∀ c ∈ (none : Option ClassObject), holds c :=
        fun _ hc => absurd hc (Option.not_mem_none _)
      exact declareClass_leads hstore rfl hholds hs.1.1 h hnone ⟨hs.1.2.2, hmethods⟩ hnone
    | some parent =>
      have hknown : parent.Known S Γ none := ⟨(hs.1.2.1 parent rfl).wellFormed, hparent⟩
      exact leads_same hholds hstore rfl
        ⟨Γ, none, hknown, h.reframe fun _ => .superclass hs.1.1 ⟨hs.1.2.2, hmethods⟩⟩

theorem stepValue_leads (hstore : w.store = S.store) (hholds : S.Holds) {p : Option String}
    {v : Value} (hv : v.Valid S) {frame : Frame}
    (h : S.Stands Γ (.value Γ p) w.chain (frame :: frames)) :
    S.Leads ⟨w, .value v, frame :: frames⟩ (Machine.stepValue w v frames frame) := by
  obtain ⟨hchain, stack, hframes, hexact⟩ := h
  have hstands : ∀ {awaited : Awaited}, S.Awaits awaited frames stack →
      S.Stands Γ awaited w.chain frames := fun hrest => ⟨hchain, stack, hrest, hexact⟩
  cases hframes with
  | unary hrest =>
    exact settle_leads (m := ⟨w, .value v, _⟩) hstore hholds (hstands hrest) fun _ hv =>
      (plain_applyUnary hv).valid
  | binaryLeft hright hrest =>
    exact leads_same hholds hstore rfl ⟨Γ, p, hright, (hstands hrest).reframe fun _ => .binaryRight⟩
  | binaryRight hrest =>
    exact settle_leads (m := ⟨w, .value v, _⟩) hstore hholds (hstands hrest) fun _ hv =>
      (plain_applyBinary hv).valid
  | logical hright hrest =>
    simp only [Machine.stepValue]
    split
    · exact leads_same hholds hstore rfl (places_value hv (hstands hrest))
    · exact leads_same hholds hstore rfl ⟨Γ, p, hright, hstands hrest⟩
  | @assign _ _ target _ _ hname _ hrest =>
    exact write_leads (m := ⟨w, .value v, .assign target :: frames⟩) hstore hholds (hstands hrest)
      hname hv
  | callee harguments hrest =>
    have hnone : ∀ u ∈ ([] : List Value), u.Valid S := fun u hu => absurd hu List.not_mem_nil
    exact evalArguments_leads (m := ⟨w, .value v, _⟩) hstore hholds (hstands hrest) hv hnone
      harguments rfl
  | argument hcallee hbefore harguments hrest =>
    refine evalArguments_leads (m := ⟨w, .value v, _⟩) hstore hholds (hstands hrest) hcallee ?_
      harguments rfl
    exact List.forall_mem_append.mpr ⟨hbefore, List.forall_mem_singleton.mpr hv⟩
  | get hrest => exact readProperty_leads hstore hholds hv (hstands hrest)
  | setObject hvalue hrest =>
    simp only [Machine.stepValue]
    split
    · exact leads_same hholds hstore rfl
        ⟨Γ, p, hvalue, (hstands hrest).reframe fun _ => .setValue⟩
    · exact leads_same hholds hstore rfl trivial
  | @setValue _ _ object name _ _ hrest =>
    have hle := le_withStore (S := S) (s := S.store.setField object name.lexeme v) (.of_scopes rfl)
    refine leads_withStore hle.grows (hholds.setField object name.lexeme hv) ?_ rfl
      (places_value (hv.mono hle) ((hstands hrest).mono hle fun _ hstack => hstack.of_scopes rfl))
    simp [Machine.stepValue, withStore, hstore]
  | construct hobject hrest =>
    exact leads_same hholds hstore rfl (places_value (v := .object _) hobject (hstands hrest))
  | discard hrest => exact leads_same hholds hstore rfl ⟨Γ, hstands hrest⟩
  | print hrest =>
    simp only [Machine.stepValue]
    split
    · exact leads_same hholds hstore rfl trivial
    · exact leads_same hholds hstore rfl ⟨Γ, hstands hrest⟩
  | define hname hrest =>
    exact define_leads hstore rfl hholds hname (hstands hrest) fun _ => hv.mono (le_define hname _ _)
  | @branch _ thenBranch elseBranch _ _ hthen helse hrest =>
    have hplain : ∀ {s : Stmt}, s.KnownPlain S Γ →
        S.Leads ⟨w, .value v, .branch thenBranch elseBranch :: frames⟩ ⟨w, .exec s, frames⟩ :=
      fun hs =>
      leads_same hholds hstore rfl
        ⟨Γ, hs.1, by rw [Stmt.after_of_isDeclaration Γ hs.2]; exact hstands hrest⟩
    simp only [Machine.stepValue]
    split
    · exact hplain hthen
    · split
      · exact hplain (helse _ rfl)
      · exact leads_same hholds hstore rfl ⟨Γ, hstands hrest⟩
  | loopTest hcondition hbody hrest =>
    simp only [Machine.stepValue]
    split
    · refine leads_same hholds hstore rfl ⟨Γ, hbody.1, ?_⟩
      rw [Stmt.after_of_isDeclaration Γ hbody.2]
      exact (hstands hrest).reframe fun _ => .loopBody hcondition hbody
    · exact leads_same hholds hstore rfl ⟨Γ, hstands hrest⟩
  | returning hrest => exact leads_same hholds hstore rfl ⟨hv, Γ, stack, hrest, hexact.tail⟩
  | @superclass _ name parent methods _ _ hname hmethods hrest =>
    simp only [Machine.stepValue]
    split
    · rename_i superclass
      refine declareClass_leads hstore rfl hholds hname (hstands hrest) (fun c hc => ?_) hmethods
        fun c hc => ?_
      · cases hc
        exact hv
      · cases hc
        exact .inheritance w frames name parent methods superclass
    · exact leads_same hholds hstore rfl trivial

theorem stepDone_leads (hstore : w.store = S.store) (hholds : S.Holds) {completion : Completion}
    {frame : Frame} (h : S.Places w.chain (frame :: frames) (.done completion)) :
    S.Leads ⟨w, .done completion, frame :: frames⟩ (Machine.stepDone w completion frames frame) := by
  cases completion with
  | normal =>
    obtain ⟨Γ, hchain, stack, hframes, hexact⟩ := h
    cases hframes with
    | sequence hknown hrest =>
      exact leads_same hholds hstore rfl ⟨Γ, hknown, hchain, stack, hrest, hexact⟩
    | loopBody hcondition hbody hrest =>
      exact leads_same hholds hstore rfl
        ⟨Γ, none, hcondition, hchain, stack, .loopTest hcondition hbody hrest, hexact⟩
    | block houter hrest =>
      exact leads_same hholds hstore rfl ⟨_, houter, _, hrest, hexact.tail⟩
    | @call _ _ _ caller closure _ _ houter hrest =>
      have hcall : S.Awaits (.completion Γ) (.call caller closure :: frames) _ := .call houter hrest
      exact finishCall_leads hstore hholds nofun hcall hexact.tail
  | returned v =>
    obtain ⟨hv, Γ, stack, hframes, hexact⟩ := h
    cases hframes with
    | sequence hknown hrest => exact leads_same hholds hstore rfl ⟨hv, _, stack, hrest, hexact⟩
    | loopBody hcondition hbody hrest =>
      exact leads_same hholds hstore rfl ⟨hv, Γ, stack, hrest, hexact⟩
    | block houter hrest => exact leads_same hholds hstore rfl ⟨hv, _, _, hrest, hexact.tail⟩
    | @call _ _ _ caller closure _ _ houter hrest =>
      have hcall : S.Awaits (.completion Γ) (.call caller closure :: frames) _ := .call houter hrest
      refine finishCall_leads hstore hholds ?_ hcall hexact
      rintro _ ⟨⟩
      exact hv

/-- A step leads from a setting to one that has grown by what the step opens. -/
theorem step_leads {m : Machine} (hm : m.Sound S) : S.Leads m m.step := by
  obtain ⟨w, c, frames⟩ := m
  obtain ⟨hstore, -, hholds, hplaced⟩ := hm
  cases c with
  | eval e =>
    obtain ⟨Γ, p, he, h⟩ := hplaced
    exact stepEval_leads hstore hholds he h
  | exec s =>
    obtain ⟨Γ, hs, h⟩ := hplaced
    exact stepExec_leads hstore hholds hs h
  | execAll body =>
    obtain ⟨Γ, hbody, h⟩ := hplaced
    cases body with
    | nil => exact leads_same hholds hstore rfl ⟨Γ, h⟩
    | cons s rest =>
      obtain ⟨hs, hrest⟩ := hbody.cons
      exact leads_same hholds hstore rfl ⟨Γ, hs, h.reframe fun _ => .sequence hrest⟩
  | value v =>
    obtain ⟨hv, Γ, p, h⟩ := hplaced
    cases frames with
    | nil => exact leads_same hholds hstore rfl ⟨hv, Γ, p, h⟩
    | cons frame frames => exact stepValue_leads hstore hholds hv h
  | done completion =>
    cases frames with
    | nil => exact leads_same hholds hstore rfl hplaced
    | cons frame frames => exact stepDone_leads hstore hholds hplaced
  | fault f =>
    cases frames with
    | nil => exact leads_same hholds hstore rfl trivial
    | cons frame frames => cases frame <;> exact leads_same hholds hstore rfl trivial

end Steps

end Setting

end LoxLang
