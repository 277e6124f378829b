import LoxLang.Proofs.Machine.Restoration
import LoxLang.Proofs.Machine.Scopes
import LoxLang.Proofs.Machine.Sequencing
import LoxLang.Proofs.Machine.Sorts
import LoxLang.Proofs.Syntax.Parts

/-!
Nothing leaks out of a scope. A step gives a scope that there was a new name only where it declares
that name, and the scope is then the active one (`move_gains`). Code that declares nothing in its own
scope declares names in scopes only that are opened on the way, and the frames see to it that the scope
in which it stands is active again where it goes on (`Machine.Spares`). `names_kept` says what that
comes to for expressions, statements and declarations.
-/
namespace LoxLang
set_option autoImplicit false

/-! ## Names that a store gains -/

namespace Store

/-- One store comes from another: it has the names of that one and, in the scopes of that one, no
others but some extra ones. -/
structure Gains (extra : ScopeId → String → Prop) (s s' : Store) : Prop where
  grows : Grows False s s'
  names : ∀ id < s.scopes.size, ∀ x, s'.binds id x = true → s.binds id x = true ∨ extra id x

/-- A name in the innermost scope of a chain. -/
def declared (chain : Chain) (name : String) (id : ScopeId) (x : String) : Prop :=
  chain.head? = some id ∧ x = name

variable {extra extra' : ScopeId → String → Prop} {s s' s'' : Store}

theorem binds_of_scopes (h : s'.scopes = s.scopes) (id : ScopeId) (x : String) :
    s'.binds id x = s.binds id x := by
  unfold binds scope
  rw [h]

theorem Gains.of_scopes (h : s'.scopes = s.scopes) : Gains extra s s' := by
  refine ⟨.of_scopes h, fun id _ x hx => .inl ?_⟩
  rwa [binds_of_scopes h] at hx

theorem Gains.mono (h : Gains extra s s') (hsub : ∀ id x, extra id x → extra' id x) :
    Gains extra' s s' :=
  ⟨h.grows, fun id hid x hx => (h.names id hid x hx).imp_right (hsub id x)⟩

theorem Gains.trans (h1 : Gains extra s s') (h2 : Gains extra s' s'') : Gains extra s s'' := by
  refine ⟨h1.grows.trans h2.grows, fun id hid x hx => ?_⟩
  rcases h2.names id (Nat.lt_of_lt_of_le hid h1.grows.size) x hx with hold | hextra
  · exact h1.names id hid x hold
  · exact .inr hextra

theorem gains_bind {id : ScopeId} {name : String} (h : s.binds id name = true) (v : Value) :
    Gains extra s (s.bind id name v) := by
  refine ⟨grows_bind s id v False.elim, fun other _ x hx => .inl ?_⟩
  rcases (binds_bind s id other name x v).mp hx with ⟨rfl, -, rfl⟩ | hold
  · exact h
  · exact hold

theorem gains_define (s : Store) (chain : Chain) (name : String) (v : Value) :
    Gains (declared chain name) s (s.define chain name v) := by
  refine ⟨grows_define s chain v False.elim, fun id _ x hx => ?_⟩
  rcases (binds_define s chain id name x v).mp hx with ⟨hhead, -, rfl⟩ | hold
  · exact .inr ⟨hhead, rfl⟩
  · exact .inl hold

/-- A name that is declared at last, whether it was declared before or not. -/
theorem binds_declared {chain : Chain} {name : String} (h : Gains (declared chain name) s s')
    (v : Value) {id : ScopeId} (hid : id < s.scopes.size) (x : String) :
    (s'.define chain name v).binds id x = true ↔
      s.binds id x = true ∨ declared chain name id x := by
  rw [binds_define]
  constructor
  · rintro (⟨hhead, -, rfl⟩ | hold)
    · exact .inr ⟨hhead, rfl⟩
    · exact h.names id hid x hold
  · rintro (hold | ⟨hhead, rfl⟩)
    · exact .inr (h.grows.binds id x hold)
    · exact .inl ⟨hhead, Nat.lt_of_lt_of_le hid h.grows.size, rfl⟩

theorem gains_newScope (s : Store) (bindings : Table Value) :
    Gains extra s (s.newScope bindings).2 := by
  refine ⟨grows_newScope s bindings, fun id hid x hx => .inl ?_⟩
  rwa [binds_newScope_ne (Nat.ne_of_lt hid)] at hx

theorem gains_bindMethod (s : Store) (method : Closure) (object : ObjectRef) :
    Gains extra s (s.bindMethod method object).2 :=
  gains_newScope s _

theorem gains_newMethod (s : Store) (method : Closure) (object : ObjectRef) :
    Gains extra s (s.newMethod method object).2 :=
  (gains_bindMethod s method object).trans (.of_scopes rfl)

/-- The scopes of a store have the same names in another one. -/
def SameNames (s s' : Store) : Prop :=
  ∀ id < s.scopes.size, ∀ x, s'.binds id x = s.binds id x

theorem Gains.sameNames (h : Gains extra s s')
    (hextra : ∀ id < s.scopes.size, ∀ x, ¬ extra id x) : SameNames s s' := by
  intro id hid x
  rw [Bool.eq_iff_iff]
  refine ⟨fun hx => ?_, h.grows.binds id x⟩
  exact (h.names id hid x hx).resolve_right (hextra id hid x)

end Store

/-! ## Steps that declare -/

namespace Machine

/-- The next step declares a name in the active scope. -/
inductive Declares : Machine → String → Prop
  | variable (w : World) (name : Token) (frames : List Frame) :
    Declares ⟨w, .exec (.variable name none), frames⟩ name.lexeme
  | initialized (w : World) (name : Token) (v : Value) (frames : List Frame) :
    Declares ⟨w, .value v, .define name :: frames⟩ name.lexeme
  | function (w : World) (declaration : FunctionDeclaration) (frames : List Frame) :
    Declares ⟨w, .exec (.function declaration), frames⟩ declaration.name.lexeme
  | root (w : World) (name : Token) (methods : List FunctionDeclaration) (frames : List Frame) :
    Declares ⟨w, .exec (.classDeclaration name none methods), frames⟩ name.lexeme
  | heir (w : World) (name parent : Token) (methods : List FunctionDeclaration)
    (superclass : ClassObject) (frames : List Frame) :
    Declares ⟨w, .value (.callable (.classObject superclass)),
      .superclass name parent methods :: frames⟩ name.lexeme

/-- A declaration has been completed in a world: a name stands in the active scope, and nothing else
is new in the scopes that there were. -/
def Declared (w : World) (name : String) (frames : List Frame) (m : Machine) : Prop :=
  ∃ s v, w.store.Gains (Store.declared w.chain name) s ∧
    m = ⟨{ w with store := s.define w.chain name v }, .done .normal, frames⟩

theorem Declared.gains {w : World} {name : String} {frames : List Frame} {m : Machine}
    (h : Declared w name frames m) :
    w.store.Gains (Store.declared w.chain name) m.world.store := by
  obtain ⟨s, v, hgains, rfl⟩ := h
  exact hgains.trans (s.gains_define w.chain name v)

theorem Declared.yieldsTo {w : World} {name : String} {frames : List Frame} {m : Machine}
    (h : Declared w name frames m) : m.YieldsTo frames := by
  obtain ⟨s, v, -, rfl⟩ := h
  exact ⟨rfl, rfl⟩

theorem declared_define (w : World) (name : String) (v : Value) (frames : List Frame) :
    Declared w name frames ⟨w.define name v, .done .normal, frames⟩ :=
  ⟨w.store, v, .of_scopes rfl, rfl⟩

theorem declared_function (w : World) (declaration : FunctionDeclaration) (frames : List Frame) :
    Declared w declaration.name.lexeme frames (declareFunction w declaration frames) :=
  ⟨(w.store.newFunction ⟨declaration, w.chain, false⟩).2, _, .of_scopes rfl, rfl⟩

theorem declared_class (w : World) (name : Token) (superclass : Option ClassObject)
    (methods : List FunctionDeclaration) (frames : List Frame) :
    Declared w name.lexeme frames (declareClass w name superclass methods frames) := by
  have hnil := w.store.gains_define w.chain name.lexeme .nil
  cases superclass with
  | none =>
    exact ⟨(w.store.define w.chain name.lexeme .nil).newIdentity.2, _,
      hnil.trans (.of_scopes rfl), rfl⟩
  | some parent =>
    let bindings := Table.empty.insert "super" (Value.callable (.classObject parent))
    have hscope := hnil.trans (Store.gains_newScope _ bindings)
    exact ⟨((w.store.define w.chain name.lexeme .nil).newScope bindings).2.newIdentity.2, _,
      hscope.trans (.of_scopes rfl), rfl⟩

theorem gains_enterBody {extra : ScopeId → String → Prop} (w : World) (closure : Closure)
    (arguments : List Value) (frames : List Frame) :
    w.store.Gains extra (enterBody w closure arguments frames).world.store :=
  w.store.gains_newScope _

theorem gains_enterInitializer {extra : ScopeId → String → Prop} (w : World) (origin : ClassObject)
    (method : Closure) (arguments : List Value) (frames : List Frame) :
    w.store.Gains extra (enterInitializer w origin method arguments frames).world.store := by
  have hmade : w.store.Gains extra (w.store.newObject origin).2 := .of_scopes rfl
  have hbound := hmade.trans (Store.gains_bindMethod _ method (w.store.newObject origin).1)
  exact hbound.trans (Store.gains_newScope _ _)

/-- A scope that there was has a new name only if the step declares it there. -/
theorem move_gains {m m' : Machine} (h : Move m m') :
    m.world.store.Gains (fun id x => m.world.chain.head? = some id ∧ m.Declares x)
      m'.world.store := by
  have hdeclared : ∀ {w : World} {c : Control} {name : String} {frames more : List Frame}
      {m' : Machine}, Declares ⟨w, c, frames⟩ name → Declared w name more m' →
      w.store.Gains (fun id x => w.chain.head? = some id ∧ Declares ⟨w, c, frames⟩ x)
        m'.world.store := by
    intro w c name frames more m' hname h
    refine h.gains.mono ?_
    rintro id x ⟨hhead, rfl⟩
    exact ⟨hhead, hname⟩
  cases h with
  | writes hid => exact Store.gains_bind (World.binds_of_binder? hid) _
  | @method w object name method => exact w.store.gains_newMethod method object
  | @super w keyword name superclass object method =>
    exact w.store.gains_newMethod method object
  | declares w name frames => exact hdeclared (.variable ..) (declared_define ..)
  | defines w name v frames => exact hdeclared (.initialized ..) (declared_define ..)
  | function w declaration frames => exact hdeclared (.function ..) (declared_function ..)
  | root w name methods frames => exact hdeclared (.root ..) (declared_class ..)
  | inherits w name parent methods superclass frames =>
    exact hdeclared (.heir ..) (declared_class ..)
  | enters => exact Store.gains_newScope _ _
  | calls => exact gains_enterBody _ _ _ _
  | initializes => exact gains_enterInitializer _ _ _ _ _
  | unwinds w f frame frames => cases frame <;> exact .of_scopes rfl
  | _ => exact .of_scopes rfl

/-- Names are never taken away. -/
theorem grows_run (m : Machine) (n : Nat) : m.world.store.Grows False (run n m).world.store := by
  refine run_preserves (P := fun m' => m.world.store.Grows False m'.world.store)
    (fun _ hactive h => ?_) (.of_scopes rfl) n
  exact h.trans (move_gains (move_step hactive)).grows

end Machine

/-! ## Code that declares nothing in its own scope -/

/-- A statement declares no name in the scope in which it stands. -/
def Stmt.Quiet : Stmt → Prop
  | .variable _ _ => False
  | .function _ => False
  | .classDeclaration _ _ _ => False
  | .conditional _ thenBranch none => thenBranch.Quiet
  | .conditional _ thenBranch (some elseBranch) => thenBranch.Quiet ∧ elseBranch.Quiet
  | .loop _ body => body.Quiet
  | _ => True

/-- A well-formed statement that is no declaration has none under its conditions and loops either. -/
theorem Stmt.quiet_of_wellFormed {admits : Token → Prop} (s : Stmt) (h : s.WellFormed admits)
    (hplain : s.isDeclaration = false) : s.Quiet := by
  cases s with
  | «variable» name initializer => cases hplain
  | function declaration => cases hplain
  | classDeclaration name superclass methods => cases hplain
  | conditional condition thenBranch elseBranch =>
    cases elseBranch with
    | none => exact thenBranch.quiet_of_wellFormed h.2.2 h.2.1
    | some elseBranch =>
      exact ⟨thenBranch.quiet_of_wellFormed h.2.1.2 h.2.1.1,
        elseBranch.quiet_of_wellFormed h.2.2.2 h.2.2.1⟩
  | loop condition body => exact body.quiet_of_wellFormed h.2.2 h.2.1
  | _ => trivial

/-- A frame goes on with nothing that declares a name in the active scope. -/
def Frame.Quiet : Frame → Prop
  | .define _ => False
  | .superclass _ _ _ => False
  | .branch thenBranch elseBranch => thenBranch.Quiet ∧ ∀ s ∈ elseBranch, s.Quiet
  | .loopTest _ body => body.Quiet
  | .loopBody _ body => body.Quiet
  | .sequence rest => ∀ s ∈ rest, s.Quiet
  | _ => True

/-- What is done next declares no name in the active scope. -/
def Control.Quiet : Control → Prop
  | .exec s => s.Quiet
  | .execAll body => ∀ s ∈ body, s.Quiet
  | _ => True

/-- The innermost scope of a chain is none of the first `bound` ones. -/
def Chain.Beyond (bound : ScopeId) (chain : Chain) : Prop :=
  ∀ id, chain.head? = some id → bound ≤ id

/-- Some frames, from a context on, declare names only beyond the first `bound` scopes. -/
def Frame.AllSpare (bound : ScopeId) : List Frame → Chain × Nat → Prop
  | [], _ => True
  | frame :: frames, context =>
    (frame.Quiet ∨ context.1.Beyond bound) ∧ AllSpare bound frames (frame.restore context)

theorem quiet_defers {c c' : Control} {frame : Frame} (h : c.Defers c' frame) (hc : c.Quiet) :
    c'.Quiet ∧ frame.Quiet := by
  cases h with
  | «variable» name initializer => exact hc.elim
  | classDeclaration name parent methods => exact hc.elim
  | conditional condition thenBranch elseBranch =>
    cases elseBranch with
    | none => exact ⟨trivial, hc, fun _ hs => absurd hs (Option.not_mem_none _)⟩
    | some elseBranch => exact ⟨trivial, hc.1, fun _ hs => Option.mem_some.mp hs ▸ hc.2⟩
  | loop condition body => exact ⟨trivial, hc⟩
  | sequence s rest => exact List.forall_mem_cons.mp hc
  | _ => exact ⟨trivial, trivial⟩

theorem quiet_becomes {c c' : Control} (h : c.Becomes c') : c'.Quiet := by
  cases h <;> trivial

theorem quiet_passes {frame : Frame} {c c' : Control} {more : List Frame}
    (h : frame.Passes c c' more) (hframe : frame.Quiet) : c'.Quiet ∧ ∀ f ∈ more, f.Quiet := by
  cases h
  case thenBranch => exact ⟨hframe.1, List.forall_mem_nil _⟩
  case elseBranch => exact ⟨hframe.2 _ rfl, List.forall_mem_nil _⟩
  case loopOn => exact ⟨hframe, List.forall_mem_singleton.mpr hframe⟩
  case loopAgain => exact ⟨trivial, List.forall_mem_singleton.mpr hframe⟩
  case sequence => exact ⟨hframe, List.forall_mem_nil _⟩
  case binaryLeft => exact ⟨trivial, List.forall_mem_singleton.mpr trivial⟩
  case callee => exact ⟨trivial, List.forall_mem_singleton.mpr trivial⟩
  case argument => exact ⟨trivial, List.forall_mem_singleton.mpr trivial⟩
  case setObject => exact ⟨trivial, List.forall_mem_singleton.mpr trivial⟩
  all_goals exact ⟨trivial, List.forall_mem_nil _⟩

theorem Frame.AllSpare.append {bound : ScopeId} {more frames : List Frame} {context : Chain × Nat}
    (hmore : ∀ f ∈ more, (f.Quiet ∨ context.1.Beyond bound) ∧ f.restore context = context)
    (h : AllSpare bound frames context) : AllSpare bound (more ++ frames) context := by
  induction more with
  | nil => exact h
  | cons f more ih =>
    obtain ⟨hfirst, hrest⟩ := List.forall_mem_cons.mp hmore
    refine ⟨hfirst.1, ?_⟩
    rw [hfirst.2]
    exact ih hrest

namespace Machine

/-- A machine has come from a store and declares names only in scopes that the store did not have. -/
structure Spares (s : Store) (m : Machine) : Prop where
  gains : s.Gains (fun id _ => s.scopes.size ≤ id) m.world.store
  control : m.control.Quiet ∨ m.world.chain.Beyond s.scopes.size
  frames : Frame.AllSpare s.scopes.size m.frames m.world.context

theorem Declares.le {s : Store} {m : Machine} {x : String} (h : m.Declares x) (hm : m.Spares s)
    {id : ScopeId} (hid : m.world.chain.head? = some id) : s.scopes.size ≤ id := by
  have hcontrol := hm.control
  have hframes := hm.frames
  cases h with
  | initialized => exact hframes.1.resolve_left False.elim id hid
  | heir => exact hframes.1.resolve_left False.elim id hid
  | _ => exact hcontrol.resolve_left False.elim id hid

/-- A step whose frames and control go on from the context that it leaves. -/
theorem Spares.after {s : Store} {m m' : Machine} (hm : m.Spares s) (h : Move m m')
    (hcontrol : m'.control.Quiet ∨ m'.world.chain.Beyond s.scopes.size)
    (hframes : Frame.AllSpare s.scopes.size m'.frames m'.world.context) : m'.Spares s := by
  refine ⟨hm.gains.trans ((move_gains h).mono ?_), hcontrol, hframes⟩
  rintro id x ⟨hid, hdeclares⟩
  exact hdeclares.le hm hid

theorem spare_pop {bound : ScopeId} {frame : Frame} {frames : List Frame} {context : Chain × Nat}
    (h : Frame.AllSpare bound (frame :: frames) context) (hframe : frame.awaitsStatement = false) :
    Frame.AllSpare bound frames context := by
  have hrest := h.2
  rwa [restore_of_value hframe] at hrest

/-- A step keeps to new scopes. -/
theorem move_spares {s : Store} {m m' : Machine} (h : Move m m') (hm : m.Spares s) :
    m'.Spares s := by
  have hsize := hm.gains.grows.size
  have hcontrol := hm.control
  have hframes := hm.frames
  suffices hparts : (m'.control.Quiet ∨ m'.world.chain.Beyond s.scopes.size) ∧
      Frame.AllSpare s.scopes.size m'.frames m'.world.context from
    hm.after h hparts.1 hparts.2
  cases h with
  | defers h =>
    refine ⟨hcontrol.imp_left fun hc => (quiet_defers h hc).1,
      hcontrol.imp_left fun hc => (quiet_defers h hc).2, ?_⟩
    rw [restore_defers h]
    exact hframes
  | becomes h => exact ⟨.inl (quiet_becomes h), hframes⟩
  | @passes w c c' frame more frames h =>
    obtain ⟨htop, hrest⟩ := hframes
    rw [(restore_passes h _).1] at hrest
    refine ⟨htop.imp_left fun hq => (quiet_passes h hq).1, .append (fun f hf => ?_) hrest⟩
    exact ⟨htop.imp_left fun hq => (quiet_passes h hq).2 f hf, (restore_passes h _).2 f hf⟩
  | refuses hframe => exact ⟨.inl trivial, spare_pop hframes hframe⟩
  | unwinds w f frame frames =>
    refine ⟨.inl trivial, ?_⟩
    cases frame <;> exact hframes.2
  | writes => exact ⟨.inl trivial, spare_pop hframes rfl⟩
  | field => exact ⟨.inl trivial, spare_pop hframes rfl⟩
  | method => exact ⟨.inl trivial, spare_pop hframes rfl⟩
  | setsField => exact ⟨.inl trivial, spare_pop hframes rfl⟩
  | prints => exact ⟨.inl trivial, spare_pop hframes rfl⟩
  | defines => exact ⟨.inl trivial, spare_pop hframes rfl⟩
  | inherits => exact ⟨.inl trivial, spare_pop hframes rfl⟩
  | enters w body frames =>
    refine ⟨.inr fun id hid => ?_, .inl trivial, hframes⟩
    cases hid
    exact hsize
  | leaves => exact ⟨.inl trivial, hframes.2⟩
  | clock h => exact ⟨.inl trivial, spare_pop hframes (Applies.awaitsValue h)⟩
  | calls h =>
    refine ⟨.inr fun id hid => ?_, .inl trivial, spare_pop hframes (Applies.awaitsValue h)⟩
    cases hid
    exact hsize
  | creates h => exact ⟨.inl trivial, spare_pop hframes (Applies.awaitsValue h)⟩
  | initializes h =>
    refine ⟨.inr fun id hid => ?_, .inl trivial, .inl trivial,
      spare_pop hframes (Applies.awaitsValue h)⟩
    cases hid
    exact Nat.le_trans (Nat.le_succ_of_le hsize) (Nat.le_of_eq (Array.size_push _).symm)
  | returns h => cases h <;> exact ⟨.inl trivial, hframes.2⟩
  | _ => exact ⟨.inl trivial, hframes⟩

theorem spares_run {s : Store} {m : Machine} (hm : m.Spares s) (n : Nat) : (run n m).Spares s :=
  run_preserves (fun _ hactive h => move_spares (move_step hactive) h) hm n

/-- The scopes that there were keep their names as long as a machine of this kind does not yield to the
frames below it. -/
theorem Spares.sameNames {s : Store} {m : Machine} (hm : m.Spares s) {base : List Frame} {n : Nat}
    (h : (lift base m).Busy base n) : s.SameNames (run n (lift base m)).world.store := by
  rw [h.run_lift, lift_world]
  exact (spares_run hm n).gains.sameNames fun id hid x => Nat.not_le_of_lt hid

theorem Spares.of_quiet {w : World} {c : Control} (h : c.Quiet) : Spares w.store ⟨w, c, []⟩ :=
  ⟨.of_scopes rfl, .inl h, trivial⟩

/-- A call is a step from where the last argument has come to its value. -/
theorem spares_apply (w : World) (callee : Value) (paren : Token) (arguments : List Value) :
    (apply w callee paren arguments []).Spares w.store := by
  obtain ⟨frame, v, h⟩ := exists_applies callee paren arguments
  refine move_spares (move_apply w [] h paren) ⟨.of_scopes rfl, .inl trivial, .inl ?_, trivial⟩
  cases h <;> trivial

/-! ## Declarations -/

/-- The names of the scopes that there were in a world are the same, but for one that a completed
declaration leaves in the active scope. -/
def DeclaresOnly (w : World) (base : List Frame) (name : String) (m : Machine) : Prop :=
  ∀ id < w.store.scopes.size, ∀ x, m.world.store.binds id x = true ↔
    w.store.binds id x = true ∨
      (m.frames = base ∧ m.control = .done .normal) ∧ w.chain.head? = some id ∧ x = name

theorem DeclaresOnly.of_same {w : World} {base : List Frame} {name : String} {m : Machine}
    (h : w.store.SameNames m.world.store)
    (hpending : ¬ (m.frames = base ∧ m.control = .done .normal)) :
    DeclaresOnly w base name m := by
  intro id hid x
  rw [h id hid x]
  exact ⟨.inl, fun hx => hx.resolve_right fun hdone => hpending hdone.1⟩

theorem DeclaresOnly.of_declared {w w' : World} {base : List Frame} {name : String} {m : Machine}
    (hsame : w.store.SameNames w'.store) (hsize : w.store.scopes.size ≤ w'.store.scopes.size)
    (hchain : w'.chain = w.chain) (h : Declared w' name base m) : DeclaresOnly w base name m := by
  obtain ⟨s, v, hgains, rfl⟩ := h
  intro id hid x
  dsimp only
  rw [Store.binds_declared hgains v (Nat.lt_of_lt_of_le hid hsize) x, hsame id hid x,
    Store.declared, hchain]
  simp

theorem DeclaresOnly.of_fault {w w' : World} {base frames : List Frame} {name : String} {m : Machine}
    {f : RuntimeFault} (hsame : w.store.SameNames w'.store) (h : m = ⟨w', .fault f, frames⟩) :
    DeclaresOnly w base name m := by
  subst h
  exact .of_same hsame fun h => by cases h.2

theorem Busy.tail {base : List Frame} {n : Nat} {m : Machine} (h : m.Busy base (n + 1)) :
    m.step.Busy base n := by
  intro k hk
  rw [← run_succ]
  exact h (k + 1) (Nat.succ_lt_succ hk)

/-- A declaration that is completed at once. -/
theorem DeclaresOnly.of_step {w : World} {s : Stmt} {base : List Frame} {name : String} {n : Nat}
    (h : Declared w name base (step ⟨w, .exec s, base⟩)) (hbusy : Busy base n ⟨w, .exec s, base⟩) :
    DeclaresOnly w base name (run n ⟨w, .exec s, base⟩) := by
  cases n with
  | zero => exact .of_same (fun _ _ _ => rfl) fun h => by cases h.2
  | succ n =>
    cases n with
    | zero => exact .of_declared (fun _ _ _ => rfl) (Nat.le_refl _) rfl h
    | succ n => exact absurd h.yieldsTo (hbusy 1 (by omega))

/-- A declaration that waits for the value of an expression first. -/
theorem DeclaresOnly.of_waiting {w : World} {e : Expr} {frame : Frame} {base : List Frame}
    {name : String} {n : Nat}
    (hvalue : ∀ w' v, Declared w' name base (step ⟨w', .value v, frame :: base⟩) ∨
      ∃ f, step ⟨w', .value v, frame :: base⟩ = ⟨w', .fault f, base⟩)
    (hfault : ∀ w', unwind w' frame = w')
    (hbusy : Busy base n (lift (frame :: base) ⟨w, .eval e, []⟩)) :
    DeclaresOnly w base name (run n (lift (frame :: base) ⟨w, .eval e, []⟩)) := by
  have hspares : Spares w.store ⟨w, .eval e, []⟩ := .of_quiet trivial
  have hsame : ∀ k, w.store.SameNames (run k ⟨w, .eval e, []⟩).world.store := fun k =>
    (spares_run hspares k).gains.sameNames fun id hid x => Nat.not_le_of_lt hid
  rcases run_lift_or (frame :: base) n ⟨w, .eval e, []⟩ with ⟨-, hrun⟩ | ⟨k, hk, hhalted, hrun⟩
  · rw [hrun]
    refine .of_same (hsame n) fun h => ?_
    have hlength := congrArg List.length h.1
    rw [lift_frames, List.length_append, List.length_cons] at hlength
    omega
  · obtain ⟨j, rfl⟩ : ∃ j, n = k + (j + 1) := ⟨n - k - 1, by omega⟩
    -- The step that takes the result is the last one, since it yields.
    have hlast : (step (lift (frame :: base) (run k ⟨w, .eval e, []⟩))).YieldsTo base →
        run (k + (j + 1)) (lift (frame :: base) ⟨w, .eval e, []⟩) =
          step (lift (frame :: base) (run k ⟨w, .eval e, []⟩)) := by
      intro hyields
      cases j with
      | zero => rw [run_add, hrun, run_succ, run_zero]
      | succ j =>
        refine absurd ?_ (hbusy (k + 1) (by omega))
        rwa [run_add, hrun, run_succ, run_zero]
    have hchain := congrArg Prod.fst (context_run ((halted_iff _).mp hhalted).1)
    have hsize := (spares_run hspares k).gains.grows.size
    have hsorted : Sorted false ⟨w, .eval e, []⟩ := ⟨false, rfl, rfl⟩
    have hnames := hsame k
    obtain ⟨w', ⟨v, hend⟩ | ⟨f, hend⟩⟩ := value_of_halted (sorted_run hsorted k) hhalted
    · rw [hend] at hlast hchain hsize hnames
      rcases hvalue w' v with hdeclared | ⟨f, hrefused⟩
      · rw [hlast hdeclared.yieldsTo]
        exact .of_declared hnames hsize hchain hdeclared
      · have hyields : (step ⟨w', .value v, frame :: base⟩).YieldsTo base := by
          rw [hrefused]
          exact ⟨rfl, rfl⟩
        rw [hlast hyields]
        exact .of_fault hnames hrefused
    · rw [hend] at hlast hnames
      have hunwound : step (lift (frame :: base) ⟨w', .fault f, []⟩) = ⟨w', .fault f, base⟩ :=
        congrArg (Machine.mk · (.fault f) base) (hfault w')
      rw [hlast ⟨rfl, rfl⟩]
      exact .of_fault hnames hunwound

end Machine

/-- The name that a declaration declares. -/
def Stmt.declared? : Stmt → Option Token
  | .variable name _ => some name
  | .function declaration => some declaration.name
  | .classDeclaration name _ _ => some name
  | _ => none

theorem Machine.DeclaresOnly.of_declaration (w : World) (base : List Frame) {s : Stmt} {name : Token}
    (hs : s.declared? = some name) {n : Nat} (hbusy : Busy base n ⟨w, .exec s, base⟩) :
    DeclaresOnly w base name.lexeme (run n ⟨w, .exec s, base⟩) := by
  have hwaiting : ∀ (e : Expr) (frame : Frame),
      step ⟨w, .exec s, base⟩ = lift (frame :: base) ⟨w, .eval e, []⟩ →
      (∀ w' v, Declared w' name.lexeme base (step ⟨w', .value v, frame :: base⟩) ∨
        ∃ f, step ⟨w', .value v, frame :: base⟩ = ⟨w', .fault f, base⟩) →
      (∀ w', unwind w' frame = w') →
      DeclaresOnly w base name.lexeme (run n ⟨w, .exec s, base⟩) := by
    intro e frame hstep hvalue hfault
    cases n with
    | zero => exact .of_same (fun _ _ _ => rfl) fun h => by cases h.2
    | succ n =>
      have htail := hbusy.tail
      rw [hstep] at htail
      rw [run_succ, hstep]
      exact .of_waiting hvalue hfault htail
  cases s with
  | «variable» declared initializer =>
    cases hs
    cases initializer with
    | none => exact .of_step (declared_define ..) hbusy
    | some e =>
      exact hwaiting e (.define name) rfl (fun w' v => .inl (declared_define ..)) fun _ => rfl
  | function declaration =>
    cases hs
    exact .of_step (declared_function ..) hbusy
  | classDeclaration declared superclass methods =>
    cases hs
    cases superclass with
    | none => exact .of_step (declared_class w name none methods base) hbusy
    | some parent =>
      refine hwaiting parent (.superclass name (parent.nameOr name) methods) rfl ?_ fun _ => rfl
      intro w' v
      simp only [step, stepValue]
      split
      · exact .inl (declared_class ..)
      · exact .inr ⟨_, rfl⟩
  | _ => cases hs

/-- Nothing leaks out of a scope. Until they have handed over a result, and when they do so, neither
expressions nor calls nor statements that are no declarations have changed the names of the scopes that
there were; a declaration has added its own name, to the active scope, if it has been completed, and
otherwise nothing; and no machine ever takes a name away. -/
theorem names_kept :
    (∀ (w : World) (base : List Frame) (e : Expr) (n : Nat),
      Machine.Busy base n (Task.start w base (.evaluate e)) →
      w.store.SameNames (Machine.run n (Task.start w base (.evaluate e))).world.store) ∧
    (∀ (w : World) (base : List Frame) (callee : Value) (paren : Token) (arguments : List Value)
      (n : Nat), Machine.Busy base n (Task.start w base (.call callee paren arguments)) →
      w.store.SameNames
        (Machine.run n (Task.start w base (.call callee paren arguments))).world.store) ∧
    (∀ (w : World) (base : List Frame) (s : Stmt) (n : Nat), s.Parsed → s.isDeclaration = false →
      Machine.Busy base n (Task.start w base (.execute s)) →
      w.store.SameNames (Machine.run n (Task.start w base (.execute s))).world.store) ∧
    (∀ (w : World) (base : List Frame) (s : Stmt) (name : Token) (n : Nat),
      s.declared? = some name → Machine.Busy base n (Task.start w base (.execute s)) →
      Machine.DeclaresOnly w base name.lexeme
        (Machine.run n (Task.start w base (.execute s)))) ∧
    ∀ (m : Machine) (n : Nat) (id : ScopeId) (x : String), m.world.store.binds id x = true →
      (Machine.run n m).world.store.binds id x = true := by
  have hkept : ∀ (w : World) (base : List Frame) (task : Task) (n : Nat),
      (task.start w []).Spares w.store → Machine.Busy base n (task.start w base) →
      w.store.SameNames (Machine.run n (task.start w base)).world.store := by
    intro w base task n hspares hbusy
    rw [task.start_lift w base] at hbusy ⊢
    exact hspares.sameNames hbusy
  refine ⟨fun w base e n hbusy => ?_, fun w base callee paren arguments n hbusy => ?_,
    fun w base s n hparsed hplain hbusy => ?_, fun w base s name n hname hbusy => ?_,
    fun m n id x hx => (Machine.grows_run m n).binds id x hx⟩
  · exact hkept w base (.evaluate e) n (.of_quiet trivial) hbusy
  · exact hkept w base (.call callee paren arguments) n
      (Machine.spares_apply w callee paren arguments) hbusy
  · have hquiet := s.quiet_of_wellFormed hparsed.wellFormed hplain
    exact hkept w base (.execute s) n (.of_quiet hquiet) hbusy
  · exact .of_declaration w base hname hbusy

/-- When a machine finishes, read off the number of its frames. -/
theorem Machine.finishesAt_of_length {base : List Frame} {n : Nat} {m : Machine}
    (hyields : (run n m).YieldsTo base)
    (h : ∀ k < n, ¬ ((run k m).frames.length = base.length ∧
      (run k m).control.isResult = true)) : m.FinishesAt base n :=
  ⟨hyields, Busy.of_lengths h⟩

/-- A block that declares a name of its own, and a declaration, an assignment and a call beside it. -/
theorem names_kept_beside_block :
    let w := World.fresh (.ofRoom none) (.standing 0)
    let clock : Token := ⟨.identifier, "clock", 1⟩
    let shadow : Stmt := .block [.variable clock none]
    let shadowed := Task.start w [.discard] (.execute shadow)
    let declared := Task.start w [.discard] (.execute (.variable ⟨.identifier, "a", 1⟩ none))
    let assigned := Task.start w [.discard] (.evaluate (.assign ⟨0, clock⟩ (.literal .nil)))
    let called := Task.start w [.discard] (.call (.callable .clock) clock [])
    (shadow.Parsed ∧ shadowed.FinishesAt [.discard] 6 ∧
      w.store.SameNames (Machine.run 6 shadowed).world.store) ∧
    (declared.FinishesAt [.discard] 1 ∧
      Machine.DeclaresOnly w [.discard] "a" (Machine.run 1 declared)) ∧
    (assigned.FinishesAt [.discard] 3 ∧
      w.store.SameNames (Machine.run 3 assigned).world.store) ∧
    (called.FinishesAt [.discard] 0 ∧ w.store.SameNames (Machine.run 0 called).world.store) ∧
    (Machine.run 6 shadowed).world.store.binds 0 "clock" = true := by
  intro w clock shadow shadowed declared assigned called
  obtain ⟨hevaluate, hcall, hexecute, hdeclare, hgrow⟩ := names_kept
  have hread : (programItems [⟨.symbol .leftBrace, "\x7b", 1⟩, ⟨.keyword .varWord, "var", 1⟩, clock,
      ⟨.symbol .semicolon, ";", 1⟩, ⟨.symbol .rightBrace, "\x7d", 1⟩, .endOn 1] 0).1 =
      [.ok shadow] := by rfl
  have hparsed : shadow.Parsed :=
    ⟨_, 0, shadow, hread ▸ List.mem_singleton_self _, shadow.mem_parts_self⟩
  have hshadowed : shadowed.FinishesAt [.discard] 6 :=
    Machine.finishesAt_of_length ⟨rfl, rfl⟩ (by decide)
  have hdeclared : declared.FinishesAt [.discard] 1 :=
    Machine.finishesAt_of_length ⟨rfl, rfl⟩ (by decide)
  have hassigned : assigned.FinishesAt [.discard] 3 :=
    Machine.finishesAt_of_length ⟨rfl, rfl⟩ (by decide)
  have hcalled : called.FinishesAt [.discard] 0 :=
    Machine.finishesAt_of_length ⟨rfl, rfl⟩ (by decide)
  exact ⟨⟨hparsed, hshadowed, hexecute w _ shadow 6 hparsed rfl hshadowed.2⟩,
    ⟨hdeclared, hdeclare w _ _ _ 1 rfl hdeclared.2⟩,
    ⟨hassigned, hevaluate w _ _ 3 hassigned.2⟩,
    ⟨hcalled, hcall w _ _ clock [] 0 hcalled.2⟩,
    hgrow shadowed 6 0 "clock" (by decide)⟩

end LoxLang
