import LoxLang.Machine.Step
import LoxLang.Proofs.Alike.Values
import LoxLang.Proofs.Machine.Lifting

/-!
Machines that are taken for each other go on alike. `step_alike` says that a step leads from like
machines to like machines, so that after any number of steps (`run_alike`) the same lines are printed,
the same scopes and objects exist, and a fault on one side is the same fault at a related token on the
other.
-/
namespace LoxLang
set_option autoImplicit false

inductive Completion.Alike (L : Likeness) : Completion → Completion → Prop
  | normal : Alike L .normal .normal
  | returned {v v' : Value} : v.Alike L v' → Alike L (.returned v) (.returned v')

inductive Control.Alike (L : Likeness) : Control → Control → Prop
  | eval {e e' : Expr} : e.Alike L e' → Alike L (.eval e) (.eval e')
  | exec {s s' : Stmt} : s.Alike L s' → Alike L (.exec s) (.exec s')
  | execAll {body body' : List Stmt} : List.Forall₂ (Stmt.Alike L) body body' →
    Alike L (.execAll body) (.execAll body')
  | value {v v' : Value} : v.Alike L v' → Alike L (.value v) (.value v')
  | done {completion completion' : Completion} : completion.Alike L completion' →
    Alike L (.done completion) (.done completion')
  | fault {f f' : RuntimeFault} : f.Alike L f' → Alike L (.fault f) (.fault f')

inductive Frame.Alike (L : Likeness) : Frame → Frame → Prop
  | unary {operator operator' : Token} : L.token operator operator' →
    Alike L (.unary operator) (.unary operator')
  | binaryLeft {operator operator' : Token} {right right' : Expr} : L.token operator operator' →
    right.Alike L right' → Alike L (.binaryLeft operator right) (.binaryLeft operator' right')
  | binaryRight {operator operator' : Token} {left left' : Value} : L.token operator operator' →
    left.Alike L left' → Alike L (.binaryRight operator left) (.binaryRight operator' left')
  | logical {operator operator' : Token} {right right' : Expr} : L.token operator operator' →
    right.Alike L right' → Alike L (.logical operator right) (.logical operator' right')
  | assign {target target' : Reference} : target.Alike L target' →
    Alike L (.assign target) (.assign target')
  | callee {paren paren' : Token} {arguments arguments' : List Expr} : L.token paren paren' →
    List.Forall₂ (Expr.Alike L) arguments arguments' →
    Alike L (.callee paren arguments) (.callee paren' arguments')
  | argument {callee callee' : Value} {paren paren' : Token} {before before' : List Value}
    {rest rest' : List Expr} : callee.Alike L callee' → L.token paren paren' →
    List.Forall₂ (Value.Alike L) before before' → List.Forall₂ (Expr.Alike L) rest rest' →
    Alike L (.argument callee paren before rest) (.argument callee' paren' before' rest')
  | get {name name' : Token} : L.token name name' → Alike L (.get name) (.get name')
  | setObject {name name' : Token} {value value' : Expr} : L.token name name' →
    value.Alike L value' → Alike L (.setObject name value) (.setObject name' value')
  | setValue {object object' : ObjectRef} {name name' : Token} : object.Alike L object' →
    L.token name name' → Alike L (.setValue object name) (.setValue object' name')
  | discard : Alike L .discard .discard
  | print {keyword keyword' : Token} : L.token keyword keyword' →
    Alike L (.print keyword) (.print keyword')
  | define {name name' : Token} : L.token name name' → Alike L (.define name) (.define name')
  | branch {thenBranch thenBranch' : Stmt} {elseBranch elseBranch' : Option Stmt} :
    thenBranch.Alike L thenBranch' → Option.Rel (Stmt.Alike L) elseBranch elseBranch' →
    Alike L (.branch thenBranch elseBranch) (.branch thenBranch' elseBranch')
  | loopTest {condition condition' : Expr} {body body' : Stmt} : condition.Alike L condition' →
    body.Alike L body' → Alike L (.loopTest condition body) (.loopTest condition' body')
  | loopBody {condition condition' : Expr} {body body' : Stmt} : condition.Alike L condition' →
    body.Alike L body' → Alike L (.loopBody condition body) (.loopBody condition' body')
  | returning : Alike L .returning .returning
  | superclass {name name' parent parent' : Token} {methods methods' : List FunctionDeclaration} :
    L.token name name' → L.token parent parent' →
    List.Forall₂ (FunctionDeclaration.Alike L) methods methods' →
    Alike L (.superclass name parent methods) (.superclass name' parent' methods')
  | sequence {rest rest' : List Stmt} : List.Forall₂ (Stmt.Alike L) rest rest' →
    Alike L (.sequence rest) (.sequence rest')
  | block (outer : Chain) : Alike L (.block outer) (.block outer)
  | call (caller : Chain) {closure closure' : Closure} : closure.Alike L closure' →
    Alike L (.call caller closure) (.call caller closure')
  | construct {object object' : ObjectRef} : object.Alike L object' →
    Alike L (.construct object) (.construct object')

/-- Like worlds, controls and frames. -/
structure Machine.Alike (L : Likeness) (m m' : Machine) : Prop where
  world : m.world.Alike L m'.world
  control : m.control.Alike L m'.control
  frames : List.Forall₂ (Frame.Alike L) m.frames m'.frames

theorem Expr.Alike.nameOr {L : Likeness} {e e' : Expr} {name name' : Token} (h : e.Alike L e')
    (hname : L.token name name') : L.token (e.nameOr name) (e'.nameOr name') := by
  cases h with
  | «variable» htarget => exact htarget.name
  | _ => exact hname

namespace Machine

/-! ## Parts of a step -/

section Parts
variable {L : Likeness} {w w' : World} {frames frames' : List Frame}

theorem settle_alike (hw : w.Alike L w') (hf : List.Forall₂ (Frame.Alike L) frames frames')
    {result result' : Except RuntimeFault Value} (h : ResultAlike L result result') :
    (settle w frames result).Alike L (settle w' frames' result') := by
  cases h with
  | ok hv => exact ⟨hw, .value hv, hf⟩
  | error hfault => exact ⟨hw, .fault hfault, hf⟩

theorem complete_alike (hw : w.Alike L w') (hf : List.Forall₂ (Frame.Alike L) frames frames') :
    (complete w frames).Alike L (complete w' frames') :=
  ⟨hw, .done .normal, hf⟩

theorem undefined_alike {t u : Token} (h : L.token t u) : t.undefined.Alike L u.undefined := by
  rw [Token.undefined, Token.undefined, L.lexeme h]
  exact .intro _ h

theorem read_alike (hw : w.Alike L w') (hf : List.Forall₂ (Frame.Alike L) frames frames')
    {target target' : Reference} (htarget : target.Alike L target') :
    (read w target frames).Alike L (read w' target' frames') := by
  unfold read
  obtain ⟨hnone, hnone'⟩ | ⟨v, v', hsome, hsome', hv⟩ := rel_cases (hw.read? htarget)
  · rw [hnone, hnone']
    exact ⟨hw, .fault (undefined_alike htarget.name), hf⟩
  · rw [hsome, hsome']
    exact ⟨hw, .value hv, hf⟩

theorem write_alike (hw : w.Alike L w') (hf : List.Forall₂ (Frame.Alike L) frames frames')
    {target target' : Reference} (htarget : target.Alike L target') {v v' : Value}
    (hv : v.Alike L v') : (write w target v frames).Alike L (write w' target' v' frames') := by
  unfold write
  rw [hw.binder? htarget, L.lexeme htarget.name]
  split
  · exact ⟨hw.bind _ _ hv, .value hv, hf⟩
  · exact ⟨hw, .fault (undefined_alike htarget.name), hf⟩

theorem readProperty_alike (hw : w.Alike L w') (hf : List.Forall₂ (Frame.Alike L) frames frames')
    {v v' : Value} (hv : v.Alike L v') {name name' : Token} (hname : L.token name name') :
    (readProperty w v name frames).Alike L (readProperty w' v' name' frames') := by
  cases hv with
  | @object object object' hobject =>
    obtain ⟨hfound, hstore⟩ := hw.store.property? hobject name.lexeme
    have hworld := hw.withStore hstore
    rw [← L.lexeme hname] at hfound hworld
    unfold readProperty World.onStore
    dsimp only
    revert hfound hworld
    rw [L.lexeme hname]
    generalize w.store.property? object name.lexeme = found
    generalize w'.store.property? object' name.lexeme = found'
    obtain ⟨found, store⟩ := found
    obtain ⟨found', store'⟩ := found'
    intro hfound hworld
    cases hfound with
    | none => exact ⟨hworld, .fault (.intro _ hname), hf⟩
    | some hv => exact ⟨hworld, .value hv, hf⟩
  | _ => exact ⟨hw, .fault (.intro _ hname), hf⟩

/-- Like classes and the same object, or like faults. -/
inductive PartsAlike (L : Likeness) :
    Except RuntimeFault (ClassObject × ObjectRef) →
      Except RuntimeFault (ClassObject × ObjectRef) → Prop
  | ok {superclass superclass' : ClassObject} {object object' : ObjectRef} :
    superclass.Alike L superclass' → object.Alike L object' →
    PartsAlike L (.ok (superclass, object)) (.ok (superclass', object'))
  | error {f f' : RuntimeFault} : f.Alike L f' → PartsAlike L (.error f) (.error f')

theorem superParts_alike (hw : w.Alike L w') {keyword keyword' : Reference}
    (hkeyword : keyword.Alike L keyword') :
    PartsAlike L (superParts w keyword) (superParts w' keyword') := by
  have hundefined := undefined_alike hkeyword.name
  have hlookup := fun distance name => hw.store.lookupAt? w.chain distance name
  unfold superParts
  rw [hw.distances keyword keyword' hkeyword.number, hw.chain]
  cases w.distances.get? keyword with
  | none => exact .error hundefined
  | some distance =>
    dsimp only
    obtain ⟨hnone, hnone'⟩ | ⟨v, v', hsome, hsome', hv⟩ := rel_cases (hlookup distance "super")
    · rw [hnone, hnone']
      exact .error (.intro _ hkeyword.name)
    · rw [hsome, hsome']
      cases hv with
      | callable hcallable =>
        cases hcallable with
        | classObject hclass =>
          cases distance with
          | zero => exact .error hundefined
          | succ inner =>
            dsimp only
            obtain ⟨hnone, hnone'⟩ | ⟨v, v', hsome, hsome', hv⟩ := rel_cases (hlookup inner "this")
            · rw [hnone, hnone']
              exact .error (.intro _ hkeyword.name)
            · rw [hsome, hsome']
              cases hv with
              | object hobject => exact .ok hclass hobject
              | _ => exact .error (.intro _ hkeyword.name)
        | _ => exact .error (.intro _ hkeyword.name)
      | _ => exact .error (.intro _ hkeyword.name)

theorem readSuper_alike (hw : w.Alike L w') (hf : List.Forall₂ (Frame.Alike L) frames frames')
    {keyword keyword' : Reference} (hkeyword : keyword.Alike L keyword') {method method' : Token}
    (hmethod : L.token method method') :
    (readSuper w keyword method frames).Alike L (readSuper w' keyword' method' frames') := by
  have hparts := superParts_alike hw hkeyword
  unfold readSuper
  revert hparts
  generalize superParts w keyword = parts
  generalize superParts w' keyword' = parts'
  intro hparts
  cases hparts with
  | error hfault => exact ⟨hw, .fault hfault, hf⟩
  | @ok superclass superclass' object object' hclass hobject =>
    dsimp only
    rw [L.lexeme hmethod]
    obtain ⟨hnone, hnone'⟩ | ⟨found, found', hsome, hsome', hclosure⟩ :=
      rel_cases (hclass.method? method.lexeme)
    · rw [hnone, hnone']
      exact ⟨hw, .fault (.intro _ hmethod), hf⟩
    · rw [hsome, hsome']
      obtain ⟨hv, hstore⟩ := hw.store.newMethod hclosure hobject
      exact ⟨hw.withStore hstore, .value hv, hf⟩

theorem enterBody_alike (hw : w.Alike L w') (hf : List.Forall₂ (Frame.Alike L) frames frames')
    {closure closure' : Closure} (hclosure : closure.Alike L closure')
    {arguments arguments' : List Value} (h : List.Forall₂ (Value.Alike L) arguments arguments') :
    (enterBody w closure arguments frames).Alike L (enterBody w' closure' arguments' frames') := by
  have hbindings : ∀ {params params' : List Token}, List.Forall₂ L.token params params' →
      List.Forall₂ (fun pair pair' => pair'.1 = pair.1 ∧ Value.Alike L pair.2 pair'.2)
        ((params.map Token.lexeme).zip arguments) ((params'.map Token.lexeme).zip arguments') := by
    intro params params' hparams
    induction hparams generalizing arguments arguments' with
    | nil => exact .nil
    | cons hparam _ ih =>
      -- There may be fewer arguments than parameters: the arity is checked elsewhere.
      cases h with
      | nil => exact .nil
      | cons hv hrest => exact .cons ⟨L.lexeme hparam, hv⟩ (ih hrest)
  obtain ⟨hdeclaration, hchain, hinit⟩ := hclosure
  obtain ⟨declaration, chain, isInitializer⟩ := closure
  obtain ⟨declaration', chain', isInitializer'⟩ := closure'
  obtain rfl : chain' = chain := hchain
  cases hdeclaration with
  | intro hname hparams hbody =>
    have hentered := hw.enterScope chain' (Table.Alike.ofList (hbindings hparams))
    refine ⟨⟨hentered.store, hentered.chain, ?_, hentered.distances, hentered.sink, hentered.clock⟩,
      .execAll hbody, ?_⟩
    · exact congrArg (· + 1) hentered.depth
    · rw [enterBody, enterBody, hw.chain]
      exact .cons (.call w.chain ⟨.intro hname hparams hbody, rfl, hinit⟩) hf

theorem construct_alike (hw : w.Alike L w') (hf : List.Forall₂ (Frame.Alike L) frames frames')
    {origin origin' : ClassObject} (horigin : origin.Alike L origin')
    {arguments arguments' : List Value} (h : List.Forall₂ (Value.Alike L) arguments arguments') :
    (construct w origin arguments frames).Alike L (construct w' origin' arguments' frames') := by
  obtain ⟨hobject, hstore⟩ := hw.store.newObject horigin
  unfold construct World.onStore
  dsimp only
  obtain ⟨hnone, hnone'⟩ | ⟨init, init', hsome, hsome', hclosure⟩ :=
    rel_cases (horigin.method? initializerName)
  · rw [hnone, hnone']
    exact ⟨hw.withStore hstore, .value (.object hobject), hf⟩
  · rw [hsome, hsome']
    obtain ⟨hbound, hstore⟩ := hstore.bindMethod hclosure hobject
    exact enterBody_alike (hw.withStore hstore) (.cons (.construct hobject) hf) hbound h

theorem enter_alike (hw : w.Alike L w') (hf : List.Forall₂ (Frame.Alike L) frames frames')
    {callable callable' : Callable} (hcallable : callable.Alike L callable')
    {arguments arguments' : List Value} (h : List.Forall₂ (Value.Alike L) arguments arguments') :
    (enter w callable arguments frames).Alike L (enter w' callable' arguments' frames') := by
  cases hcallable with
  | clock =>
    obtain ⟨htime, hworld⟩ := hw.readClock
    have hvalue : Value.Alike L (.number w.readClock.1) (.number w'.readClock.1) := by
      rw [htime]
      exact .number _
    exact ⟨hworld, .value hvalue, hf⟩
  | function hclosure => exact enterBody_alike hw hf hclosure h
  | classObject hclass => exact construct_alike hw hf hclass h

theorem apply_alike (hw : w.Alike L w') (hf : List.Forall₂ (Frame.Alike L) frames frames')
    {callee callee' : Value} (hcallee : callee.Alike L callee') {paren paren' : Token}
    (hparen : L.token paren paren') {arguments arguments' : List Value}
    (h : List.Forall₂ (Value.Alike L) arguments arguments') :
    (apply w callee paren arguments frames).Alike L
      (apply w' callee' paren' arguments' frames') := by
  cases hcallee with
  | callable hcallable =>
    unfold apply
    dsimp only
    rw [hcallable.arity, ← h.length_eq, hw.depth]
    split
    · exact ⟨hw, .fault (.intro _ hparen), hf⟩
    · split
      · exact ⟨hw, .fault (.intro _ hparen), hf⟩
      · exact enter_alike hw hf hcallable h
  | _ => exact ⟨hw, .fault (.intro _ hparen), hf⟩

theorem evalArguments_alike (hw : w.Alike L w') (hf : List.Forall₂ (Frame.Alike L) frames frames')
    {callee callee' : Value} (hcallee : callee.Alike L callee') {paren paren' : Token}
    (hparen : L.token paren paren') {before before' : List Value} {rest rest' : List Expr}
    (hbefore : List.Forall₂ (Value.Alike L) before before')
    (hrest : List.Forall₂ (Expr.Alike L) rest rest') :
    (evalArguments w callee paren before rest frames).Alike L
      (evalArguments w' callee' paren' before' rest' frames') := by
  cases hrest with
  | nil => exact apply_alike hw hf hcallee hparen hbefore
  | cons he hrest => exact ⟨hw, .eval he, .cons (.argument hcallee hparen hbefore hrest) hf⟩

theorem finishCall_alike (hw : w.Alike L w') (hf : List.Forall₂ (Frame.Alike L) frames frames')
    (caller : Chain) {closure closure' : Closure} (hclosure : closure.Alike L closure')
    {completion completion' : Completion} (h : completion.Alike L completion') :
    (finishCall w caller closure completion frames).Alike L
      (finishCall w' caller closure' completion' frames') := by
  have hleft := hw.leaveCall caller
  unfold finishCall
  dsimp only
  rw [hclosure.isInitializer, hclosure.chain]
  split
  · obtain ⟨hnone, hnone'⟩ | ⟨v, v', hsome, hsome', hv⟩ :=
      rel_cases (hleft.store.lookupAt? closure.chain 0 "this")
    · rw [hnone, hnone']
      exact ⟨hleft, .fault (.intro _ hclosure.declaration.name), hf⟩
    · rw [hsome, hsome']
      exact ⟨hleft, .value hv, hf⟩
  · cases h with
    | normal => exact ⟨hleft, .value .nil, hf⟩
    | returned hv => exact ⟨hleft, .value hv, hf⟩

theorem declareFunction_alike (hw : w.Alike L w')
    (hf : List.Forall₂ (Frame.Alike L) frames frames') {d d' : FunctionDeclaration}
    (hd : d.Alike L d') :
    (declareFunction w d frames).Alike L (declareFunction w' d' frames') := by
  have hclosure : Closure.Alike L ⟨d, w.chain, false⟩ ⟨d', w'.chain, false⟩ :=
    ⟨hd, hw.chain, rfl⟩
  obtain ⟨hv, hstore⟩ := hw.store.newFunction hclosure
  exact complete_alike ((hw.withStore hstore).define hd.name hv) hf

theorem methodTable_alike (chain : Chain) {methods methods' : List FunctionDeclaration}
    (h : List.Forall₂ (FunctionDeclaration.Alike L) methods methods') :
    (methodTable chain methods).Alike (Closure.Alike L) (methodTable chain methods') := by
  refine Table.Alike.ofList ?_
  rw [List.forall₂_map_left_iff, List.forall₂_map_right_iff]
  refine h.imp fun d d' hd => ⟨L.lexeme hd.name, hd, rfl, ?_⟩
  rw [L.lexeme hd.name]

theorem declareClass_alike (hw : w.Alike L w') (hf : List.Forall₂ (Frame.Alike L) frames frames')
    {name name' : Token} (hname : L.token name name') {superclass superclass' : Option ClassObject}
    (hsuperclass : Option.Rel (ClassObject.Alike L) superclass superclass')
    {methods methods' : List FunctionDeclaration}
    (h : List.Forall₂ (FunctionDeclaration.Alike L) methods methods') :
    (declareClass w name superclass methods frames).Alike L
      (declareClass w' name' superclass' methods' frames') := by
  -- What is left to do once the scope of `super`, if there is one, has been opened.
  have hfinish : ∀ {v v' : World}, v.Alike L v' →
      (complete (((v.onStore Store.newIdentity).2.withChain w.chain).define name.lexeme
        (.callable (.classObject ⟨v.store.nextId, name.lexeme, superclass,
          methodTable v.chain methods⟩))) frames).Alike L
      (complete (((v'.onStore Store.newIdentity).2.withChain w'.chain).define name'.lexeme
        (.callable (.classObject ⟨v'.store.nextId, name'.lexeme, superclass',
          methodTable v'.chain methods'⟩))) frames') := by
    intro v v' hv
    have hclass : ClassObject.Alike L
        ⟨v.store.nextId, name.lexeme, superclass, methodTable v.chain methods⟩
        ⟨v'.store.nextId, name'.lexeme, superclass', methodTable v'.chain methods'⟩ := by
      rw [hv.store.nextId, L.lexeme hname, hv.chain]
      cases hsuperclass with
      | none => exact .root (methodTable_alike v.chain h)
      | some hparent => exact .derived hparent (methodTable_alike v.chain h)
    have hworld := (hv.withStore hv.store.newIdentity).withChain w.chain
    rw [hw.chain]
    exact complete_alike (hworld.define hname (.callable (.classObject hclass))) hf
  have hdeclared := hw.define hname .nil
  cases hsuperclass with
  | none => exact hfinish hdeclared
  | @some parent parent' hparent =>
    have hentered : ((w.define name.lexeme .nil).enterScope w.chain
          (Table.empty.insert "super" (.callable (.classObject parent)))).Alike L
        ((w'.define name'.lexeme .nil).enterScope w'.chain
          (Table.empty.insert "super" (.callable (.classObject parent')))) := by
      rw [hw.chain]
      exact hdeclared.enterScope w.chain (Table.Alike.empty.insert _ (.callable (.classObject hparent)))
    exact hfinish hentered

/-! ## Steps -/

theorem stepEval_alike (hw : w.Alike L w') (hf : List.Forall₂ (Frame.Alike L) frames frames')
    {e e' : Expr} (h : e.Alike L e') : (stepEval w frames e).Alike L (stepEval w' frames' e') := by
  cases h with
  | literal value => exact ⟨hw, .value (Value.ofLiteral_alike value), hf⟩
  | unary hoperator hoperand => exact ⟨hw, .eval hoperand, .cons (.unary hoperator) hf⟩
  | binary hleft hoperator hright =>
    exact ⟨hw, .eval hleft, .cons (.binaryLeft hoperator hright) hf⟩
  | logical hleft hoperator hright => exact ⟨hw, .eval hleft, .cons (.logical hoperator hright) hf⟩
  | grouping hinner => exact ⟨hw, .eval hinner, hf⟩
  | «variable» htarget => exact read_alike hw hf htarget
  | assign htarget hvalue => exact ⟨hw, .eval hvalue, .cons (.assign htarget) hf⟩
  | call hcallee hparen harguments =>
    exact ⟨hw, .eval hcallee, .cons (.callee hparen harguments) hf⟩
  | get hobject hname => exact ⟨hw, .eval hobject, .cons (.get hname) hf⟩
  | set hobject hname hvalue => exact ⟨hw, .eval hobject, .cons (.setObject hname hvalue) hf⟩
  | thisObject hkeyword => exact read_alike hw hf hkeyword
  | superMethod hkeyword hmethod => exact readSuper_alike hw hf hkeyword hmethod

theorem stepExec_alike (hw : w.Alike L w') (hf : List.Forall₂ (Frame.Alike L) frames frames')
    {s s' : Stmt} (h : s.Alike L s') : (stepExec w frames s).Alike L (stepExec w' frames' s') := by
  cases h with
  | expression hvalue => exact ⟨hw, .eval hvalue, .cons .discard hf⟩
  | print hkeyword hvalue => exact ⟨hw, .eval hvalue, .cons (.print hkeyword) hf⟩
  | «variable» hname hinitializer =>
    cases hinitializer with
    | none => exact complete_alike (hw.define hname .nil) hf
    | some he => exact ⟨hw, .eval he, .cons (.define hname) hf⟩
  | block hbody =>
    have hentered := hw.enterScope w.chain .empty
    refine ⟨?_, .execAll hbody, ?_⟩
    · change (w.enterScope w.chain .empty).Alike L (w'.enterScope w'.chain .empty)
      rw [hw.chain]
      exact hentered
    · change List.Forall₂ (Frame.Alike L) (.block w.chain :: frames) (.block w'.chain :: frames')
      rw [hw.chain]
      exact .cons (.block w.chain) hf
  | conditional hcondition hthen helse => exact ⟨hw, .eval hcondition, .cons (.branch hthen helse) hf⟩
  | loop hcondition hbody => exact ⟨hw, .eval hcondition, .cons (.loopTest hcondition hbody) hf⟩
  | function hdeclaration => exact declareFunction_alike hw hf hdeclaration
  | returnWith hkeyword hvalue =>
    cases hvalue with
    | none => exact ⟨hw, .done (.returned .nil), hf⟩
    | some he => exact ⟨hw, .eval he, .cons .returning hf⟩
  | classDeclaration hname hsuperclass hmethods =>
    cases hsuperclass with
    | none => exact declareClass_alike hw hf hname .none hmethods
    | some hparent =>
      exact ⟨hw, .eval hparent, .cons (.superclass hname (hparent.nameOr hname) hmethods) hf⟩

theorem stepValue_alike (hw : w.Alike L w') (hf : List.Forall₂ (Frame.Alike L) frames frames')
    {v v' : Value} (hv : v.Alike L v') {frame frame' : Frame} (h : frame.Alike L frame') :
    (stepValue w v frames frame).Alike L (stepValue w' v' frames' frame') := by
  -- A frame that waits for the end of a statement goes on as if it had come.
  have hdone : Machine.Alike L ⟨w, .done .normal, frame :: frames⟩
      ⟨w', .done .normal, frame' :: frames'⟩ := ⟨hw, .done .normal, .cons h hf⟩
  cases h with
  | unary hoperator => exact settle_alike hw hf (applyUnary_alike hoperator hv)
  | binaryLeft hoperator hright => exact ⟨hw, .eval hright, .cons (.binaryRight hoperator hv) hf⟩
  | binaryRight hoperator hleft => exact settle_alike hw hf (applyBinary_alike hoperator hleft hv)
  | logical hoperator hright =>
    simp only [stepValue]
    rw [decidesLogical_alike hoperator hv]
    split
    · exact ⟨hw, .value hv, hf⟩
    · exact ⟨hw, .eval hright, hf⟩
  | assign htarget => exact write_alike hw hf htarget hv
  | callee hparen harguments => exact evalArguments_alike hw hf hv hparen .nil harguments
  | argument hcallee hparen hbefore hrest =>
    exact evalArguments_alike hw hf hcallee hparen (List.rel_append hbefore (.cons hv .nil)) hrest
  | get hname => exact readProperty_alike hw hf hv hname
  | setObject hname hvalue =>
    cases hv with
    | object hobject => exact ⟨hw, .eval hvalue, .cons (.setValue hobject hname) hf⟩
    | _ => exact ⟨hw, .fault (.intro _ hname), hf⟩
  | setValue hobject hname =>
    refine ⟨hw.withStore ?_, .value hv, hf⟩
    rw [L.lexeme hname]
    exact hw.store.setField hobject _ hv
  | discard => exact complete_alike hw hf
  | print hkeyword =>
    simp only [stepValue]
    rw [hw.sink, hv.text]
    split
    · exact ⟨hw, .fault (.intro _ hkeyword), hf⟩
    · exact complete_alike (hw.print _) hf
  | define hname => exact complete_alike (hw.define hname hv) hf
  | branch hthen helse =>
    simp only [stepValue]
    rw [hv.isTruthy]
    split
    · exact ⟨hw, .exec hthen, hf⟩
    · cases helse with
      | none => exact complete_alike hw hf
      | some hs => exact ⟨hw, .exec hs, hf⟩
  | loopTest hcondition hbody =>
    simp only [stepValue]
    rw [hv.isTruthy]
    split
    · exact ⟨hw, .exec hbody, .cons (.loopBody hcondition hbody) hf⟩
    · exact complete_alike hw hf
  | returning => exact ⟨hw, .done (.returned hv), hf⟩
  | superclass hname hparent hmethods =>
    cases hv with
    | callable hcallable =>
      cases hcallable with
      | classObject hclass => exact declareClass_alike hw hf hname (.some hclass) hmethods
      | _ => exact ⟨hw, .fault (.intro _ hparent), hf⟩
    | _ => exact ⟨hw, .fault (.intro _ hparent), hf⟩
  | construct hobject => exact ⟨hw, .value (.object hobject), hf⟩
  | _ => exact hdone

theorem stepDone_alike (hw : w.Alike L w') (hf : List.Forall₂ (Frame.Alike L) frames frames')
    {completion completion' : Completion} (hc : completion.Alike L completion')
    {frame frame' : Frame} (h : frame.Alike L frame') :
    (stepDone w completion frames frame).Alike L (stepDone w' completion' frames' frame') := by
  -- A frame that waits for a value is given `nil`.
  have hnil : Machine.Alike L ⟨w, .value .nil, frame :: frames⟩ ⟨w', .value .nil, frame' :: frames'⟩ :=
    ⟨hw, .value .nil, .cons h hf⟩
  cases h with
  | sequence hrest =>
    cases hc with
    | normal => exact ⟨hw, .execAll hrest, hf⟩
    | returned hv => exact ⟨hw, .done (.returned hv), hf⟩
  | loopBody hcondition hbody =>
    cases hc with
    | normal => exact ⟨hw, .eval hcondition, .cons (.loopTest hcondition hbody) hf⟩
    | returned hv => exact ⟨hw, .done (.returned hv), hf⟩
  | block outer => exact ⟨hw.withChain outer, .done hc, hf⟩
  | call caller hclosure => exact finishCall_alike hw hf caller hclosure hc
  | _ => exact hnil

theorem unwind_alike (hw : w.Alike L w') {frame frame' : Frame} (h : frame.Alike L frame') :
    (unwind w frame).Alike L (unwind w' frame') := by
  cases h with
  | block outer => exact hw.withChain outer
  | call caller _ => exact hw.leaveCall caller
  | _ => exact hw

end Parts

section Runs
variable {L : Likeness} {m m' : Machine}

/-- A step leads from like machines to like machines. -/
theorem step_alike (h : m.Alike L m') : m.step.Alike L m'.step := by
  obtain ⟨w, c, frames⟩ := m
  obtain ⟨w', c', frames'⟩ := m'
  obtain ⟨hw, hc, hf⟩ := h
  cases hc with
  | eval he => exact stepEval_alike hw hf he
  | exec hs => exact stepExec_alike hw hf hs
  | execAll hbody =>
    cases hbody with
    | nil => exact complete_alike hw hf
    | cons hs hrest => exact ⟨hw, .exec hs, .cons (.sequence hrest) hf⟩
  | value hv =>
    cases hf with
    | nil => exact ⟨hw, .value hv, .nil⟩
    | cons hframe hf => exact stepValue_alike hw hf hv hframe
  | done hc =>
    cases hf with
    | nil => exact ⟨hw, .done hc, .nil⟩
    | cons hframe hf => exact stepDone_alike hw hf hc hframe
  | fault hfault =>
    cases hf with
    | nil => exact ⟨hw, .fault hfault, .nil⟩
    | cons hframe hf => exact ⟨unwind_alike hw hframe, .fault hfault, hf⟩

/-- So does any number of steps. -/
theorem run_alike (n : Nat) (h : m.Alike L m') : (m.run n).Alike L (m'.run n) := by
  induction n generalizing m m' with
  | zero => exact h
  | succ n ih =>
    rw [run_succ, run_succ]
    exact ih (step_alike h)

end Runs
end Machine

/-! ## Programs -/

section Programs
variable {L : Likeness}

theorem World.Alike.program {w w' : World} (hw : w.Alike L w') {program program' : List Stmt}
    (h : List.Forall₂ (Stmt.Alike L) program program') :
    (w.program program).Alike L (w'.program program') :=
  ⟨hw, .execAll h, .nil⟩

/-- Where two runs come to like machines, both programs have come to their end or neither has, and that
without a fault or with like faults. -/
theorem World.interpret?_alike {w w' : World} {program program' : List Stmt} {fuel fuel' : Nat}
    (h : (Machine.run fuel (w.program program)).Alike L (Machine.run fuel' (w'.program program'))) :
    Option.Rel (fun result result' => Option.Rel (RuntimeFault.Alike L) result.1 result'.1 ∧
        result.2.Alike L result'.2)
      (w.interpret? fuel program) (w'.interpret? fuel' program') := by
  unfold World.interpret?
  revert h
  generalize Machine.run fuel (w.program program) = m
  generalize Machine.run fuel' (w'.program program') = m'
  intro h
  obtain ⟨world, c, frames⟩ := m
  obtain ⟨world', c', frames'⟩ := m'
  obtain ⟨hworld, hc, hf⟩ := h
  cases hc <;> cases hf
  case done.nil => exact .some ⟨.none, hworld⟩
  case fault.nil hfault => exact .some ⟨.some hfault, hworld⟩
  all_goals exact .none

end Programs

end LoxLang
