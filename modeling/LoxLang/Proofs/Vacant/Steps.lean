import LoxLang.Proofs.Machine.Names
import LoxLang.Proofs.Vacant.Values

/-!
Machines go on alike with and without some scopes. What a step looks at or writes to through the active
chain are the scopes that it touches (`Machine.Touches`). As long as all of them have images, a step leads
from a machine and its image to a machine and its image (`step_imaged`).
-/
namespace LoxLang
set_option autoImplicit false

/-! ## Machines -/

inductive Control.Imaged (I : Images) : Control → Control → Prop
  | eval (e : Expr) : Imaged I (.eval e) (.eval e)
  | exec (s : Stmt) : Imaged I (.exec s) (.exec s)
  | execAll (body : List Stmt) : Imaged I (.execAll body) (.execAll body)
  | value {v v' : Value} : v.Imaged I v' → Imaged I (.value v) (.value v')
  | normal : Imaged I (.done .normal) (.done .normal)
  | returned {v v' : Value} : v.Imaged I v' →
    Imaged I (.done (.returned v)) (.done (.returned v'))
  | fault (f : RuntimeFault) : Imaged I (.fault f) (.fault f)

/-- A frame that holds no value and no chain. -/
def Frame.Bare : Frame → Prop
  | .binaryRight _ _ => False
  | .argument _ _ _ _ => False
  | .setValue _ _ => False
  | .construct _ => False
  | .block _ => False
  | .call _ _ => False
  | _ => True

inductive Frame.Imaged (I : Images) : Frame → Frame → Prop
  | bare {frame : Frame} : frame.Bare → Imaged I frame frame
  | binaryRight (operator : Token) {left left' : Value} : left.Imaged I left' →
    Imaged I (.binaryRight operator left) (.binaryRight operator left')
  | argument {callee callee' : Value} (paren : Token) {before before' : List Value}
    (rest : List Expr) : callee.Imaged I callee' → List.Forall₂ (Value.Imaged I) before before' →
    Imaged I (.argument callee paren before rest) (.argument callee' paren before' rest)
  | setValue {object object' : ObjectRef} (name : Token) : object.Imaged I object' →
    Imaged I (.setValue object name) (.setValue object' name)
  | construct {object object' : ObjectRef} : object.Imaged I object' →
    Imaged I (.construct object) (.construct object')
  | block {outer outer' : Chain} : outer.Imaged I outer' →
    Imaged I (.block outer) (.block outer')
  | call {caller caller' : Chain} {closure closure' : Closure} : caller.Imaged I caller' →
    closure.Callable I closure' → Imaged I (.call caller closure) (.call caller' closure')

abbrev Frames.Imaged (I : Images) : List Frame → List Frame → Prop :=
  List.Forall₂ (Frame.Imaged I)

/-- A machine and its image. -/
structure Machine.Imaged (I : Images) (m m' : Machine) : Prop where
  world : m.world.Imaged I m'.world
  control : m.control.Imaged I m'.control
  frames : Frames.Imaged I m.frames m'.frames

/-- A machine and its image, perhaps with more scopes that have images. -/
def Machine.Follow (I : Images) (m m' : Machine) : Prop :=
  ∃ I', I.Extends I' ∧ m.Imaged I' m'

section Mono
variable {I I' : Images}

theorem Frame.Imaged.mono (hle : I <+: I') {frame frame' : Frame} (h : frame.Imaged I frame') :
    frame.Imaged I' frame' := by
  cases h with
  | bare hbare => exact .bare hbare
  | binaryRight operator hleft => exact .binaryRight operator (hleft.mono hle)
  | argument paren rest hcallee hbefore =>
    exact .argument paren rest (hcallee.mono hle) (Value.Imaged.monoAll hle hbefore)
  | setValue name hobject => exact .setValue name (hobject.mono hle)
  | construct hobject => exact .construct (hobject.mono hle)
  | block houter => exact .block (houter.mono hle)
  | call hcaller hclosure => exact .call (hcaller.mono hle) (hclosure.mono hle)

theorem Frames.Imaged.mono (hle : I <+: I') {frames frames' : List Frame}
    (h : Frames.Imaged I frames frames') : Frames.Imaged I' frames frames' :=
  List.Forall₂.imp (fun _ _ hframe => hframe.mono hle) h

end Mono

namespace Machine

/-! ## Scopes that a step touches -/

/-- The scopes to which the next step goes along the active chain. -/
inductive Touches : Machine → ScopeId → Prop
  | reads {w : World} {e : Expr} {target : Reference} {frames : List Frame} {distance : Nat}
    {id : ScopeId} : e = .variable target ∨ e = .thisObject target →
    w.distances.get? target = some distance → w.chain[distance]? = some id →
    Touches ⟨w, .eval e, frames⟩ id
  | writes {w : World} {v : Value} {target : Reference} {frames : List Frame} {distance : Nat}
    {id : ScopeId} : w.distances.get? target = some distance → w.chain[distance]? = some id →
    Touches ⟨w, .value v, .assign target :: frames⟩ id
  | super {w : World} {keyword : Reference} {name : Token} {frames : List Frame} {distance : Nat}
    {id : ScopeId} : w.distances.get? keyword = some distance → w.chain[distance]? = some id →
    Touches ⟨w, .eval (.superMethod keyword name), frames⟩ id
  | receiver {w : World} {keyword : Reference} {name : Token} {frames : List Frame} {distance : Nat}
    {id : ScopeId} : w.distances.get? keyword = some (distance + 1) →
    w.chain[distance]? = some id → Touches ⟨w, .eval (.superMethod keyword name), frames⟩ id
  | declares {m : Machine} {x : String} {id : ScopeId} : m.Declares x →
    m.world.chain.head? = some id → Touches m id

/-- All scopes that the next step touches have images. -/
def KeepsTo (I : Images) (m : Machine) : Prop :=
  ∀ id, m.Touches id → ∃ id', I.Keeps id id'

theorem KeepsTo.led {I : Images} {m : Machine} (h : m.KeepsTo I) {x : String} (hx : m.Declares x) :
    m.world.chain.Led I :=
  fun id hid => h id (.declares hx hid)

/-! ## Parts of a step -/

section Parts
variable {I : Images} {w w' : World} {frames frames' : List Frame}

theorem Follow.of_extends {I' : Images} {m m' : Machine} (hle : I.Extends I') (h : m.Follow I' m') :
    m.Follow I m' := by
  obtain ⟨I'', hle', hm⟩ := h
  exact ⟨I'', hle.trans hle', hm⟩

theorem follow {c c' : Control} (hw : w.Imaged I w') (hc : c.Imaged I c')
    (hf : Frames.Imaged I frames frames') : Follow I ⟨w, c, frames⟩ ⟨w', c', frames'⟩ :=
  ⟨I, .refl I, hw, hc, hf⟩

theorem complete_imaged (hw : w.Imaged I w') (hf : Frames.Imaged I frames frames') :
    (complete w frames).Follow I (complete w' frames') :=
  follow hw .normal hf

theorem settle_imaged (hw : w.Imaged I w') (hf : Frames.Imaged I frames frames')
    {result : Except RuntimeFault Value} (hresult : ∀ v, result = .ok v → v.Plain) :
    (settle w frames result).Follow I (settle w' frames' result) := by
  cases result with
  | ok v => exact follow hw (.value (.plain (hresult v rfl))) hf
  | error f => exact follow hw (.fault f) hf

theorem read_imaged (hw : w.Imaged I w') (hf : Frames.Imaged I frames frames') {e : Expr}
    {target : Reference} (he : e = .variable target ∨ e = .thisObject target)
    (hkept : KeepsTo I ⟨w, .eval e, frames⟩) :
    (read w target frames).Follow I (read w' target frames') := by
  unfold read
  obtain ⟨hnone, hnone'⟩ | ⟨v, v', hsome, hsome', hv⟩ := rel_cases
    (hw.read? fun distance id hdistance hid => hkept id (.reads he hdistance hid))
  · rw [hnone, hnone']
    exact follow hw (.fault _) hf
  · rw [hsome, hsome']
    exact follow hw (.value hv) hf

theorem write_imaged (hw : w.Imaged I w') (hf : Frames.Imaged I frames frames') {target : Reference}
    {v v' : Value} (hv : v.Imaged I v') (hkept : KeepsTo I ⟨w, .value v, .assign target :: frames⟩) :
    (write w target v frames).Follow I (write w' target v' frames') := by
  unfold write
  obtain ⟨hnone, hnone'⟩ | ⟨id, id', hsome, hsome', hid⟩ := rel_cases
    (hw.binder? fun distance id hdistance hid => hkept id (.writes hdistance hid))
  · rw [hnone, hnone']
    exact follow hw (.fault _) hf
  · rw [hsome, hsome']
    exact follow (hw.withStore List.prefix_rfl (hw.store.bind hid _ hv)) (.value hv) hf

theorem readProperty_imaged (hw : w.Imaged I w') (hf : Frames.Imaged I frames frames') {v v' : Value}
    (hv : v.Imaged I v') (name : Token) :
    (readProperty w v name frames).Follow I (readProperty w' v' name frames') := by
  cases hv with
  | plain hplain =>
    cases v with
    | object object => exact hplain.elim
    | _ => exact follow hw (.fault _) hf
  | callable hcallable => exact follow hw (.fault _) hf
  | @object object object' hobject =>
    obtain ⟨I', hle, hfound, hstore⟩ := hw.store.property? hobject name.lexeme
    have hworld := hw.withStore hle.le hstore
    unfold readProperty World.onStore
    dsimp only
    revert hfound hworld
    generalize w.store.property? object name.lexeme = found
    generalize w'.store.property? object' name.lexeme = found'
    obtain ⟨found, store⟩ := found
    obtain ⟨found', store'⟩ := found'
    intro hfound hworld
    refine .of_extends hle ?_
    cases hfound with
    | none => exact follow hworld (.fault _) (hf.mono hle.le)
    | some hv => exact follow hworld (.value hv) (hf.mono hle.le)

/-- The same class and object but for chains, or the same fault. -/
inductive PartsImaged (I : Images) :
    Except RuntimeFault (ClassObject × ObjectRef) →
      Except RuntimeFault (ClassObject × ObjectRef) → Prop
  | ok {superclass superclass' : ClassObject} {object object' : ObjectRef} :
    superclass.Imaged I superclass' → object.Imaged I object' →
    PartsImaged I (.ok (superclass, object)) (.ok (superclass', object'))
  | error (f : RuntimeFault) : PartsImaged I (.error f) (.error f)

theorem superParts_imaged (hw : w.Imaged I w') {keyword : Reference} {method : Token}
    (hkept : KeepsTo I ⟨w, .eval (.superMethod keyword method), frames⟩) :
    PartsImaged I (superParts w keyword) (superParts w' keyword) := by
  unfold superParts
  rw [hw.distances]
  cases hdistance : w.distances.get? keyword with
  | none => exact .error _
  | some distance =>
    dsimp only
    obtain ⟨hnone, hnone'⟩ | ⟨v, v', hsome, hsome', hv⟩ := rel_cases
      (hw.store.lookupAt? hw.chain (fun id hid => hkept id (.super hdistance hid)) "super")
    · rw [hnone, hnone']
      exact .error _
    · rw [hsome, hsome']
      cases hv with
      | plain hplain =>
        cases v with
        | callable callable => exact hplain.elim
        | _ => exact .error _
      | object hobject => exact .error _
      | callable hcallable =>
        cases hcallable with
        | clock => exact .error _
        | function id hclosure => exact .error _
        | classObject hclass =>
          cases distance with
          | zero => exact .error _
          | succ inner =>
            dsimp only
            obtain ⟨hnone, hnone'⟩ | ⟨v, v', hsome, hsome', hv⟩ := rel_cases
              (hw.store.lookupAt? hw.chain (fun id hid => hkept id (.receiver hdistance hid)) "this")
            · rw [hnone, hnone']
              exact .error _
            · rw [hsome, hsome']
              cases hv with
              | plain hplain =>
                cases v with
                | object object => exact hplain.elim
                | _ => exact .error _
              | callable hcallable => exact .error _
              | object hobject => exact .ok hclass hobject

theorem readSuper_imaged (hw : w.Imaged I w') (hf : Frames.Imaged I frames frames')
    {keyword : Reference} {method : Token}
    (hkept : KeepsTo I ⟨w, .eval (.superMethod keyword method), frames⟩) :
    (readSuper w keyword method frames).Follow I (readSuper w' keyword method frames') := by
  have hparts := superParts_imaged hw hkept
  unfold readSuper
  revert hparts
  generalize superParts w keyword = parts
  generalize superParts w' keyword = parts'
  intro hparts
  cases hparts with
  | error f => exact follow hw (.fault f) hf
  | @ok superclass superclass' object object' hclass hobject =>
    dsimp only
    obtain ⟨hnone, hnone'⟩ | ⟨found, found', hsome, hsome', hclosure⟩ :=
      rel_cases (hclass.method? method.lexeme)
    · rw [hnone, hnone']
      exact follow hw (.fault _) hf
    · rw [hsome, hsome']
      obtain ⟨I', hle, hv, hstore⟩ := hw.store.newMethod hclosure hobject
      exact .of_extends hle (follow (hw.withStore hle.le hstore) (.value hv) (hf.mono hle.le))

theorem enterBody_imaged (hw : w.Imaged I w') (hf : Frames.Imaged I frames frames')
    {closure closure' : Closure} (hclosure : closure.Callable I closure')
    {arguments arguments' : List Value} (h : List.Forall₂ (Value.Imaged I) arguments arguments') :
    (enterBody w closure arguments frames).Follow I (enterBody w' closure' arguments' frames') := by
  have hbindings : (Table.ofList ((closure.declaration.params.map Token.lexeme).zip arguments)).Agree
      (Value.Imaged I)
      (Table.ofList ((closure.declaration.params.map Token.lexeme).zip arguments')) := by
    refine .ofList ?_
    generalize closure.declaration.params.map Token.lexeme = names
    induction h generalizing names with
    | nil => cases names <;> exact .nil
    | cons hv _ ih =>
      cases names with
      | nil => exact .nil
      | cons name names => exact .cons ⟨rfl, hv⟩ (ih names)
  have hentered := hw.enterScope hclosure.chain hbindings
  have hle := I.extends_concat w'.store.scopes.size
  unfold enterBody
  rw [hclosure.declaration]
  refine ⟨_, hle, ⟨hentered.store, hentered.chain, ?_, hentered.distances, hentered.sink,
    hentered.clock⟩, .execAll _, .cons (.call (hw.chain.mono hle.le) (hclosure.mono hle.le))
    (hf.mono hle.le)⟩
  exact congrArg (· + 1) hentered.depth

theorem construct_imaged (hw : w.Imaged I w') (hf : Frames.Imaged I frames frames')
    {origin origin' : ClassObject} (horigin : origin.Imaged I origin')
    {arguments arguments' : List Value} (h : List.Forall₂ (Value.Imaged I) arguments arguments') :
    (construct w origin arguments frames).Follow I (construct w' origin' arguments' frames') := by
  obtain ⟨hobject, hstore⟩ := hw.store.newObject horigin
  have hworld := hw.withStore List.prefix_rfl hstore
  unfold construct World.onStore
  dsimp only
  obtain ⟨hnone, hnone'⟩ | ⟨init, init', hsome, hsome', hclosure⟩ :=
    rel_cases (horigin.method? initializerName)
  · rw [hnone, hnone']
    exact follow hworld (.value (.object hobject)) hf
  · rw [hsome, hsome']
    obtain ⟨I', hle, hbound, hstore⟩ := hstore.bindMethod hclosure hobject
    exact .of_extends hle (enterBody_imaged (hworld.withStore hle.le hstore)
      (.cons (.construct (hobject.mono hle.le)) (hf.mono hle.le)) hbound
      (Value.Imaged.monoAll hle.le h))

theorem enter_imaged (hw : w.Imaged I w') (hf : Frames.Imaged I frames frames')
    {callable callable' : Callable} (hcallable : callable.Imaged I callable')
    {arguments arguments' : List Value} (h : List.Forall₂ (Value.Imaged I) arguments arguments') :
    (enter w callable arguments frames).Follow I (enter w' callable' arguments' frames') := by
  cases hcallable with
  | clock =>
    obtain ⟨htime, hworld⟩ := hw.readClock
    unfold enter
    dsimp only
    rw [htime]
    exact follow hworld (.value (.plain trivial)) hf
  | function id hclosure => exact enterBody_imaged hw hf hclosure h
  | classObject hclass => exact construct_imaged hw hf hclass h

theorem apply_imaged (hw : w.Imaged I w') (hf : Frames.Imaged I frames frames')
    {callee callee' : Value} (hcallee : callee.Imaged I callee') (paren : Token)
    {arguments arguments' : List Value} (h : List.Forall₂ (Value.Imaged I) arguments arguments') :
    (apply w callee paren arguments frames).Follow I
      (apply w' callee' paren arguments' frames') := by
  cases hcallee with
  | plain hplain =>
    cases callee with
    | callable callable => exact hplain.elim
    | _ => exact follow hw (.fault _) hf
  | object hobject => exact follow hw (.fault _) hf
  | callable hcallable =>
    unfold apply
    dsimp only
    rw [hcallable.arity, ← h.length_eq, hw.depth]
    split
    · exact follow hw (.fault _) hf
    · split
      · exact follow hw (.fault _) hf
      · exact enter_imaged hw hf hcallable h

theorem evalArguments_imaged (hw : w.Imaged I w') (hf : Frames.Imaged I frames frames')
    {callee callee' : Value} (hcallee : callee.Imaged I callee') (paren : Token)
    {before before' : List Value} (hbefore : List.Forall₂ (Value.Imaged I) before before')
    (rest : List Expr) :
    (evalArguments w callee paren before rest frames).Follow I
      (evalArguments w' callee' paren before' rest frames') := by
  cases rest with
  | nil => exact apply_imaged hw hf hcallee paren hbefore
  | cons e rest => exact follow hw (.eval e) (.cons (.argument paren rest hcallee hbefore) hf)

theorem finishCall_imaged (hw : w.Imaged I w') (hf : Frames.Imaged I frames frames')
    {caller caller' : Chain} (hcaller : caller.Imaged I caller') {closure closure' : Closure}
    (hclosure : closure.Callable I closure') {completion completion' : Completion}
    (h : Control.Imaged I (.done completion) (.done completion')) :
    (finishCall w caller closure completion frames).Follow I
      (finishCall w' caller' closure' completion' frames') := by
  have hleft := hw.leaveCall hcaller
  unfold finishCall
  dsimp only
  rw [hclosure.isInitializer, hclosure.declaration]
  split
  · rename_i hinit
    have hkept : ∀ id, closure.chain[0]? = some id → ∃ id', I.Keeps id id' := fun id hid =>
      hclosure.receiver hinit id (by rwa [List.head?_eq_getElem?])
    obtain ⟨hnone, hnone'⟩ | ⟨v, v', hsome, hsome', hv⟩ :=
      rel_cases (hleft.store.lookupAt? hclosure.chain hkept "this")
    · rw [hnone, hnone']
      exact follow hleft (.fault _) hf
    · rw [hsome, hsome']
      exact follow hleft (.value hv) hf
  · cases h with
    | normal => exact follow hleft (.value (.plain trivial)) hf
    | returned hv => exact follow hleft (.value hv) hf

theorem declareFunction_imaged (hw : w.Imaged I w') (hf : Frames.Imaged I frames frames')
    (d : FunctionDeclaration) (hled : w.chain.Led I) :
    (declareFunction w d frames).Follow I (declareFunction w' d frames') := by
  have hclosure : Closure.Callable I ⟨d, w.chain, false⟩ ⟨d, w'.chain, false⟩ :=
    ⟨⟨rfl, hw.chain, rfl⟩, nofun⟩
  obtain ⟨hv, hstore⟩ := hw.store.newFunction hclosure
  exact complete_imaged ((hw.withStore List.prefix_rfl hstore).define hled d.name.lexeme hv) hf

theorem methodTable_imaged {chain chain' : Chain} (hchain : chain.Imaged I chain')
    (methods : List FunctionDeclaration) :
    (methodTable chain methods).Agree (Closure.Imaged I) (methodTable chain' methods) := by
  refine .ofList ?_
  induction methods with
  | nil => exact .nil
  | cons d methods ih => exact .cons ⟨rfl, rfl, hchain, rfl⟩ ih

/-- A class with methods of its own and inherited ones. -/
theorem classObject_imaged (id : Nat) (name : String) {superclass superclass' : Option ClassObject}
    (hsuperclass : Option.Rel (ClassObject.Imaged I) superclass superclass')
    {methods methods' : Table Closure} (h : methods.Agree (Closure.Imaged I) methods') :
    ClassObject.Imaged I ⟨id, name, superclass, methods⟩ ⟨id, name, superclass', methods'⟩ := by
  refine ⟨rfl, rfl, fun x => ?_⟩
  cases hsuperclass with
  | none => exact h x
  | some hparent =>
    rw [ClassObject.method?, ClassObject.method?]
    obtain ⟨hnone, hnone'⟩ | ⟨method, method', hsome, hsome', hmethod⟩ := rel_cases (h x)
    · rw [hnone, hnone']
      exact hparent.method? x
    · rw [hsome, hsome']
      exact .some hmethod

theorem declareClass_imaged (hw : w.Imaged I w') (hf : Frames.Imaged I frames frames') (name : Token)
    {superclass superclass' : Option ClassObject}
    (hsuperclass : Option.Rel (ClassObject.Imaged I) superclass superclass')
    (methods : List FunctionDeclaration) (hled : w.chain.Led I) :
    (declareClass w name superclass methods frames).Follow I
      (declareClass w' name superclass' methods frames') := by
  -- What is left to do once the scope of `super`, if there is one, has been opened.
  have hfinish : ∀ {N : Images} {v v' : World}, I.Extends N → v.Imaged N v' →
      (complete (((v.onStore Store.newIdentity).2.withChain w.chain).define name.lexeme
        (.callable (.classObject ⟨v.store.nextId, name.lexeme, superclass,
          methodTable v.chain methods⟩))) frames).Follow I
      (complete (((v'.onStore Store.newIdentity).2.withChain w'.chain).define name.lexeme
        (.callable (.classObject ⟨v'.store.nextId, name.lexeme, superclass',
          methodTable v'.chain methods⟩))) frames') := by
    intro N v v' hle hv
    have hparents : Option.Rel (ClassObject.Imaged N) superclass superclass' :=
      rel_imp (fun _ _ hparent => hparent.mono hle.le) hsuperclass
    have hclass := classObject_imaged v.store.nextId name.lexeme hparents
      (methodTable_imaged hv.chain methods)
    have hworld := (hv.withStore List.prefix_rfl hv.store.newIdentity).withChain (hw.chain.mono hle.le)
    rw [hv.store.nextId]
    exact .of_extends hle (complete_imaged
      (hworld.define (hled.mono hle.le) name.lexeme (.callable (.classObject hclass)))
      (hf.mono hle.le))
  have hdeclared := hw.define hled name.lexeme (.plain (v := .nil) trivial)
  cases hsuperclass with
  | none => exact hfinish (.refl I) hdeclared
  | @some parent parent' hparent =>
    have hbinding : (Table.empty.insert "super" (Value.callable (.classObject parent))).Agree
        (Value.Imaged I) (Table.empty.insert "super" (.callable (.classObject parent'))) :=
      Table.Agree.empty.insert _ (.callable (.classObject hparent))
    exact hfinish (I.extends_concat _) (hdeclared.enterScope hw.chain hbinding)

/-! ## Steps -/

theorem stepEval_imaged (hw : w.Imaged I w') (hf : Frames.Imaged I frames frames') (e : Expr)
    (hkept : KeepsTo I ⟨w, .eval e, frames⟩) :
    (stepEval w frames e).Follow I (stepEval w' frames' e) := by
  cases e with
  | literal value => exact follow hw (.value (.plain (Value.plain_ofLiteral value))) hf
  | grouping inner => exact follow hw (.eval inner) hf
  | «variable» target => exact read_imaged hw hf (.inl rfl) hkept
  | thisObject keyword => exact read_imaged hw hf (.inr rfl) hkept
  | superMethod keyword method => exact readSuper_imaged hw hf hkept
  | _ => exact follow hw (.eval _) (.cons (.bare trivial) hf)

theorem stepExec_imaged (hw : w.Imaged I w') (hf : Frames.Imaged I frames frames') (s : Stmt)
    (hkept : KeepsTo I ⟨w, .exec s, frames⟩) :
    (stepExec w frames s).Follow I (stepExec w' frames' s) := by
  cases s with
  | «variable» name initializer =>
    cases initializer with
    | none =>
      exact complete_imaged (hw.define (hkept.led (.variable ..)) _ (.plain (v := .nil) trivial)) hf
    | some e => exact follow hw (.eval e) (.cons (.bare trivial) hf)
  | block body =>
    have hle := I.extends_concat w'.store.scopes.size
    exact ⟨_, hle, hw.enterScope hw.chain .empty, .execAll body,
      .cons (.block (hw.chain.mono hle.le)) (hf.mono hle.le)⟩
  | function declaration => exact declareFunction_imaged hw hf declaration (hkept.led (.function ..))
  | returnWith keyword value =>
    cases value with
    | none => exact follow hw (.returned (.plain trivial)) hf
    | some e => exact follow hw (.eval e) (.cons (.bare trivial) hf)
  | classDeclaration name superclass methods =>
    cases superclass with
    | none => exact declareClass_imaged hw hf name .none methods (hkept.led (.root ..))
    | some parent => exact follow hw (.eval _) (.cons (.bare trivial) hf)
  | _ => exact follow hw (.eval _) (.cons (.bare trivial) hf)

theorem stepValue_imaged (hw : w.Imaged I w') {v v' : Value} (hv : v.Imaged I v')
    {frame frame' : Frame} (hframe : frame.Imaged I frame') (hf : Frames.Imaged I frames frames')
    (hkept : KeepsTo I ⟨w, .value v, frame :: frames⟩) :
    (stepValue w v frames frame).Follow I (stepValue w' v' frames' frame') := by
  -- A frame that waits for the end of a statement goes on as if it had come.
  have hdone : Follow I ⟨w, .done .normal, frame :: frames⟩ ⟨w', .done .normal, frame' :: frames'⟩ :=
    follow hw .normal (.cons hframe hf)
  cases hframe with
  | block houter => exact hdone
  | call hcaller hclosure => exact hdone
  | binaryRight operator hleft =>
    simp only [stepValue]
    rw [hleft.applyBinary_eq hv]
    exact settle_imaged hw hf fun u hu => plain_applyBinary hu
  | argument paren rest hcallee hbefore =>
    exact evalArguments_imaged hw hf hcallee paren
      (List.rel_append hbefore (.cons hv .nil)) rest
  | setValue name hobject =>
    exact follow (hw.withStore List.prefix_rfl (hw.store.setField hobject name.lexeme hv))
      (.value hv) hf
  | construct hobject => exact follow hw (.value (.object hobject)) hf
  | bare hbare =>
    cases frame with
    | unary operator =>
      simp only [stepValue]
      rw [hv.applyUnary_eq operator]
      exact settle_imaged hw hf fun u hu => plain_applyUnary hu
    | binaryLeft operator right =>
      exact follow hw (.eval right) (.cons (.binaryRight operator hv) hf)
    | logical operator right =>
      simp only [stepValue]
      rw [hv.decidesLogical_eq operator]
      split
      · exact follow hw (.value hv) hf
      · exact follow hw (.eval right) hf
    | assign target => exact write_imaged hw hf hv hkept
    | callee paren arguments => exact evalArguments_imaged hw hf hv paren .nil arguments
    | get name => exact readProperty_imaged hw hf hv name
    | setObject name value =>
      cases hv with
      | plain hplain =>
        cases v with
        | object object => exact hplain.elim
        | _ => exact follow hw (.fault _) hf
      | callable hcallable => exact follow hw (.fault _) hf
      | object hobject => exact follow hw (.eval value) (.cons (.setValue name hobject) hf)
    | discard => exact complete_imaged hw hf
    | print keyword =>
      simp only [stepValue]
      rw [hw.sink, hv.text]
      split
      · exact follow hw (.fault _) hf
      · exact complete_imaged (hw.print v.text) hf
    | define name =>
      exact complete_imaged (hw.define (hkept.led (.initialized ..)) name.lexeme hv) hf
    | branch thenBranch elseBranch =>
      simp only [stepValue]
      rw [hv.isTruthy]
      split
      · exact follow hw (.exec thenBranch) hf
      · cases elseBranch with
        | none => exact complete_imaged hw hf
        | some s => exact follow hw (.exec s) hf
    | loopTest condition body =>
      simp only [stepValue]
      rw [hv.isTruthy]
      split
      · exact follow hw (.exec body) (.cons (.bare trivial) hf)
      · exact complete_imaged hw hf
    | returning => exact follow hw (.returned hv) hf
    | superclass name parent methods =>
      cases hv with
      | plain hplain =>
        cases v with
        | callable callable => exact hplain.elim
        | _ => exact follow hw (.fault _) hf
      | object hobject => exact follow hw (.fault _) hf
      | callable hcallable =>
        cases hcallable with
        | clock => exact follow hw (.fault _) hf
        | function id hclosure => exact follow hw (.fault _) hf
        | classObject hclass =>
          exact declareClass_imaged hw hf name (.some hclass) methods (hkept.led (.heir ..))
    | loopBody condition body => exact hdone
    | sequence rest => exact hdone
    | _ => exact hbare.elim

theorem stepDone_imaged (hw : w.Imaged I w') {completion completion' : Completion}
    (hc : Control.Imaged I (.done completion) (.done completion')) {frame frame' : Frame}
    (hframe : frame.Imaged I frame') (hf : Frames.Imaged I frames frames') :
    (stepDone w completion frames frame).Follow I (stepDone w' completion' frames' frame') := by
  -- A frame that waits for a value is given `nil`.
  have hnil : Follow I ⟨w, .value .nil, frame :: frames⟩ ⟨w', .value .nil, frame' :: frames'⟩ :=
    follow hw (.value (.plain trivial)) (.cons hframe hf)
  cases hframe with
  | block houter => exact follow (hw.withChain houter) hc hf
  | call hcaller hclosure => exact finishCall_imaged hw hf hcaller hclosure hc
  | bare hbare =>
    cases frame with
    | sequence rest =>
      cases hc with
      | normal => exact follow hw (.execAll rest) hf
      | returned hv => exact follow hw (.returned hv) hf
    | loopBody condition body =>
      cases hc with
      | normal => exact follow hw (.eval condition) (.cons (.bare trivial) hf)
      | returned hv => exact follow hw (.returned hv) hf
    | block outer => exact hbare.elim
    | call caller closure => exact hbare.elim
    | _ => exact hnil
  | _ => exact hnil

theorem stepFault_imaged (hw : w.Imaged I w') (f : RuntimeFault) {frame frame' : Frame}
    (hframe : frame.Imaged I frame') (hf : Frames.Imaged I frames frames') :
    Follow I ⟨unwind w frame, .fault f, frames⟩ ⟨unwind w' frame', .fault f, frames'⟩ := by
  cases hframe with
  | block houter => exact follow (hw.withChain houter) (.fault f) hf
  | call hcaller _ => exact follow (hw.leaveCall hcaller) (.fault f) hf
  | bare hbare =>
    cases frame with
    | block outer => exact hbare.elim
    | call caller closure => exact hbare.elim
    | _ => exact follow hw (.fault f) hf
  | _ => exact follow hw (.fault f) hf

end Parts

/-- If all scopes that it touches have images, a step leads to a machine and its image. -/
theorem step_imaged {I : Images} {m m' : Machine} (h : m.Imaged I m') (hkept : m.KeepsTo I) :
    m.step.Follow I m'.step := by
  obtain ⟨w, c, frames⟩ := m
  obtain ⟨w', c', frames'⟩ := m'
  obtain ⟨hw, hc, hf⟩ := h
  dsimp only at hw hc hf
  cases hc with
  | eval e => exact stepEval_imaged hw hf e hkept
  | exec s => exact stepExec_imaged hw hf s hkept
  | execAll body =>
    cases body with
    | nil => exact complete_imaged hw hf
    | cons s rest => exact follow hw (.exec s) (.cons (.bare trivial) hf)
  | value hv =>
    cases hf with
    | nil => exact follow hw (.value hv) .nil
    | cons hframe hf => exact stepValue_imaged hw hv hframe hf hkept
  | normal =>
    cases hf with
    | nil => exact follow hw .normal .nil
    | cons hframe hf => exact stepDone_imaged hw .normal hframe hf
  | returned hv =>
    cases hf with
    | nil => exact follow hw (.returned hv) .nil
    | cons hframe hf => exact stepDone_imaged hw (.returned hv) hframe hf
  | fault f =>
    cases hf with
    | nil => exact follow hw (.fault f) .nil
    | cons hframe hf => exact stepFault_imaged hw f hframe hf

/-- A machine and its image come to their ends together. -/
theorem Imaged.halted {I : Images} {m m' : Machine} (h : m.Imaged I m') : m'.halted = m.halted := by
  obtain ⟨w, c, frames⟩ := m
  obtain ⟨w', c', frames'⟩ := m'
  obtain ⟨hw, hc, hf⟩ := h
  dsimp only at hc hf
  cases hc <;> cases hf <;> rfl

end Machine

end LoxLang
