import LoxLang.Machine.Step
import LoxLang.Proofs.Machine.Lifting
import LoxLang.Proofs.Renaming.Values

/-!
Machines go on alike when a local variable gets another name. The code of a machine stands in the scopes
of its active chain and has their marks; a frame that has changed the chain knows the chain around it, and
so the marks of the code below it (`Frames.Renamed`). `step_renamed` says that a step leads from related
machines to related ones, so that after any number of steps (`run_renamed`) the same lines are printed and a
fault is the same but for the new name in it.
-/
namespace LoxLang
set_option autoImplicit false

inductive Completion.Renamed (ρ : Renaming) (M : Marks) : Completion → Completion → Prop
  | normal : Renamed ρ M .normal .normal
  | returned {v v' : Value} : v.Renamed ρ M v' → Renamed ρ M (.returned v) (.returned v')

inductive Control.Renamed (ρ : Renaming) (M marks : Marks) : Control → Control → Prop
  | eval {e e' : Expr} : e.Renamed ρ marks e' → Renamed ρ M marks (.eval e) (.eval e')
  | exec {s s' : Stmt} : s.Renamed ρ marks s' → Renamed ρ M marks (.exec s) (.exec s')
  | execAll {body body' : List Stmt} : Stmt.RenamedAll ρ marks body body' →
    Renamed ρ M marks (.execAll body) (.execAll body')
  | value {v v' : Value} : v.Renamed ρ M v' → Renamed ρ M marks (.value v) (.value v')
  | done {completion completion' : Completion} : completion.Renamed ρ M completion' →
    Renamed ρ M marks (.done completion) (.done completion')
  | fault {f f' : RuntimeFault} : f.Renamed ρ f' → Renamed ρ M marks (.fault f) (.fault f')

/-- A frame that goes on in the same chain. -/
inductive Frame.Renamed (ρ : Renaming) (M marks : Marks) : Frame → Frame → Prop
  | unary (operator : Token) : Renamed ρ M marks (.unary operator) (.unary operator)
  | binaryLeft (operator : Token) {right right' : Expr} : right.Renamed ρ marks right' →
    Renamed ρ M marks (.binaryLeft operator right) (.binaryLeft operator right')
  | binaryRight (operator : Token) {left left' : Value} : left.Renamed ρ M left' →
    Renamed ρ M marks (.binaryRight operator left) (.binaryRight operator left')
  | logical (operator : Token) {right right' : Expr} : right.Renamed ρ marks right' →
    Renamed ρ M marks (.logical operator right) (.logical operator right')
  | assign {target target' : Reference} : target.Renamed ρ marks target' →
    Renamed ρ M marks (.assign target) (.assign target')
  | callee (paren : Token) {arguments arguments' : List Expr} :
    List.Forall₂ (Expr.Renamed ρ marks) arguments arguments' →
    Renamed ρ M marks (.callee paren arguments) (.callee paren arguments')
  | argument {callee callee' : Value} (paren : Token) {before before' : List Value}
    {rest rest' : List Expr} : callee.Renamed ρ M callee' →
    List.Forall₂ (Value.Renamed ρ M) before before' → List.Forall₂ (Expr.Renamed ρ marks) rest rest' →
    Renamed ρ M marks (.argument callee paren before rest) (.argument callee' paren before' rest')
  | get (name : Token) : Renamed ρ M marks (.get name) (.get name)
  | setObject (name : Token) {value value' : Expr} : value.Renamed ρ marks value' →
    Renamed ρ M marks (.setObject name value) (.setObject name value')
  | setValue {object object' : ObjectRef} (name : Token) : object.Renamed ρ M object' →
    Renamed ρ M marks (.setValue object name) (.setValue object' name)
  | discard : Renamed ρ M marks .discard .discard
  | print (keyword : Token) : Renamed ρ M marks (.print keyword) (.print keyword)
  | define {name name' : Token} : name.Renamed ρ marks.here name' →
    Renamed ρ M marks (.define name) (.define name')
  | branch {thenBranch thenBranch' : Stmt} {elseBranch elseBranch' : Option Stmt} :
    thenBranch.Renamed ρ marks thenBranch' →
    Option.Rel (Stmt.Renamed ρ marks) elseBranch elseBranch' →
    Renamed ρ M marks (.branch thenBranch elseBranch) (.branch thenBranch' elseBranch')
  | loopTest {condition condition' : Expr} {body body' : Stmt} :
    condition.Renamed ρ marks condition' → body.Renamed ρ marks body' →
    Renamed ρ M marks (.loopTest condition body) (.loopTest condition' body')
  | loopBody {condition condition' : Expr} {body body' : Stmt} :
    condition.Renamed ρ marks condition' → body.Renamed ρ marks body' →
    Renamed ρ M marks (.loopBody condition body) (.loopBody condition' body')
  | returning : Renamed ρ M marks .returning .returning
  | superclass {name parent parent' : Token} {methods methods' : List FunctionDeclaration} :
    name.Renamed ρ marks.here name → parent'.line = parent.line →
    FunctionDeclaration.RenamedAll ρ (false :: false :: marks) methods methods' →
    Renamed ρ M marks (.superclass name parent methods) (.superclass name parent' methods')
  | sequence {rest rest' : List Stmt} : Stmt.RenamedAll ρ marks rest rest' →
    Renamed ρ M marks (.sequence rest) (.sequence rest')
  | construct {object object' : ObjectRef} : object.Renamed ρ M object' →
    Renamed ρ M marks (.construct object) (.construct object')

/-- A renamed superclass is blamed on the line on which the superclass is. -/
theorem Expr.Renamed.line_nameOr {ρ : Renaming} {marks : Marks} {e e' : Expr}
    (h : e.Renamed ρ marks e') (name : Token) : (e'.nameOr name).line = (e.nameOr name).line := by
  cases h with
  | «variable» htarget => exact htarget.name.line
  | _ => rfl

/-- Frames that wait inside a chain with some marks. -/
inductive Frames.Renamed (ρ : Renaming) (M : Marks) : Marks → List Frame → List Frame → Prop
  | nil {marks : Marks} : Renamed ρ M marks [] []
  | cons {marks : Marks} {frame frame' : Frame} {frames frames' : List Frame} :
    frame.Renamed ρ M marks frame' → Renamed ρ M marks frames frames' →
    Renamed ρ M marks (frame :: frames) (frame' :: frames')
  | block {marks others : Marks} {outer : Chain} {frames frames' : List Frame} :
    outer.Marked M others → Renamed ρ M others frames frames' →
    Renamed ρ M marks (.block outer :: frames) (.block outer :: frames')
  | call {marks others : Marks} {caller : Chain} {closure closure' : Closure}
    {frames frames' : List Frame} : caller.Marked M others → closure.Renamed ρ M [] closure' →
    Renamed ρ M others frames frames' →
    Renamed ρ M marks (.call caller closure :: frames) (.call caller closure' :: frames')

/-- Machines before and after, for some marks of the scopes there are and of those that are active. -/
def Machine.Renamed (ρ : Renaming) (m m' : Machine) : Prop :=
  ∃ M marks, m.world.Renamed ρ M marks m'.world ∧ m.control.Renamed ρ M marks m'.control ∧
    Frames.Renamed ρ M marks m.frames m'.frames

/-! ## More scopes -/

section Mono
variable {ρ : Renaming} {M M' marks : Marks}

theorem Value.Renamed.monoAll (hle : M <+: M') {values values' : List Value}
    (h : List.Forall₂ (Value.Renamed ρ M) values values') :
    List.Forall₂ (Value.Renamed ρ M') values values' :=
  h.imp fun _ _ hv => hv.mono hle

theorem ObjectRef.Renamed.mono (hle : M <+: M') {object object' : ObjectRef}
    (h : object.Renamed ρ M object') : object.Renamed ρ M' object' :=
  ⟨h.id, h.origin.mono hle⟩

theorem Frame.Renamed.mono (hle : M <+: M') {frame frame' : Frame} (h : frame.Renamed ρ M marks frame') :
    frame.Renamed ρ M' marks frame' := by
  cases h with
  | unary operator => exact .unary operator
  | binaryLeft operator hright => exact .binaryLeft operator hright
  | binaryRight operator hleft => exact .binaryRight operator (hleft.mono hle)
  | logical operator hright => exact .logical operator hright
  | assign htarget => exact .assign htarget
  | callee paren harguments => exact .callee paren harguments
  | argument paren hcallee hbefore hrest =>
    exact .argument paren (hcallee.mono hle) (Value.Renamed.monoAll hle hbefore) hrest
  | get name => exact .get name
  | setObject name hvalue => exact .setObject name hvalue
  | setValue name hobject => exact .setValue name (hobject.mono hle)
  | discard => exact .discard
  | print keyword => exact .print keyword
  | define hname => exact .define hname
  | branch hthen helse => exact .branch hthen helse
  | loopTest hcondition hbody => exact .loopTest hcondition hbody
  | loopBody hcondition hbody => exact .loopBody hcondition hbody
  | returning => exact .returning
  | superclass hname hparent hmethods => exact .superclass hname hparent hmethods
  | sequence hrest => exact .sequence hrest
  | construct hobject => exact .construct (hobject.mono hle)

theorem Frames.Renamed.mono (hle : M <+: M') {frames frames' : List Frame}
    (h : Frames.Renamed ρ M marks frames frames') : Frames.Renamed ρ M' marks frames frames' := by
  induction h with
  | nil => exact .nil
  | cons hframe _ ih => exact .cons (hframe.mono hle) ih
  | block houter _ ih => exact .block (houter.mono hle) ih
  | call hcaller hclosure _ ih => exact .call (hcaller.mono hle) (hclosure.mono hle) ih

end Mono

namespace Machine

/-! ## Parts of a step -/

section Parts
variable {ρ : Renaming} {M marks : Marks} {w w' : World} {frames frames' : List Frame}

theorem settle_renamed (hw : w.Renamed ρ M marks w') (hf : Frames.Renamed ρ M marks frames frames')
    {result result' : Except RuntimeFault Value} (h : ResultRenamed ρ M result result') :
    (settle w frames result).Renamed ρ (settle w' frames' result') := by
  cases h with
  | ok hv => exact ⟨M, marks, hw, .value hv, hf⟩
  | error f => exact ⟨M, marks, hw, .fault (.same f), hf⟩

theorem complete_renamed (hw : w.Renamed ρ M marks w')
    (hf : Frames.Renamed ρ M marks frames frames') :
    (complete w frames).Renamed ρ (complete w' frames') :=
  ⟨M, marks, hw, .done .normal, hf⟩

theorem fault_renamed (hw : w.Renamed ρ M marks w') (hf : Frames.Renamed ρ M marks frames frames')
    (f : RuntimeFault) : Machine.Renamed ρ ⟨w, .fault f, frames⟩ ⟨w', .fault f, frames'⟩ :=
  ⟨M, marks, hw, .fault (.same f), hf⟩

theorem undefined_renamed {marked : Bool} {t t' : Token} (h : t.Renamed ρ marked t') :
    t.undefined.Renamed ρ t'.undefined := by
  refine ⟨h.line, ?_⟩
  change RuntimeCause.undefinedVariable t'.lexeme = .undefinedVariable t.lexeme ∨
    RuntimeCause.undefinedVariable t.lexeme = _ ∧ RuntimeCause.undefinedVariable t'.lexeme = _
  rw [h.lexeme]
  rcases ρ.name_cases marked t.lexeme with hkept | ⟨hold, hnew⟩
  · exact .inl (congrArg _ hkept)
  · exact .inr ⟨congrArg _ hold, congrArg _ hnew⟩

theorem read_renamed (hw : w.Renamed ρ M marks w') (hf : Frames.Renamed ρ M marks frames frames')
    {target target' : Reference} (htarget : target.Renamed ρ marks target') :
    (read w target frames).Renamed ρ (read w' target' frames') := by
  unfold read
  obtain ⟨hnone, hnone'⟩ | ⟨v, v', hsome, hsome', hv⟩ := rel_cases (hw.read? htarget)
  · rw [hnone, hnone']
    exact ⟨M, marks, hw, .fault (undefined_renamed htarget.name), hf⟩
  · rw [hsome, hsome']
    exact ⟨M, marks, hw, .value hv, hf⟩

theorem write_renamed (hw : w.Renamed ρ M marks w') (hf : Frames.Renamed ρ M marks frames frames')
    {target target' : Reference} (htarget : target.Renamed ρ marks target') {v v' : Value}
    (hv : v.Renamed ρ M v') : (write w target v frames).Renamed ρ (write w' target' v' frames') := by
  obtain ⟨hbinder, hmark⟩ := hw.binder? htarget
  unfold write
  rw [hbinder]
  cases hid : w.binder? target with
  | none => exact ⟨M, marks, hw, .fault (undefined_renamed htarget.name), hf⟩
  | some id =>
    refine ⟨M, marks, hw.withStore List.prefix_rfl ?_, .value hv, hf⟩
    rw [htarget.name.lexeme]
    exact hw.store.bind (hmark id hid) htarget.name.avoids hv

theorem readProperty_renamed (hw : w.Renamed ρ M marks w')
    (hf : Frames.Renamed ρ M marks frames frames') {v v' : Value} (hv : v.Renamed ρ M v')
    (name : Token) : (readProperty w v name frames).Renamed ρ (readProperty w' v' name frames') := by
  cases hv with
  | @object object object' hobject =>
    obtain ⟨M', hle, hfound, hstore⟩ := hw.store.property? hobject name.lexeme
    have hworld := hw.withStore hle hstore
    unfold readProperty World.onStore
    dsimp only
    revert hfound hworld
    generalize w.store.property? object name.lexeme = found
    generalize w'.store.property? object' name.lexeme = found'
    obtain ⟨found, store⟩ := found
    obtain ⟨found', store'⟩ := found'
    intro hfound hworld
    cases hfound with
    | none => exact fault_renamed hworld (hf.mono hle) _
    | some hv => exact ⟨M', marks, hworld, .value hv, hf.mono hle⟩
  | _ => exact fault_renamed hw hf _

/-- The same class and object but for names, or the same fault. -/
inductive PartsRenamed (ρ : Renaming) (M : Marks) :
    Except RuntimeFault (ClassObject × ObjectRef) →
      Except RuntimeFault (ClassObject × ObjectRef) → Prop
  | ok {superclass superclass' : ClassObject} {object object' : ObjectRef} :
    superclass.Renamed ρ M superclass' → object.Renamed ρ M object' →
    PartsRenamed ρ M (.ok (superclass, object)) (.ok (superclass', object'))
  | error (f : RuntimeFault) : PartsRenamed ρ M (.error f) (.error f)

theorem superParts_renamed (hw : w.Renamed ρ M marks w') (keyword : Reference) :
    PartsRenamed ρ M (superParts w keyword) (superParts w' keyword) := by
  have hlookup := fun distance name (hname : name ∈ Store.reserved) =>
    hw.store.lookupAt? hw.marked distance hname
  unfold superParts
  rw [hw.distances, hw.distances', hw.chain]
  cases ρ.distances.get? keyword with
  | none => exact .error _
  | some distance =>
    dsimp only
    obtain ⟨hnone, hnone'⟩ | ⟨v, v', hsome, hsome', hv⟩ :=
      rel_cases (hlookup distance "super" Store.super_mem_reserved)
    · rw [hnone, hnone']
      exact .error _
    · rw [hsome, hsome']
      cases hv with
      | callable hcallable =>
        cases hcallable with
        | classObject hclass =>
          cases distance with
          | zero => exact .error _
          | succ inner =>
            dsimp only
            obtain ⟨hnone, hnone'⟩ | ⟨v, v', hsome, hsome', hv⟩ :=
              rel_cases (hlookup inner "this" Store.this_mem_reserved)
            · rw [hnone, hnone']
              exact .error _
            · rw [hsome, hsome']
              cases hv with
              | object hobject => exact .ok hclass hobject
              | _ => exact .error _
        | _ => exact .error _
      | _ => exact .error _

theorem readSuper_renamed (hw : w.Renamed ρ M marks w')
    (hf : Frames.Renamed ρ M marks frames frames') (keyword : Reference) (method : Token) :
    (readSuper w keyword method frames).Renamed ρ (readSuper w' keyword method frames') := by
  have hparts := superParts_renamed hw keyword
  unfold readSuper
  revert hparts
  generalize superParts w keyword = parts
  generalize superParts w' keyword = parts'
  intro hparts
  cases hparts with
  | error f => exact fault_renamed hw hf f
  | @ok superclass superclass' object object' hclass hobject =>
    dsimp only
    obtain ⟨hnone, hnone'⟩ | ⟨found, found', hsome, hsome', hclosure⟩ :=
      rel_cases (hclass.method? method.lexeme)
    · rw [hnone, hnone']
      exact fault_renamed hw hf _
    · rw [hsome, hsome']
      obtain ⟨hv, hstore⟩ := hw.store.newMethod hclosure hobject
      have hle : M <+: M ++ [false] := List.prefix_append M [false]
      exact ⟨M ++ [false], marks, hw.withStore hle hstore, .value hv, hf.mono hle⟩

theorem enterBody_renamed (hw : w.Renamed ρ M marks w')
    (hf : Frames.Renamed ρ M marks frames frames') {closure closure' : Closure}
    (hclosure : closure.Renamed ρ M [] closure') {arguments arguments' : List Value}
    (h : List.Forall₂ (Value.Renamed ρ M) arguments arguments') :
    (enterBody w closure arguments frames).Renamed ρ (enterBody w' closure' arguments' frames') := by
  have hcalled := hclosure
  obtain ⟨⟨others, hmarked, hdeclaration⟩, hchain, hinit⟩ := hclosure
  obtain ⟨declaration, chain, isInitializer⟩ := closure
  obtain ⟨declaration', chain', isInitializer'⟩ := closure'
  obtain rfl : chain' = chain := hchain
  cases hdeclaration with
  | intro marked name hparams hbody =>
    have hentered := hw.enterScope hmarked (.ofList (Table.Renamed.zip hparams h))
    have hle : M <+: M ++ [marked] := List.prefix_append M [marked]
    refine ⟨M ++ [marked], marked :: others, ⟨hentered.store, hentered.chain, hentered.marked, ?_,
      hentered.distances, hentered.distances', hentered.sink, hentered.clock⟩, .execAll hbody, ?_⟩
    · exact congrArg (· + 1) hentered.depth
    · rw [enterBody, enterBody, hw.chain]
      exact .call (hw.marked.mono hle) (hcalled.mono hle) (hf.mono hle)

theorem construct_renamed (hw : w.Renamed ρ M marks w')
    (hf : Frames.Renamed ρ M marks frames frames') {origin origin' : ClassObject}
    (horigin : origin.Renamed ρ M origin') {arguments arguments' : List Value}
    (h : List.Forall₂ (Value.Renamed ρ M) arguments arguments') :
    (construct w origin arguments frames).Renamed ρ
      (construct w' origin' arguments' frames') := by
  obtain ⟨hobject, hstore⟩ := hw.store.newObject horigin
  have hworld := hw.withStore List.prefix_rfl hstore
  unfold construct World.onStore
  dsimp only
  obtain ⟨hnone, hnone'⟩ | ⟨init, init', hsome, hsome', hclosure⟩ :=
    rel_cases (horigin.method? initializerName)
  · rw [hnone, hnone']
    exact ⟨M, marks, hworld, .value (.object hobject), hf⟩
  · rw [hsome, hsome']
    obtain ⟨hbound, hstore⟩ := hstore.bindMethod hclosure hobject
    have hle : M <+: M ++ [false] := List.prefix_append M [false]
    exact enterBody_renamed (hworld.withStore hle hstore)
      (.cons (.construct (hobject.mono hle)) (hf.mono hle)) hbound (Value.Renamed.monoAll hle h)

theorem enter_renamed (hw : w.Renamed ρ M marks w')
    (hf : Frames.Renamed ρ M marks frames frames') {callable callable' : Callable}
    (hcallable : callable.Renamed ρ M callable') {arguments arguments' : List Value}
    (h : List.Forall₂ (Value.Renamed ρ M) arguments arguments') :
    (enter w callable arguments frames).Renamed ρ (enter w' callable' arguments' frames') := by
  cases hcallable with
  | clock =>
    obtain ⟨htime, hworld⟩ := hw.readClock
    have hvalue : Value.Renamed ρ M (.number w.readClock.1) (.number w'.readClock.1) := by
      rw [htime]
      exact .number _
    exact ⟨M, marks, hworld, .value hvalue, hf⟩
  | function id hclosure => exact enterBody_renamed hw hf hclosure h
  | classObject hclass => exact construct_renamed hw hf hclass h

theorem apply_renamed (hw : w.Renamed ρ M marks w')
    (hf : Frames.Renamed ρ M marks frames frames') {callee callee' : Value}
    (hcallee : callee.Renamed ρ M callee') (paren : Token) {arguments arguments' : List Value}
    (h : List.Forall₂ (Value.Renamed ρ M) arguments arguments') :
    (apply w callee paren arguments frames).Renamed ρ
      (apply w' callee' paren arguments' frames') := by
  cases hcallee with
  | callable hcallable =>
    unfold apply
    dsimp only
    rw [hcallable.arity, ← h.length_eq, hw.depth]
    split
    · exact fault_renamed hw hf _
    · split
      · exact fault_renamed hw hf _
      · exact enter_renamed hw hf hcallable h
  | _ => exact fault_renamed hw hf _

theorem evalArguments_renamed (hw : w.Renamed ρ M marks w')
    (hf : Frames.Renamed ρ M marks frames frames') {callee callee' : Value}
    (hcallee : callee.Renamed ρ M callee') (paren : Token) {before before' : List Value}
    {rest rest' : List Expr} (hbefore : List.Forall₂ (Value.Renamed ρ M) before before')
    (hrest : List.Forall₂ (Expr.Renamed ρ marks) rest rest') :
    (evalArguments w callee paren before rest frames).Renamed ρ
      (evalArguments w' callee' paren before' rest' frames') := by
  cases hrest with
  | nil => exact apply_renamed hw hf hcallee paren hbefore
  | cons he hrest =>
    exact ⟨M, marks, hw, .eval he, .cons (.argument paren hcallee hbefore hrest) hf⟩

theorem finishCall_renamed (hw : w.Renamed ρ M marks w') {others : Marks}
    (hf : Frames.Renamed ρ M others frames frames') {caller : Chain}
    (hcaller : caller.Marked M others) {closure closure' : Closure}
    (hclosure : closure.Renamed ρ M [] closure') {completion completion' : Completion}
    (h : completion.Renamed ρ M completion') :
    (finishCall w caller closure completion frames).Renamed ρ
      (finishCall w' caller closure' completion' frames') := by
  have hleft := hw.leaveCall hcaller
  obtain ⟨inside, hmarked, -⟩ := hclosure.declared
  unfold finishCall
  dsimp only
  rw [hclosure.isInitializer, hclosure.chain, hclosure.name]
  split
  · obtain ⟨hnone, hnone'⟩ | ⟨v, v', hsome, hsome', hv⟩ :=
      rel_cases (hleft.store.lookupAt? hmarked 0 Store.this_mem_reserved)
    · rw [hnone, hnone']
      exact fault_renamed hleft hf _
    · rw [hsome, hsome']
      exact ⟨M, others, hleft, .value hv, hf⟩
  · cases h with
    | normal => exact ⟨M, others, hleft, .value .nil, hf⟩
    | returned hv => exact ⟨M, others, hleft, .value hv, hf⟩

theorem declareFunction_renamed (hw : w.Renamed ρ M marks w')
    (hf : Frames.Renamed ρ M marks frames frames') {d d' : FunctionDeclaration}
    (hname : d.name.Renamed ρ marks.here d.name) (hd : d.Renamed ρ marks d') :
    (declareFunction w d frames).Renamed ρ (declareFunction w' d' frames') := by
  have hclosure : Closure.Renamed ρ M [] ⟨d, w.chain, false⟩ ⟨d', w'.chain, false⟩ :=
    ⟨⟨marks, hw.marked, hd⟩, hw.chain, rfl⟩
  obtain ⟨hv, hstore⟩ := hw.store.newFunction hclosure
  have hdefined := (hw.withStore List.prefix_rfl hstore).define hname hv
  unfold declareFunction World.onStore
  dsimp only
  rw [hd.name]
  exact complete_renamed hdefined hf

theorem methodTable_renamed {chain : Chain} (hchain : chain.Marked M marks)
    {methods methods' : List FunctionDeclaration}
    (h : FunctionDeclaration.RenamedAll ρ (false :: marks) methods methods') :
    (methodTable chain methods).Renamed ρ false (Closure.Renamed ρ M [false])
      (methodTable chain methods') := by
  have hpairs : List.Forall₂ (FunctionDeclaration.Renamed ρ (false :: marks)) methods methods' :=
    FunctionDeclaration.RenamedAll.forall₂ h
  refine .ofList ?_
  rw [List.forall₂_map_left_iff, List.forall₂_map_right_iff]
  refine hpairs.imp fun d d' hd => ⟨?_, ρ.avoids_false _, ⟨marks, hchain, hd⟩, rfl, ?_⟩
  · rw [ρ.name_false, hd.name]
  · rw [hd.name]

/-- A class with related methods of its own inherits related methods from related classes. -/
theorem classObject_renamed (id : Nat) (name : String) {superclass superclass' : Option ClassObject}
    (hsuperclass : Option.Rel (ClassObject.Renamed ρ M) superclass superclass')
    {methods methods' : Table Closure}
    (h : methods.Renamed ρ false (Closure.Renamed ρ M [false]) methods') :
    ClassObject.Renamed ρ M ⟨id, name, superclass, methods⟩ ⟨id, name, superclass', methods'⟩ := by
  refine ⟨rfl, rfl, fun x => ?_⟩
  have hown := h.get? x
  cases hsuperclass with
  | none => exact hown
  | some hparent =>
    rw [ClassObject.method?, ClassObject.method?]
    obtain ⟨hnone, hnone'⟩ | ⟨method, method', hsome, hsome', hmethod⟩ := rel_cases hown
    · rw [hnone, hnone']
      exact hparent.method? x
    · rw [hsome, hsome']
      exact .some hmethod

theorem declareClass_renamed (hw : w.Renamed ρ M marks w')
    (hf : Frames.Renamed ρ M marks frames frames') {name : Token}
    (hname : name.Renamed ρ marks.here name) {superclass superclass' : Option ClassObject}
    (hsuperclass : Option.Rel (ClassObject.Renamed ρ M) superclass superclass')
    {methods methods' : List FunctionDeclaration}
    (h : FunctionDeclaration.RenamedAll ρ (false :: marks.ofClass superclass) methods methods') :
    (declareClass w name superclass methods frames).Renamed ρ
      (declareClass w' name superclass' methods' frames') := by
  -- What is left to do once the scope of `super`, if there is one, has been opened.
  have hfinish : ∀ {N : Marks} {v v' : World}, M <+: N → v.Renamed ρ N (marks.ofClass superclass) v' →
      (complete (((v.onStore Store.newIdentity).2.withChain w.chain).define name.lexeme
        (.callable (.classObject ⟨v.store.nextId, name.lexeme, superclass,
          methodTable v.chain methods⟩))) frames).Renamed ρ
      (complete (((v'.onStore Store.newIdentity).2.withChain w'.chain).define name.lexeme
        (.callable (.classObject ⟨v'.store.nextId, name.lexeme, superclass',
          methodTable v'.chain methods'⟩))) frames') := by
    intro N v v' hle hv
    have hparents : Option.Rel (ClassObject.Renamed ρ N) superclass superclass' :=
      rel_imp (fun _ _ hparent => hparent.mono hle) hsuperclass
    have hclass := classObject_renamed v.store.nextId name.lexeme hparents
      (methodTable_renamed hv.marked h)
    have hworld := (hv.withStore List.prefix_rfl hv.store.newIdentity).withChain (hw.marked.mono hle)
    rw [hv.store.nextId, hv.chain, hw.chain]
    exact complete_renamed (hworld.define hname (.callable (.classObject hclass))) (hf.mono hle)
  have hdeclared := hw.define hname .nil
  cases hsuperclass with
  | none => exact hfinish List.prefix_rfl hdeclared
  | @some parent parent' hparent =>
    have hbinding : (Table.empty.insert "super" (Value.callable (.classObject parent))).Renamed ρ false
        (Value.Renamed ρ M) (Table.empty.insert "super" (.callable (.classObject parent'))) :=
      Table.Renamed.empty.insert_unmarked _ (.callable (.classObject hparent))
    have hentered : ((w.define name.lexeme .nil).enterScope w.chain
          (Table.empty.insert "super" (.callable (.classObject parent)))).Renamed ρ (M ++ [false])
        (false :: marks) ((w'.define name.lexeme .nil).enterScope w'.chain
          (Table.empty.insert "super" (.callable (.classObject parent')))) := by
      rw [hw.chain]
      exact hdeclared.enterScope hw.marked hbinding
    exact hfinish (List.prefix_append M [false]) hentered

/-! ## Steps -/

theorem stepEval_renamed (hw : w.Renamed ρ M marks w')
    (hf : Frames.Renamed ρ M marks frames frames') {e e' : Expr} (h : e.Renamed ρ marks e') :
    (stepEval w frames e).Renamed ρ (stepEval w' frames' e') := by
  cases h with
  | literal value =>
    exact ⟨M, marks, hw, .value (Value.renamed_of_plain (Value.plain_ofLiteral value)), hf⟩
  | unary operator hoperand => exact ⟨M, marks, hw, .eval hoperand, .cons (.unary operator) hf⟩
  | binary operator hleft hright =>
    exact ⟨M, marks, hw, .eval hleft, .cons (.binaryLeft operator hright) hf⟩
  | logical operator hleft hright =>
    exact ⟨M, marks, hw, .eval hleft, .cons (.logical operator hright) hf⟩
  | grouping hinner => exact ⟨M, marks, hw, .eval hinner, hf⟩
  | «variable» htarget => exact read_renamed hw hf htarget
  | assign htarget hvalue => exact ⟨M, marks, hw, .eval hvalue, .cons (.assign htarget) hf⟩
  | call paren hcallee harguments =>
    exact ⟨M, marks, hw, .eval hcallee, .cons (.callee paren harguments) hf⟩
  | get name hobject => exact ⟨M, marks, hw, .eval hobject, .cons (.get name) hf⟩
  | set name hobject hvalue =>
    exact ⟨M, marks, hw, .eval hobject, .cons (.setObject name hvalue) hf⟩
  | thisObject hkeyword => exact read_renamed hw hf hkeyword
  | superMethod method _ => exact readSuper_renamed hw hf _ method

theorem stepExec_renamed (hw : w.Renamed ρ M marks w')
    (hf : Frames.Renamed ρ M marks frames frames') {s s' : Stmt} (h : s.Renamed ρ marks s') :
    (stepExec w frames s).Renamed ρ (stepExec w' frames' s') := by
  cases h with
  | expression hvalue => exact ⟨M, marks, hw, .eval hvalue, .cons .discard hf⟩
  | print keyword hvalue => exact ⟨M, marks, hw, .eval hvalue, .cons (.print keyword) hf⟩
  | «variable» hname hinitializer =>
    cases hinitializer with
    | none => exact complete_renamed (hw.define hname .nil) hf
    | some he => exact ⟨M, marks, hw, .eval he, .cons (.define hname) hf⟩
  | block marked hbody =>
    have hle : M <+: M ++ [marked] := List.prefix_append M [marked]
    have hentered : (w.enterScope w.chain .empty).Renamed ρ (M ++ [marked]) (marked :: marks)
        (w'.enterScope w'.chain .empty) := by
      rw [hw.chain]
      exact hw.enterScope hw.marked .empty
    refine ⟨M ++ [marked], marked :: marks, hentered, .execAll hbody, ?_⟩
    change Frames.Renamed ρ _ _ (.block w.chain :: frames) (.block w'.chain :: frames')
    rw [hw.chain]
    exact .block (hw.marked.mono hle) (hf.mono hle)
  | conditional hcondition hthen =>
    exact ⟨M, marks, hw, .eval hcondition, .cons (.branch hthen .none) hf⟩
  | alternative hcondition hthen helse =>
    exact ⟨M, marks, hw, .eval hcondition, .cons (.branch hthen (.some helse)) hf⟩
  | loop hcondition hbody =>
    exact ⟨M, marks, hw, .eval hcondition, .cons (.loopTest hcondition hbody) hf⟩
  | function hname hdeclaration => exact declareFunction_renamed hw hf hname hdeclaration
  | returnWith keyword hvalue =>
    cases hvalue with
    | none => exact ⟨M, marks, hw, .done (.returned .nil), hf⟩
    | some he => exact ⟨M, marks, hw, .eval he, .cons .returning hf⟩
  | classDeclaration hname hsuperclass hmethods =>
    cases hsuperclass with
    | none => exact declareClass_renamed hw hf hname .none hmethods
    | some hparent =>
      exact ⟨M, marks, hw, .eval hparent,
        .cons (.superclass hname (hparent.line_nameOr _) hmethods) hf⟩

theorem stepValue_renamed (hw : w.Renamed ρ M marks w') {v v' : Value} (hv : v.Renamed ρ M v')
    {frame frame' : Frame}
    (h : Frames.Renamed ρ M marks (frame :: frames) (frame' :: frames')) :
    (stepValue w v frames frame).Renamed ρ (stepValue w' v' frames' frame') := by
  -- A frame that waits for the end of a statement goes on as if it had come.
  have hdone : Machine.Renamed ρ ⟨w, .done .normal, frame :: frames⟩
      ⟨w', .done .normal, frame' :: frames'⟩ := ⟨M, marks, hw, .done .normal, h⟩
  cases h with
  | block houter hf => exact hdone
  | call hcaller hclosure hf => exact hdone
  | cons h hf =>
    cases h with
    | unary operator => exact settle_renamed hw hf (applyUnary_renamed operator hv)
    | binaryLeft operator hright =>
      exact ⟨M, marks, hw, .eval hright, .cons (.binaryRight operator hv) hf⟩
    | binaryRight operator hleft => exact settle_renamed hw hf (applyBinary_renamed operator hleft hv)
    | logical operator hright =>
      simp only [stepValue]
      rw [decidesLogical_renamed operator hv]
      split
      · exact ⟨M, marks, hw, .value hv, hf⟩
      · exact ⟨M, marks, hw, .eval hright, hf⟩
    | assign htarget => exact write_renamed hw hf htarget hv
    | callee paren harguments => exact evalArguments_renamed hw hf hv paren .nil harguments
    | argument paren hcallee hbefore hrest =>
      exact evalArguments_renamed hw hf hcallee paren (List.rel_append hbefore (.cons hv .nil)) hrest
    | get name => exact readProperty_renamed hw hf hv name
    | setObject name hvalue =>
      cases hv with
      | object hobject => exact ⟨M, marks, hw, .eval hvalue, .cons (.setValue name hobject) hf⟩
      | _ => exact fault_renamed hw hf _
    | setValue name hobject =>
      exact ⟨M, marks, hw.withStore List.prefix_rfl (hw.store.setField hobject _ hv), .value hv, hf⟩
    | discard => exact complete_renamed hw hf
    | print keyword =>
      simp only [stepValue]
      rw [hw.sink, hv.text]
      split
      · exact fault_renamed hw hf _
      · exact complete_renamed (hw.print _) hf
    | define hname => exact complete_renamed (hw.define hname hv) hf
    | branch hthen helse =>
      simp only [stepValue]
      rw [hv.isTruthy]
      split
      · exact ⟨M, marks, hw, .exec hthen, hf⟩
      · cases helse with
        | none => exact complete_renamed hw hf
        | some hs => exact ⟨M, marks, hw, .exec hs, hf⟩
    | loopTest hcondition hbody =>
      simp only [stepValue]
      rw [hv.isTruthy]
      split
      · exact ⟨M, marks, hw, .exec hbody, .cons (.loopBody hcondition hbody) hf⟩
      · exact complete_renamed hw hf
    | loopBody hcondition hbody => exact hdone
    | returning => exact ⟨M, marks, hw, .done (.returned hv), hf⟩
    | superclass hname hparent hmethods =>
      cases hv with
      | callable hcallable =>
        cases hcallable with
        | classObject hclass => exact declareClass_renamed hw hf hname (.some hclass) hmethods
        | _ => exact ⟨M, marks, hw, .fault ⟨hparent, .inl rfl⟩, hf⟩
      | _ => exact ⟨M, marks, hw, .fault ⟨hparent, .inl rfl⟩, hf⟩
    | sequence hrest => exact hdone
    | construct hobject => exact ⟨M, marks, hw, .value (.object hobject), hf⟩

theorem stepDone_renamed (hw : w.Renamed ρ M marks w') {completion completion' : Completion}
    (hc : completion.Renamed ρ M completion') {frame frame' : Frame}
    (h : Frames.Renamed ρ M marks (frame :: frames) (frame' :: frames')) :
    (stepDone w completion frames frame).Renamed ρ (stepDone w' completion' frames' frame') := by
  -- A frame that waits for a value is given `nil`.
  have hnil : Machine.Renamed ρ ⟨w, .value .nil, frame :: frames⟩
      ⟨w', .value .nil, frame' :: frames'⟩ := ⟨M, marks, hw, .value .nil, h⟩
  cases h with
  | block houter hf => exact ⟨M, _, hw.withChain houter, .done hc, hf⟩
  | call hcaller hclosure hf => exact finishCall_renamed hw hf hcaller hclosure hc
  | cons h hf =>
    cases h with
    | sequence hrest =>
      cases hc with
      | normal => exact ⟨M, marks, hw, .execAll hrest, hf⟩
      | returned hv => exact ⟨M, marks, hw, .done (.returned hv), hf⟩
    | loopBody hcondition hbody =>
      cases hc with
      | normal => exact ⟨M, marks, hw, .eval hcondition, .cons (.loopTest hcondition hbody) hf⟩
      | returned hv => exact ⟨M, marks, hw, .done (.returned hv), hf⟩
    | _ => exact hnil

theorem stepFault_renamed (hw : w.Renamed ρ M marks w') {f f' : RuntimeFault} (hfault : f.Renamed ρ f')
    {frame frame' : Frame}
    (h : Frames.Renamed ρ M marks (frame :: frames) (frame' :: frames')) :
    Machine.Renamed ρ ⟨unwind w frame, .fault f, frames⟩ ⟨unwind w' frame', .fault f', frames'⟩ := by
  cases h with
  | block houter hf => exact ⟨M, _, hw.withChain houter, .fault hfault, hf⟩
  | call hcaller _ hf => exact ⟨M, _, hw.leaveCall hcaller, .fault hfault, hf⟩
  | cons h hf => cases h <;> exact ⟨M, marks, hw, .fault hfault, hf⟩

end Parts

section Runs
variable {ρ : Renaming} {m m' : Machine}

/-- A step leads from related machines to related machines. -/
theorem step_renamed (h : m.Renamed ρ m') : m.step.Renamed ρ m'.step := by
  obtain ⟨w, c, frames⟩ := m
  obtain ⟨w', c', frames'⟩ := m'
  obtain ⟨M, marks, hw, hc, hf⟩ := h
  dsimp only at hw hc hf
  cases hc with
  | eval he => exact stepEval_renamed hw hf he
  | exec hs => exact stepExec_renamed hw hf hs
  | execAll hbody =>
    cases hbody with
    | nil => exact complete_renamed hw hf
    | cons hs hrest => exact ⟨M, marks, hw, .exec hs, .cons (.sequence hrest) hf⟩
  | value hv =>
    have hframes := hf
    cases hf with
    | nil => exact ⟨M, marks, hw, .value hv, .nil⟩
    | _ => exact stepValue_renamed hw hv hframes
  | done hc =>
    have hframes := hf
    cases hf with
    | nil => exact ⟨M, marks, hw, .done hc, .nil⟩
    | _ => exact stepDone_renamed hw hc hframes
  | fault hfault =>
    have hframes := hf
    cases hf with
    | nil => exact ⟨M, marks, hw, .fault hfault, .nil⟩
    | _ => exact stepFault_renamed hw hfault hframes

/-- So does any number of steps. -/
theorem run_renamed (n : Nat) (h : m.Renamed ρ m') : (m.run n).Renamed ρ (m'.run n) := by
  induction n generalizing m m' with
  | zero => exact h
  | succ n ih =>
    rw [run_succ, run_succ]
    exact ih (step_renamed h)

end Runs
end Machine

/-! ## Programs -/

/-- Where two runs come to related machines, both programs have come to their end or neither has, and that
without a fault or with faults that are the same but for the new name. -/
theorem World.interpret?_renamed {ρ : Renaming} {w w' : World} {program program' : List Stmt}
    {fuel : Nat}
    (h : (Machine.run fuel (w.program program)).Renamed ρ (Machine.run fuel (w'.program program'))) :
    Option.Rel (fun result result' => Option.Rel (RuntimeFault.Renamed ρ) result.1 result'.1 ∧
        result'.2.sink = result.2.sink)
      (w.interpret? fuel program) (w'.interpret? fuel program') := by
  unfold World.interpret?
  revert h
  generalize Machine.run fuel (w.program program) = m
  generalize Machine.run fuel (w'.program program') = m'
  intro h
  obtain ⟨world, c, frames⟩ := m
  obtain ⟨world', c', frames'⟩ := m'
  obtain ⟨M, marks, hw, hc, hf⟩ := h
  dsimp only at hw hc hf
  cases hc <;> cases hf
  case done.nil => exact .some ⟨.none, hw.sink⟩
  case fault.nil hfault => exact .some ⟨.some hfault, hw.sink⟩
  all_goals exact .none

end LoxLang
