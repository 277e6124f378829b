import LoxLang.Binding.Survey
import LoxLang.Proofs.Alike.Trees

/-!
Surveys of trees that are taken for each other find the same faults at related tokens, and the same
distances for paired identities. The second survey may come after one that had found some distances
already (`before`); these do not matter to it.
-/
namespace LoxLang
set_option autoImplicit false

/-- The same misuse at related tokens. -/
structure BindingFault.Alike (L : Likeness) (f f' : BindingFault) : Prop where
  cause : f'.cause = f.cause
  token : L.token f.token f'.token

/-- The same distance for paired identities. -/
structure DistanceEntry.Alike (L : Likeness) (entry entry' : DistanceEntry) : Prop where
  number : L.number entry.id entry'.id
  distance : entry'.distance = entry.distance

namespace Survey

/-- Surveys that have found the like, the second one after the distances `before`. -/
structure Alike (L : Likeness) (before : List DistanceEntry) (s s' : Survey) : Prop where
  scopes : s'.scopes = s.scopes
  faults : List.Forall₂ (BindingFault.Alike L) s.faults s'.faults
  distances : ∃ found, s'.distances = before ++ found ∧
    List.Forall₂ (DistanceEntry.Alike L) s.distances found

section Parts
variable {L : Likeness} {before : List DistanceEntry} {s s' : Survey}

theorem Alike.rescope (h : s.Alike L before s') (scopes : List (Table Bool)) :
    Alike L before { s with scopes } { s' with scopes } :=
  ⟨rfl, h.faults, h.distances⟩

theorem Alike.enter (h : s.Alike L before s') (names : List String) :
    (s.enter names).Alike L before (s'.enter names) := by
  rw [Survey.enter, Survey.enter, h.scopes]
  exact h.rescope _

theorem Alike.leave (h : s.Alike L before s') : s.leave.Alike L before s'.leave := by
  rw [Survey.leave, Survey.leave, h.scopes]
  exact h.rescope _

theorem Alike.blame (h : s.Alike L before s') (cause : BindingCause) {token token' : Token}
    (htoken : L.token token token') :
    (s.blame cause token).Alike L before (s'.blame cause token') :=
  ⟨h.scopes, List.rel_append h.faults (.cons ⟨rfl, htoken⟩ .nil), h.distances⟩

theorem Alike.record (h : s.Alike L before s') {target target' : Reference}
    (htarget : target.Alike L target') (distance : Nat) :
    (s.record target distance).Alike L before (s'.record target' distance) := by
  obtain ⟨found, hfound, hlike⟩ := h.distances
  refine ⟨h.scopes, h.faults, found ++ [⟨target'.id, distance⟩], ?_, ?_⟩
  · rw [Survey.record, hfound, List.append_assoc]
  · exact List.rel_append hlike (.cons ⟨htarget.number, rfl⟩ .nil)

theorem Alike.declare (h : s.Alike L before s') {name name' : Token} (hname : L.token name name') :
    (s.declare name).Alike L before (s'.declare name') := by
  unfold Survey.declare
  rw [h.scopes, L.lexeme hname]
  split
  · exact h
  · split
    · exact (h.rescope _).blame _ hname
    · exact h.rescope _

theorem Alike.define (h : s.Alike L before s') {name name' : Token} (hname : L.token name name') :
    (s.define name).Alike L before (s'.define name') := by
  unfold Survey.define
  rw [h.scopes, L.lexeme hname]
  split
  · exact h
  · exact h.rescope _

theorem Alike.introduce (h : s.Alike L before s') {name name' : Token}
    (hname : L.token name name') : (s.introduce name).Alike L before (s'.introduce name') :=
  (h.declare hname).define hname

theorem Alike.introduceAll (h : s.Alike L before s') {params params' : List Token}
    (hparams : List.Forall₂ L.token params params') :
    (params.foldl Survey.introduce s).Alike L before (params'.foldl Survey.introduce s') := by
  induction hparams generalizing s s' with
  | nil => exact h
  | cons hparam _ ih => exact ih (h.introduce hparam)

theorem Alike.resolve (h : s.Alike L before s') {target target' : Reference}
    (htarget : target.Alike L target') :
    (s.resolve target).Alike L before (s'.resolve target') := by
  unfold Survey.resolve
  rw [h.scopes, L.lexeme htarget.name]
  split
  · exact h.record htarget _
  · exact h

theorem Alike.resolveRead (h : s.Alike L before s') {target target' : Reference}
    (htarget : target.Alike L target') :
    (s.resolveRead target).Alike L before (s'.resolveRead target') := by
  unfold Survey.resolveRead
  rw [h.scopes, L.lexeme htarget.name]
  split
  · exact h.resolve htarget
  · split
    · split
      · exact h.record htarget _
      · exact h.blame _ htarget.name
    · exact h.resolve htarget

end Parts

/-! ## Walks -/

section Walks
variable {L : Likeness} {before : List DistanceEntry}

mutual

theorem visitExpr_alike (context : BindingContext) {e e' : Expr} {s s' : Survey}
    (h : e.Alike L e') (hs : s.Alike L before s') :
    (visitExpr context e s).Alike L before (visitExpr context e' s') :=
  match h with
  | .literal _ => hs
  | .unary _ hoperand => (visitExpr_alike context hoperand hs :)
  | .binary hleft _ hright => (visitExpr_alike context hright (visitExpr_alike context hleft hs) :)
  | .logical hleft _ hright => (visitExpr_alike context hright (visitExpr_alike context hleft hs) :)
  | .grouping hinner => (visitExpr_alike context hinner hs :)
  | .variable htarget => (hs.resolveRead htarget :)
  | .assign htarget hvalue => ((visitExpr_alike context hvalue hs).resolve htarget :)
  | .call hcallee _ harguments =>
    (visitExprs_alike context harguments (visitExpr_alike context hcallee hs) :)
  | .get hobject _ => (visitExpr_alike context hobject hs :)
  | .set hobject _ hvalue => (visitExpr_alike context hobject (visitExpr_alike context hvalue hs) :)
  | .thisObject hkeyword => by
    unfold visitExpr
    split
    · exact hs.blame _ hkeyword.name
    · exact hs.resolve hkeyword
    · exact hs.resolve hkeyword
  | .superMethod hkeyword _ => by
    unfold visitExpr
    split
    · exact hs.blame _ hkeyword.name
    · exact hs.blame _ hkeyword.name
    · exact hs.resolve hkeyword

theorem visitExprs_alike (context : BindingContext) {es es' : List Expr} {s s' : Survey}
    (h : List.Forall₂ (Expr.Alike L) es es') (hs : s.Alike L before s') :
    (visitExprs context es s).Alike L before (visitExprs context es' s') :=
  match h with
  | .nil => hs
  | .cons he hrest => (visitExprs_alike context hrest (visitExpr_alike context he hs) :)

end

theorem visitOption_alike (context : BindingContext) {e e' : Option Expr} {s s' : Survey}
    (h : Option.Rel (Expr.Alike L) e e') (hs : s.Alike L before s') :
    (visitOption context e s).Alike L before (visitOption context e' s') := by
  cases h with
  | none => exact hs
  | some he => exact visitExpr_alike context he hs

theorem checkSuperclass_alike {name name' : Token} {superclass superclass' : Expr} {s s' : Survey}
    (hname : L.token name name') (h : superclass.Alike L superclass') (hs : s.Alike L before s') :
    (checkSuperclass name superclass s).Alike L before
      (checkSuperclass name' superclass' s') := by
  cases h with
  | «variable» hparent =>
    rw [checkSuperclass_variable, checkSuperclass_variable, L.lexeme hparent.name, L.lexeme hname]
    split
    · exact hs.blame _ hparent.name
    · exact hs
  | _ => exact hs

theorem enterClass_alike (context : BindingContext) {name name' : Token}
    {superclass superclass' : Option Expr} {s s' : Survey} (hname : L.token name name')
    (h : Option.Rel (Expr.Alike L) superclass superclass') (hs : s.Alike L before s') :
    (enterClass context name superclass s).Alike L before
      (enterClass context name' superclass' s') := by
  have hdeclared := hs.introduce hname
  cases h with
  | none => exact hdeclared.enter _
  | some hparent =>
    have hchecked := checkSuperclass_alike hname hparent hdeclared
    exact ((visitExpr_alike _ hparent hchecked).enter _).enter _

theorem leaveClass_alike {superclass superclass' : Option Expr} {s s' : Survey}
    (h : Option.Rel (Expr.Alike L) superclass superclass') (hs : s.Alike L before s') :
    (leaveClass superclass s).Alike L before (leaveClass superclass' s') := by
  cases h with
  | none => exact hs.leave
  | some _ => exact hs.leave.leave

theorem classContext_alike {superclass superclass' : Option Expr}
    (h : Option.Rel (Expr.Alike L) superclass superclass') :
    classContext superclass' = classContext superclass := by
  cases h <;> rfl

mutual

theorem visitStmt_alike (context : BindingContext) {stmt stmt' : Stmt} {s s' : Survey}
    (h : stmt.Alike L stmt') (hs : s.Alike L before s') :
    (visitStmt context stmt s).Alike L before (visitStmt context stmt' s') :=
  match h with
  | .expression hvalue => (visitExpr_alike context hvalue hs :)
  | .print _ hvalue => (visitExpr_alike context hvalue hs :)
  | .variable hname hinitializer =>
    ((visitOption_alike context hinitializer (hs.declare hname)).define hname :)
  | .block hbody => ((visitStmts_alike context hbody (hs.enter [])).leave :)
  | .conditional hcondition hthen .none =>
    (visitStmt_alike context hthen (visitExpr_alike context hcondition hs) :)
  | .conditional hcondition hthen (.some helse) =>
    (visitStmt_alike context helse
      (visitStmt_alike context hthen (visitExpr_alike context hcondition hs)) :)
  | .loop hcondition hbody => (visitStmt_alike context hbody (visitExpr_alike context hcondition hs) :)
  | .function (.intro hname hparams hbody) =>
    (visitFunction_alike context.classContext (.intro hname hparams hbody) (hs.introduce hname) :)
  | .returnWith hkeyword hvalue => by
    unfold visitStmt
    refine visitOption_alike context hvalue ?_
    split
    · exact hs
    · exact hs.blame _ hkeyword
  | .classDeclaration hname hsuperclass hmethods => by
    unfold visitStmt
    rw [classContext_alike hsuperclass]
    exact leaveClass_alike hsuperclass
      (visitMethods_alike _ hmethods (enterClass_alike context hname hsuperclass hs))

theorem visitStmts_alike (context : BindingContext) {body body' : List Stmt} {s s' : Survey}
    (h : List.Forall₂ (Stmt.Alike L) body body') (hs : s.Alike L before s') :
    (visitStmts context body s).Alike L before (visitStmts context body' s') :=
  match h with
  | .nil => hs
  | .cons hstmt hrest => (visitStmts_alike context hrest (visitStmt_alike context hstmt hs) :)

theorem visitFunction_alike (classContext : ClassContext) {d d' : FunctionDeclaration}
    {s s' : Survey} (h : d.Alike L d') (hs : s.Alike L before s') :
    (visitFunction classContext d s).Alike L before (visitFunction classContext d' s') :=
  match h with
  | .intro _ hparams hbody =>
    ((visitStmts_alike ⟨true, classContext⟩ hbody ((hs.enter []).introduceAll hparams)).leave :)

theorem visitMethods_alike (classContext : ClassContext) {methods methods' : List FunctionDeclaration}
    {s s' : Survey} (h : List.Forall₂ (FunctionDeclaration.Alike L) methods methods')
    (hs : s.Alike L before s') :
    (visitMethods classContext methods s).Alike L before (visitMethods classContext methods' s') :=
  match h with
  | .nil => hs
  | .cons hd hrest => (visitMethods_alike classContext hrest (visitFunction_alike classContext hd hs) :)

end

end Walks
end Survey

/-! ## Programs -/

/-- Distances on both sides, or like faults on both sides. -/
inductive SurveyAlike (L : Likeness) :
    Except (List BindingFault) (List DistanceEntry) →
      Except (List BindingFault) (List DistanceEntry) → Prop
  | ok {found found' : List DistanceEntry} : List.Forall₂ (DistanceEntry.Alike L) found found' →
    SurveyAlike L (.ok found) (.ok found')
  | error {faults faults' : List BindingFault} :
    List.Forall₂ (BindingFault.Alike L) faults faults' →
    SurveyAlike L (.error faults) (.error faults')

theorem SurveyAlike.of_ok {L : Likeness} {found : List DistanceEntry}
    {result : Except (List BindingFault) (List DistanceEntry)} (h : SurveyAlike L (.ok found) result) :
    ∃ found', result = .ok found' ∧ List.Forall₂ (DistanceEntry.Alike L) found found' := by
  cases h with
  | ok hfound => exact ⟨_, rfl, hfound⟩

theorem survey_alike {L : Likeness} {program program' : List Stmt}
    (h : List.Forall₂ (Stmt.Alike L) program program') :
    SurveyAlike L (survey program) (survey program') := by
  have hstart : Survey.Alike L [] .start .start := ⟨rfl, .nil, [], rfl, .nil⟩
  obtain ⟨-, hfaults, found, hfound, hdistances⟩ :=
    Survey.visitStmts_alike ⟨false, .outside⟩ h hstart
  unfold survey
  dsimp only
  rw [hfound, List.nil_append]
  revert hfaults
  generalize (Survey.visitStmts ⟨false, .outside⟩ program .start).faults = faults
  generalize (Survey.visitStmts ⟨false, .outside⟩ program' .start).faults = faults'
  intro hfaults
  cases hfaults with
  | nil => exact .ok hdistances
  | cons hf hrest => exact .error (.cons hf hrest)

end LoxLang
