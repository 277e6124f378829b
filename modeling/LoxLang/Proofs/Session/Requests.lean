import LoxLang.Proofs.Alike.Reading
import LoxLang.Proofs.Alike.Survey
import LoxLang.Proofs.Scope.Lifetime

/-!
Sessions as they are seen from outside. `Session.observe` is what shows after each of some requests:
the lines printed so far, the diagnostics since the last reset and the exit status; a run that takes
more steps than it is given shows the lines that it has printed by then and is the last.
`staticDiagnostics` is what stands against a source on its own; a source is taken exactly when nothing
does and no static error is pending (`load_of_clean`, `load_of_faulty`).
-/
namespace LoxLang
set_option autoImplicit false

/-! ## Requests -/

inductive Request where
  /-- To run a source within some steps. -/
  | run (fuel : Nat) (source : List UInt8)
  /-- To forget all diagnostics. -/
  | reset

/-- What a session shows. -/
structure View where
  lines : List String
  diagnostics : List Diagnostic
  exitStatus : Option Nat
  finished : Bool

/-- The view of a log and what has been printed. -/
def View.of (sink : Sink) (log : Log) (finished : Bool) : View :=
  ⟨sink.lines.toList, log.entries, log.exitStatus?, finished⟩

namespace Session

def view (s : Session) : View :=
  .of s.world.sink s.log true

/-- The view of a run that is not finished after some steps. -/
def partway (fuel : Nat) (s : Session) (source : List UInt8) : View :=
  match s.load source with
  | (s, none) => s.view
  | (⟨world, log, _⟩, some program) =>
    .of (Machine.run fuel (world.program program)).world.sink log false

/-- The views after each of some requests, up to a run that does not finish. -/
def observe (s : Session) : List Request → List View
  | [] => []
  | .reset :: rest => s.reset.view :: s.reset.observe rest
  | .run fuel source :: rest =>
    match s.run? fuel source with
    | some s' => s'.view :: s'.observe rest
    | none => [s.partway fuel source]

/-- Fulfils requests, one after the other. -/
def performAll? (s : Session) : List Request → Option Session
  | [] => some s
  | .reset :: rest => s.reset.performAll? rest
  | .run fuel source :: rest => (s.run? fuel source).bind (performAll? · rest)

theorem performAll?_append (s : Session) (first second : List Request) :
    s.performAll? (first ++ second) = (s.performAll? first).bind (·.performAll? second) := by
  induction first generalizing s with
  | nil => rfl
  | cons request rest ih =>
    cases request with
    | reset => exact ih s.reset
    | run fuel source =>
      rw [List.cons_append, performAll?, performAll?, Option.bind_assoc]
      exact Option.bind_congr fun next _ => ih next

end Session

def Request.tokens : Request → List Token
  | .run _ source => (tokenize source).1
  | .reset => []

/-! ## Sources on their own -/

/-- What stands against a source in which the first reference has some identity. -/
def staticDiagnosticsFrom (nextId : Nat) (source : List UInt8) : List Diagnostic :=
  let (tokens, faults) := tokenize source
  match programOfItems (programItems tokens nextId).1 with
  | .error more => faults.map .ofLexical ++ more.map .ofSyntax
  | .ok program =>
    match faults, survey program with
    | [], .error more => more.map .binding
    | _, _ => faults.map .ofLexical

/-- What stands against a source on its own: the faults of its lexemes and of its grammar, or if there
are none the misuses of names. -/
def staticDiagnostics (source : List UInt8) : List Diagnostic :=
  staticDiagnosticsFrom 0 source

theorem programOfItems_error_ne_nil {items : List ProgramItem} {faults : List SyntaxFault}
    (h : programOfItems items = .error faults) : faults ≠ [] := by
  unfold programOfItems at h
  split at h
  · cases h
  · rename_i hsome
    cases h
    exact hsome

theorem survey_error_ne_nil {program : List Stmt} {faults : List BindingFault}
    (h : survey program = .error faults) : faults ≠ [] := by
  unfold survey at h
  dsimp only at h
  split at h
  · cases h
  · rename_i hsome
    cases h
    exact fun hnil => hsome (List.isEmpty_iff.mpr hnil)

/-- Every token for itself, and identities moved up by some number. -/
def Likeness.raised (n : Nat) : Likeness :=
  .same (fun _ => True) (fun i j => j = i + n) (by
    rintro i j i' j' rfl rfl
    exact (Nat.add_right_cancel_iff).symm)

theorem SyntaxFault.Alike.eq {L : Likeness} {f f' : SyntaxFault} (htoken : ∀ t u, L.token t u → u = t)
    (h : f.Alike L f') : f' = f := by
  obtain ⟨cause, token⟩ := f
  obtain ⟨cause', token'⟩ := f'
  obtain rfl : cause' = cause := h.cause
  obtain rfl : token' = token := htoken _ _ h.token
  rfl

theorem BindingFault.Alike.eq {L : Likeness} {f f' : BindingFault}
    (htoken : ∀ t u, L.token t u → u = t) (h : f.Alike L f') : f' = f := by
  obtain ⟨cause, token⟩ := f
  obtain ⟨cause', token'⟩ := f'
  obtain rfl : cause' = cause := h.cause
  obtain rfl : token' = token := htoken _ _ h.token
  rfl

theorem eq_of_forall₂ {α : Type} {R : α → α → Prop} {as bs : List α} (h : List.Forall₂ R as bs)
    (heq : ∀ a b, R a b → b = a) : bs = as := by
  induction h with
  | nil => rfl
  | cons hab _ ih => rw [heq _ _ hab, ih]

/-- The identities of references do not matter for what is read. -/
theorem programOfItems_raised (tokens : List Token) (nextId : Nat) :
    ProgramAlike (.raised nextId) (programOfItems (programItems tokens 0).1)
      (programOfItems (programItems tokens nextId).1) := by
  have hsame : List.Forall₂ (Likeness.raised nextId).token tokens tokens :=
    List.forall₂_same.mpr fun t _ => ⟨trivial, rfl⟩
  have hstop : (Likeness.raised nextId).token (.endOn (Cursor.start tokens 0).endLine)
      (.endOn (Cursor.start tokens nextId).endLine) := ⟨trivial, rfl⟩
  have hnumber : ∀ n, (Likeness.raised nextId).number (0 + n) (nextId + n) := fun n => by
    change nextId + n = 0 + n + nextId
    omega
  exact programOfItems_alike (programItems_alike hsame hstop hnumber).1

/-- What stands against a source does not depend on the identities of its references. -/
theorem staticDiagnosticsFrom_eq (nextId : Nat) (source : List UInt8) :
    staticDiagnosticsFrom nextId source = staticDiagnostics source := by
  have hread := programOfItems_raised (tokenize source).1 nextId
  have htoken : ∀ t u, (Likeness.raised nextId).token t u → u = t := fun _ _ h => h.2
  unfold staticDiagnostics staticDiagnosticsFrom
  dsimp only
  revert hread
  generalize programOfItems (programItems (tokenize source).1 0).1 = read
  generalize programOfItems (programItems (tokenize source).1 nextId).1 = read'
  intro hread
  cases hread with
  | error hfaults =>
    rw [eq_of_forall₂ hfaults fun _ _ h => h.eq htoken]
  | @ok program program' hprogram =>
    have hsurvey := survey_alike hprogram
    dsimp only
    revert hsurvey
    generalize survey program = found
    generalize survey program' = found'
    intro hsurvey
    cases hsurvey with
    | ok _ => cases (tokenize source).2 <;> rfl
    | error hfaults =>
      rw [eq_of_forall₂ hfaults fun _ _ h => h.eq htoken]

/-- Nothing stands against a source exactly if its lexemes are tokens, the tokens a program, and the
names of the program in order. -/
theorem staticDiagnostics_eq_nil_iff (nextId : Nat) (source : List UInt8) :
    staticDiagnostics source = [] ↔ (tokenize source).2 = [] ∧ ∃ program entries,
      programOfItems (programItems (tokenize source).1 nextId).1 = .ok program ∧
        survey program = .ok entries := by
  rw [← staticDiagnosticsFrom_eq nextId]
  unfold staticDiagnosticsFrom
  dsimp only
  constructor
  · intro h
    split at h
    · rename_i more hread
      have hmore := List.map_eq_nil_iff.mp (List.append_eq_nil_iff.mp h).2
      exact absurd hmore (programOfItems_error_ne_nil hread)
    · rename_i program hread
      split at h
      · rename_i more hlexical hsurvey
        exact absurd (List.map_eq_nil_iff.mp h) (survey_error_ne_nil hsurvey)
      · rename_i hlast
        have hlexical := List.map_eq_nil_iff.mp h
        cases hsurvey : survey program with
        | error more => exact absurd hsurvey (hlast more hlexical)
        | ok entries => exact ⟨hlexical, program, entries, hread, hsurvey⟩
  · rintro ⟨hlexical, program, entries, hread, hsurvey⟩
    rw [hlexical, hread]
    dsimp only
    rw [hsurvey]
    rfl

/-! ## Loading -/

theorem Log.hadError_reportAll (log : Log) (ds : List Diagnostic) :
    (log.reportAll ds).hadError = (log.hadError || ds.any Diagnostic.isStatic) :=
  List.any_append

theorem Log.reportAll_nil (log : Log) : log.reportAll [] = log := by
  rw [Log.reportAll, List.append_nil]

theorem any_isStatic_ofLexical (faults : List LexicalFault) :
    (faults.map Diagnostic.ofLexical).any Diagnostic.isStatic = !faults.isEmpty := by
  cases faults <;> rfl

namespace Session
variable {s s' : Session} {source : List UInt8} {program : List Stmt}

theorem load_some (h : s.load source = (s', some program)) :
    programOfItems (programItems (tokenize source).1 s.nextId).1 = .ok program ∧
      s'.nextId = (programItems (tokenize source).1 s.nextId).2 ∧
      ∃ entries, survey program = .ok entries ∧ s'.world = s.world.record entries :=
  loadTokens_some (s := s.reportAll ((tokenize source).2.map .ofLexical)) h

theorem load_none (h : s.load source = (s', none)) :
    s'.nextId = (programItems (tokenize source).1 s.nextId).2 ∧ s'.world = s.world :=
  loadTokens_none (s := s.reportAll ((tokenize source).2.map .ofLexical)) h

/-- A source is taken if nothing stands against it and no static error is pending. -/
theorem load_of_clean (hlog : s.log.hadError = false) (hlexical : (tokenize source).2 = [])
    {entries : List DistanceEntry}
    (hread : programOfItems (programItems (tokenize source).1 s.nextId).1 = .ok program)
    (hsurvey : survey program = .ok entries) :
    s.load source = (⟨s.world.record entries, s.log,
      (programItems (tokenize source).1 s.nextId).2⟩, some program) := by
  unfold load loadTokens reportAll
  dsimp only
  rw [hlexical, List.map_nil, Log.reportAll_nil, hread]
  dsimp only
  rw [hlog, hsurvey]
  rfl

theorem clean_of_load (h : s.load source = (s', some program)) :
    s.log.hadError = false ∧ staticDiagnostics source = [] := by
  obtain ⟨hread, -, entries, hsurvey, -⟩ := load_some h
  unfold load loadTokens reportAll at h
  dsimp only at h
  rw [hread] at h
  dsimp only at h
  split at h
  · cases h
  · rename_i herror
    rw [Log.hadError_reportAll, any_isStatic_ofLexical] at herror
    obtain ⟨hlog, hlexical⟩ := not_or.mp (mt Bool.or_eq_true_iff.mpr herror)
    have hnone : (tokenize source).2 = [] := by simpa using hlexical
    exact ⟨Bool.eq_false_iff.mpr hlog,
      (staticDiagnostics_eq_nil_iff s.nextId source).mpr ⟨hnone, program, entries, hread, hsurvey⟩⟩

/-- A source with something against it, or after a pending static error, is refused: only the identity
of the next reference and the log change. -/
theorem load_of_faulty (h : s.log.hadError = true ∨ staticDiagnostics source ≠ []) :
    ∃ s', s.load source = (s', none) ∧ s'.world = s.world ∧ s.nextId ≤ s'.nextId := by
  cases hload : s.load source with
  | mk s' program =>
    cases program with
    | some program =>
      obtain ⟨hlog, hclean⟩ := clean_of_load hload
      rcases h with herror | hfaulty
      · rw [hlog] at herror
        cases herror
      · exact absurd hclean hfaulty
    | none =>
      obtain ⟨hnext, hworld⟩ := load_none hload
      refine ⟨s', rfl, hworld, ?_⟩
      rw [hnext]
      exact nextId_le_programItems _ _

end Session

end LoxLang
