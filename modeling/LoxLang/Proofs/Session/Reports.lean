import LoxLang.Proofs.Machine.Printing
import LoxLang.Proofs.Session.Requests

/-!
What a run reports. A source that cannot be read, or one that comes while a static error is pending, adds
what was found in reading it (`load_of_unread`); any other source adds the misuses of its names, the
fault of its run or nothing. `run_reports` says so of every session that runs and resets lead to, and
gives the exit status from what the runs since the last reset have added.
-/
namespace LoxLang
set_option autoImplicit false

/-! ## Faults of a source -/

/-- The faults of the grammar in some tokens, in which the first reference has some identity. -/
def syntaxFaultsFrom (nextId : Nat) (tokens : List Token) : List SyntaxFault :=
  match programOfItems (programItems tokens nextId).1 with
  | .error faults => faults
  | .ok _ => []

/-- What is found in reading a source: the faults of its lexemes, and after them those of its
grammar. -/
def readingDiagnostics (source : List UInt8) : List Diagnostic :=
  let (tokens, faults) := tokenize source
  faults.map .ofLexical ++ (syntaxFaultsFrom 0 tokens).map .ofSyntax

theorem syntaxFaultsFrom_eq (nextId : Nat) (tokens : List Token) :
    syntaxFaultsFrom nextId tokens = syntaxFaultsFrom 0 tokens := by
  have hread := programOfItems_raised tokens nextId
  unfold syntaxFaultsFrom
  revert hread
  generalize programOfItems (programItems tokens 0).1 = read
  generalize programOfItems (programItems tokens nextId).1 = read'
  intro hread
  cases hread with
  | ok _ => rfl
  | error hfaults =>
    have htoken : ∀ t u, (Likeness.raised nextId).token t u → u = t := fun _ _ h => h.2
    exact eq_of_forall₂ hfaults fun _ _ h => h.eq htoken

theorem syntaxFaultsFrom_of_error {nextId : Nat} {tokens : List Token} {faults : List SyntaxFault}
    (h : programOfItems (programItems tokens nextId).1 = .error faults) :
    syntaxFaultsFrom 0 tokens = faults := by
  rw [← syntaxFaultsFrom_eq nextId, syntaxFaultsFrom, h]

theorem syntaxFaultsFrom_of_ok {nextId : Nat} {tokens : List Token} {program : List Stmt}
    (h : programOfItems (programItems tokens nextId).1 = .ok program) :
    syntaxFaultsFrom 0 tokens = [] := by
  rw [← syntaxFaultsFrom_eq nextId, syntaxFaultsFrom, h]

/-! ## Diagnostics by kind -/

/-- A fault of a lexeme, a fault of the grammar or a misuse of a name is among some diagnostics. -/
def HasStatic (ds : List Diagnostic) : Prop :=
  (∃ line message, .lexical line message ∈ ds) ∨ (∃ token message, .grammar token message ∈ ds) ∨
    ∃ fault, .binding fault ∈ ds

/-- The fault of a run is among some diagnostics. -/
def HasRuntime (ds : List Diagnostic) : Prop :=
  ∃ fault, .runtime fault ∈ ds

theorem any_isStatic_iff (ds : List Diagnostic) : ds.any Diagnostic.isStatic = true ↔ HasStatic ds := by
  rw [List.any_eq_true]
  constructor
  · rintro ⟨d, hd, hstatic⟩
    cases d with
    | lexical line message => exact .inl ⟨line, message, hd⟩
    | grammar token message => exact .inr (.inl ⟨token, message, hd⟩)
    | binding fault => exact .inr (.inr ⟨fault, hd⟩)
    | runtime fault => cases hstatic
    | file message => cases hstatic
    | encoding fault => cases hstatic
  · rintro (⟨line, message, hd⟩ | ⟨token, message, hd⟩ | ⟨fault, hd⟩)
    · exact ⟨_, hd, rfl⟩
    · exact ⟨_, hd, rfl⟩
    · exact ⟨_, hd, rfl⟩

theorem any_isRuntime_iff (ds : List Diagnostic) :
    ds.any Diagnostic.isRuntime = true ↔ HasRuntime ds := by
  rw [List.any_eq_true]
  constructor
  · rintro ⟨d, hd, hruntime⟩
    cases d with
    | runtime fault => exact ⟨fault, hd⟩
    | lexical line message => cases hruntime
    | grammar token message => cases hruntime
    | binding fault => cases hruntime
    | file message => cases hruntime
    | encoding fault => cases hruntime
  · rintro ⟨fault, hd⟩
    exact ⟨_, hd, rfl⟩

namespace Log
variable {log : Log}

theorem hadError_iff : log.hadError = true ↔ HasStatic log.entries :=
  any_isStatic_iff log.entries

theorem hadRuntimeError_iff : log.hadRuntimeError = true ↔ HasRuntime log.entries :=
  any_isRuntime_iff log.entries

/-- A runtime error outranks a static one. -/
theorem exitStatus?_eq :
    (log.exitStatus? = some 70 ↔ HasRuntime log.entries) ∧
      (log.exitStatus? = some 65 ↔ ¬ HasRuntime log.entries ∧ HasStatic log.entries) ∧
      (log.exitStatus? = none ↔ ¬ HasRuntime log.entries ∧ ¬ HasStatic log.entries) := by
  rw [← hadError_iff, ← hadRuntimeError_iff]
  unfold exitStatus?
  cases log.hadRuntimeError <;> cases log.hadError <;> decide

end Log

/-! ## Loading -/

namespace Session
variable {s s' : Session} {source : List UInt8}

/-- A source that cannot be read, or after a pending static error, adds what is found in reading it, and
goes no further. -/
theorem load_of_unread (h : s.log.hadError = true ∨ readingDiagnostics source ≠ []) :
    s.load source = (⟨s.world, s.log.reportAll (readingDiagnostics source),
      (programItems (tokenize source).1 s.nextId).2⟩, none) := by
  unfold load loadTokens reportAll
  unfold readingDiagnostics at h ⊢
  dsimp only at h ⊢
  cases hread : programOfItems (programItems (tokenize source).1 s.nextId).1 with
  | error faults =>
    rw [syntaxFaultsFrom_of_error hread]
    simp only [Log.reportAll, List.append_assoc]
  | ok program =>
    rw [syntaxFaultsFrom_of_ok hread, List.map_nil, List.append_nil] at h ⊢
    have herror : (s.log.reportAll ((tokenize source).2.map .ofLexical)).hadError = true := by
      rw [Log.hadError_reportAll, any_isStatic_ofLexical]
      rcases h with hlog | hsome
      · rw [hlog]
        rfl
      · cases hlexical : (tokenize source).2 with
        | nil =>
          rw [hlexical] at hsome
          exact absurd rfl hsome
        | cons first rest => exact Bool.or_true _
    dsimp only
    rw [if_pos herror]

/-- A source that can be read, with no static error pending, is surveyed, and its program is to run if
its names are in order. -/
theorem load_of_read (hlog : s.log.hadError = false) (hread : readingDiagnostics source = []) :
    ∃ program, programOfItems (programItems (tokenize source).1 s.nextId).1 = .ok program ∧
      s.load source = match survey program with
        | .error faults => (⟨s.world, s.log.reportAll (faults.map .binding),
            (programItems (tokenize source).1 s.nextId).2⟩, none)
        | .ok found => (⟨s.world.record found, s.log,
            (programItems (tokenize source).1 s.nextId).2⟩, some program) := by
  have hparts : (tokenize source).2.map Diagnostic.ofLexical = [] ∧
      (syntaxFaultsFrom 0 (tokenize source).1).map Diagnostic.ofSyntax = [] :=
    List.append_eq_nil_iff.mp hread
  obtain ⟨hlexical, hsyntax⟩ := hparts
  unfold load loadTokens reportAll
  dsimp only
  rw [hlexical, Log.reportAll_nil]
  cases hprogram : programOfItems (programItems (tokenize source).1 s.nextId).1 with
  | error faults =>
    rw [syntaxFaultsFrom_of_error hprogram] at hsyntax
    exact absurd (List.map_eq_nil_iff.mp hsyntax) (programOfItems_error_ne_nil hprogram)
  | ok program =>
    refine ⟨program, rfl, ?_⟩
    dsimp only
    rw [hlog]
    cases survey program <;> rfl

/-! ## Runs -/

theorem run?_of_unread (h : s.log.hadError = true ∨ readingDiagnostics source ≠ []) (fuel : Nat) :
    s.run? fuel source = some ⟨s.world, s.log.reportAll (readingDiagnostics source),
      (programItems (tokenize source).1 s.nextId).2⟩ := by
  rw [run?, load_of_unread h]

/-- Runs of sources while a static error is pending. -/
theorem runAll?_of_hadError (h : s.log.hadError = true) (later : List (Nat × List UInt8)) :
    ∃ s', s.runAll? later = some s' ∧ s'.world = s.world ∧
      s'.log.entries = s.log.entries ++ later.flatMap fun run => readingDiagnostics run.2 := by
  induction later generalizing s with
  | nil => exact ⟨s, rfl, rfl, (List.append_nil _).symm⟩
  | cons run rest ih =>
    obtain ⟨fuel, source⟩ := run
    have hrun : s.run? fuel source = some ⟨s.world, _, _⟩ := run?_of_unread (.inl h) fuel
    have hpending : (s.log.reportAll (readingDiagnostics source)).hadError = true := by
      rw [Log.hadError_reportAll, h]
      rfl
    obtain ⟨s', hs', hworld, hentries⟩ := ih (s := ⟨s.world, _, _⟩) hpending
    refine ⟨s', ?_, hworld, ?_⟩
    · rw [runAll?, hrun]
      exact hs'
    · rw [hentries, List.flatMap_cons]
      exact List.append_assoc _ _ _

/-- What a run can add to the diagnostics and to the printed lines. -/
inductive Adds (source : List UInt8) : List Diagnostic → List String → Prop
  | nothing (printed : List String) : Adds source [] printed
  | unread : readingDiagnostics source ≠ [] → Adds source (readingDiagnostics source) []
  | misuses {faults : List BindingFault} : faults ≠ [] → Adds source (faults.map .binding) []
  | failure (fault : RuntimeFault) (printed : List String) : Adds source [.runtime fault] printed

theorem lines_interpret? {fuel : Nat} {w w' : World} {program : List Stmt}
    {fault : Option RuntimeFault} (h : w.interpret? fuel program = some (fault, w')) :
    w.sink.lines.toList <+: w'.sink.lines.toList := by
  have hlines := Machine.lines_run fuel (w.program program)
  have hworld : w' = (Machine.run fuel (w.program program)).world := by
    unfold World.interpret? at h
    dsimp only at h
    split at h
    · cases h
      rfl
    · cases h
      rfl
    · cases h
  rw [hworld]
  exact hlines

/-- A run that comes to its end adds to the diagnostics and to the printed lines. -/
theorem run?_adds {fuel : Nat} (h : s.run? fuel source = some s') :
    ∃ added printed, s'.log.entries = s.log.entries ++ added ∧
      s'.world.sink.lines.toList = s.world.sink.lines.toList ++ printed ∧
      Adds source added printed := by
  by_cases hunread : s.log.hadError = true ∨ readingDiagnostics source ≠ []
  · rw [run?_of_unread hunread] at h
    cases h
    refine ⟨readingDiagnostics source, [], rfl, (List.append_nil _).symm, ?_⟩
    by_cases hnone : readingDiagnostics source = []
    · rw [hnone]
      exact .nothing []
    · exact .unread hnone
  · obtain ⟨hlog, hread⟩ := not_or.mp hunread
    obtain ⟨program, -, hload⟩ := load_of_read (Bool.eq_false_iff.mpr hlog) (not_not.mp hread)
    rw [run?, hload] at h
    cases hsurvey : survey program with
    | error faults =>
      rw [hsurvey] at h
      cases h
      exact ⟨faults.map .binding, [], rfl, (List.append_nil _).symm,
        .misuses (survey_error_ne_nil hsurvey)⟩
    | ok found =>
      rw [hsurvey] at h
      obtain ⟨⟨fault, w⟩, hrun, rfl⟩ := Option.map_eq_some_iff.mp h
      obtain ⟨printed, hprinted⟩ := lines_interpret? hrun
      refine ⟨fault.toList.map .runtime, printed, rfl, hprinted.symm, ?_⟩
      cases fault with
      | none => exact .nothing printed
      | some fault => exact .failure fault printed

/-- What is pending besides static errors makes no difference to a run. -/
theorem run?_of_not_hadError (h : s.log.hadError = false) (fuel : Nat) (source : List UInt8) :
    s.run? fuel source = (s.reset.run? fuel source).map fun s' =>
      { s' with log := ⟨s.log.entries ++ s'.log.entries⟩ } := by
  by_cases hread : readingDiagnostics source = []
  · obtain ⟨program, hprogram, hload⟩ := load_of_read h hread
    obtain ⟨program', hprogram', hload'⟩ := load_of_read (s := s.reset) rfl hread
    obtain rfl : program = program' := Except.ok.inj (hprogram.symm.trans hprogram')
    rw [run?, run?, hload, hload']
    cases survey program with
    | error faults => rfl
    | ok found =>
      dsimp only
      rw [Option.map_map]
      rfl
  · rw [run?_of_unread (.inr hread), run?_of_unread (.inr hread)]
    rfl

/-! ## Sessions and their reports -/

/-- Sessions that runs and resets lead to, each with what the runs since the last reset have added to
the diagnostics. -/
inductive Reached (sink : Sink) (clock : Clock) : Session → List Diagnostic → Prop
  | fresh : Reached sink clock (fresh sink clock) []
  | reset {s : Session} {since : List Diagnostic} :
    Reached sink clock s since → Reached sink clock s.reset []
  | run {s s' : Session} {since added : List Diagnostic} {fuel : Nat} {source : List UInt8} :
    Reached sink clock s since → s.run? fuel source = some s' →
    s'.log.entries = s.log.entries ++ added → Reached sink clock s' (since ++ added)

theorem Reached.entries {sink : Sink} {clock : Clock} {since : List Diagnostic}
    (h : Reached sink clock s since) : s.log.entries = since := by
  induction h with
  | fresh => rfl
  | reset _ _ => rfl
  | run _ _ hadded ih => rw [hadded, ih]

/-- Whatever is requested of a session that has been reached leads to one that has been reached. -/
theorem Reached.performAll? {sink : Sink} {clock : Clock} {since : List Diagnostic}
    (h : Reached sink clock s since) {requests : List Request}
    (hs' : s.performAll? requests = some s') : ∃ since', Reached sink clock s' since' := by
  induction requests generalizing s since with
  | nil =>
    cases hs'
    exact ⟨since, h⟩
  | cons request rest ih =>
    cases request with
    | reset => exact ih h.reset hs'
    | run fuel source =>
      obtain ⟨next, hrun, hrest⟩ := Option.bind_eq_some_iff.mp hs'
      obtain ⟨added, -, hadded, -, -⟩ := run?_adds hrun
      exact ih (h.run hrun hadded) hrest

/-- A run adds to the diagnostics what was found in reading the source, misuses of names, or one fault of
the program, if anything, and prints only in the last case or if it adds nothing. The exit status is
that of what has been added since the last reset. A static error among this keeps sources from being
surveyed and run until the next reset, though not from being read; without one a run goes as if
nothing were pending. -/
theorem run_reports {sink : Sink} {clock : Clock} {since : List Diagnostic}
    (h : Reached sink clock s since) :
    (∀ fuel source s', s.run? fuel source = some s' → ∃ added printed,
      s'.log.entries = s.log.entries ++ added ∧
        s'.world.sink.lines.toList = s.world.sink.lines.toList ++ printed ∧
        Adds source added printed ∧ Reached sink clock s' (since ++ added)) ∧
      ((s.log.exitStatus? = some 70 ↔ HasRuntime since) ∧
        (s.log.exitStatus? = some 65 ↔ ¬ HasRuntime since ∧ HasStatic since) ∧
        (s.log.exitStatus? = none ↔ ¬ HasRuntime since ∧ ¬ HasStatic since)) ∧
      (HasStatic since → ∀ later : List (Nat × List UInt8),
        ∃ s', s.runAll? later = some s' ∧ s'.world = s.world ∧
          s'.log.entries = s.log.entries ++ later.flatMap fun run => readingDiagnostics run.2) ∧
      (¬ HasStatic since → ∀ fuel source, s.run? fuel source =
        (s.reset.run? fuel source).map fun s' =>
          { s' with log := ⟨s.log.entries ++ s'.log.entries⟩ }) := by
  have hentries := h.entries
  refine ⟨fun fuel source s' hrun => ?_, ?_, fun hstatic later => ?_, fun hstatic fuel source => ?_⟩
  · obtain ⟨added, printed, hadded, hprinted, hadds⟩ := run?_adds hrun
    exact ⟨added, printed, hadded, hprinted, hadds, .run h hrun hadded⟩
  · rw [← hentries]
    exact Log.exitStatus?_eq
  · rw [← hentries] at hstatic
    exact runAll?_of_hadError (Log.hadError_iff.mpr hstatic) later
  · rw [← hentries] at hstatic
    exact run?_of_not_hadError (Bool.eq_false_iff.mpr (mt Log.hadError_iff.mp hstatic)) fuel source

/-- `print nil; nil();` prints a line and fails, after which `}` is read and found wrong. Then both
errors are pending: the exit status is that of the first, and the second lets nothing run. -/
theorem run_reports_of_two_errors :
    let requests : List Request :=
      [.run 100 [112, 114, 105, 110, 116, 32, 110, 105, 108, 59, 32, 110, 105, 108, 40, 41, 59],
        .run 100 [125]]
    ∃ s since, (fresh (.ofRoom none) (.standing 0)).performAll? requests = some s ∧
      Reached (.ofRoom none) (.standing 0) s since ∧ HasRuntime since ∧ HasStatic since ∧
      s.world.sink.lines.toList = ["nil"] ∧ s.log.exitStatus? = some 70 ∧
      ∀ later, ∃ s', s.runAll? later = some s' ∧ s'.world = s.world := by
  intro requests
  have hruns : ((fresh (.ofRoom none) (.standing 0)).performAll? requests).any (fun s =>
      s.log.hadRuntimeError && s.log.hadError && s.world.sink.lines.toList == ["nil"]) = true := by
    decide +kernel
  obtain ⟨s, hs, hlog⟩ := (Option.any_eq_true _ _).mp hruns
  simp only [Bool.and_eq_true, beq_iff_eq] at hlog
  obtain ⟨⟨hruntime, hstatic⟩, hlines⟩ := hlog
  obtain ⟨since, hreached⟩ := Reached.fresh.performAll? hs
  rw [Log.hadRuntimeError_iff, hreached.entries] at hruntime
  rw [Log.hadError_iff, hreached.entries] at hstatic
  obtain ⟨-, hstatus, hblocked, -⟩ := run_reports hreached
  refine ⟨s, since, hs, hreached, hruntime, hstatic, hlines, hstatus.1.mpr hruntime,
    fun later => ?_⟩
  obtain ⟨s', hs', hworld, -⟩ := hblocked hstatic later
  exact ⟨s', hs', hworld⟩

end Session

end LoxLang
