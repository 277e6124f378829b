import LoxLang.Proofs.Alike.Steps
import LoxLang.Proofs.Session.Requests
import LoxLang.Proofs.Token.Joining

/-!
Sessions that answer alike. A `Comparison` says which code and values of two sessions are taken for each
other, which tokens later sources may hold, and how a runtime fault of the one is told from the other;
sessions that it relates show the same to all later requests but for the faults that it moves
(`Session.Alike.observe`). A session that can be reached is `Session.Settled`: it is related to itself by
the identities used so far, and so can be compared with one that differs in identities to come.
-/
namespace LoxLang
set_option autoImplicit false

/-! ## Views with moved faults -/

def Diagnostic.mapFault (move : RuntimeFault → RuntimeFault) : Diagnostic → Diagnostic
  | .runtime f => .runtime (move f)
  | d => d

def Log.mapFaults (move : RuntimeFault → RuntimeFault) (log : Log) : Log :=
  ⟨log.entries.map (Diagnostic.mapFault move)⟩

def View.mapFaults (move : RuntimeFault → RuntimeFault) (v : View) : View :=
  { v with diagnostics := v.diagnostics.map (Diagnostic.mapFault move) }

section Moves
variable (move : RuntimeFault → RuntimeFault)

theorem Diagnostic.mapFault_id (d : Diagnostic) : d.mapFault id = d := by
  cases d <;> rfl

theorem Log.mapFaults_id (log : Log) : log.mapFaults id = log := by
  rw [Log.mapFaults, funext Diagnostic.mapFault_id, List.map_id']

theorem View.mapFaults_id (v : View) : v.mapFaults id = v := by
  rw [View.mapFaults, funext Diagnostic.mapFault_id, List.map_id']

@[simp] theorem Diagnostic.isStatic_mapFault (d : Diagnostic) :
    (d.mapFault move).isStatic = d.isStatic := by
  cases d <;> rfl

@[simp] theorem Diagnostic.isRuntime_mapFault (d : Diagnostic) :
    (d.mapFault move).isRuntime = d.isRuntime := by
  cases d <;> rfl

theorem Log.hadError_mapFaults (log : Log) : (log.mapFaults move).hadError = log.hadError := by
  simp only [Log.hadError, Log.mapFaults, List.any_map, Function.comp_def,
    Diagnostic.isStatic_mapFault]

theorem Log.exitStatus?_mapFaults (log : Log) :
    (log.mapFaults move).exitStatus? = log.exitStatus? := by
  have hruntime : (log.mapFaults move).hadRuntimeError = log.hadRuntimeError := by
    simp only [Log.hadRuntimeError, Log.mapFaults, List.any_map, Function.comp_def,
      Diagnostic.isRuntime_mapFault]
  rw [Log.exitStatus?, Log.exitStatus?, hruntime, Log.hadError_mapFaults]

theorem Log.mapFaults_reportAll (log : Log) (ds : List Diagnostic) :
    (log.reportAll ds).mapFaults move = (log.mapFaults move).reportAll (ds.map (·.mapFault move)) := by
  rw [Log.mapFaults, Log.reportAll, List.map_append]
  rfl

theorem Log.mapFaults_reportStatic (log : Log) {ds : List Diagnostic}
    (hstatic : ∀ d ∈ ds, d.isRuntime = false) :
    (log.reportAll ds).mapFaults move = (log.mapFaults move).reportAll ds := by
  have hkept : ds.map (·.mapFault move) = ds := by
    refine (List.map_congr_left fun d hd => ?_).trans (List.map_id ds)
    have hd := hstatic d hd
    cases d with
    | runtime f => cases hd
    | _ => rfl
  rw [Log.mapFaults_reportAll, hkept]

theorem View.of_mapFaults {sink : Sink} (log : Log) (finished : Bool) :
    View.of sink (log.mapFaults move) finished = (View.of sink log finished).mapFaults move := by
  rw [View.of, Log.exitStatus?_mapFaults]
  rfl

end Moves

/-! ## Comparisons -/

theorem endLine_tokenize (source : List UInt8) (nextId : Nat) :
    (Cursor.start (tokenize source).1 nextId).endLine = 1 + Lexing.lineFeeds source := by
  unfold Cursor.start
  dsimp only
  rw [takeWhile_tokenize, tokenize_tokens, List.drop_left]
  rfl

/-- A source that is scanned has the token at its end. -/
theorem stop_mem_tokenize (source : List UInt8) (nextId : Nat) :
    .endOn (Cursor.start (tokenize source).1 nextId).endLine ∈ (tokenize source).1 := by
  rw [endLine_tokenize, tokenize_tokens]
  exact List.mem_append_right _ List.mem_cons_self

/-- How two sessions are compared: what is taken for each other in them, the tokens that may come, and
where a fault of the first one stands in the second. -/
structure Comparison where
  likeness : Likeness
  admits : Token → Prop
  move : RuntimeFault → RuntimeFault
  self : ∀ {t}, admits t → likeness.token t t
  fault : ∀ {f f'}, f.Alike likeness f' → f' = move f

/-- How a source that comes to both sessions is read in them. -/
def Comparison.reading (K : Comparison) : Likeness :=
  .same K.admits K.likeness.number K.likeness.unique

theorem Comparison.reading_le (K : Comparison) : K.reading.Le K.likeness := by
  refine ⟨?_, id⟩
  rintro t u ⟨ht, rfl⟩
  exact K.self ht

/-- Sessions in like worlds, with the same diagnostics but for the faults that are moved. -/
structure Session.Alike (K : Comparison) (s s' : Session) : Prop where
  world : s.world.Alike K.likeness s'.world
  log : s'.log = s.log.mapFaults K.move
  number : ∀ n, K.likeness.number (s.nextId + n) (s'.nextId + n)

/-- Sessions that have taken like programs, or none. -/
structure Session.LoadedAlike (K : Comparison) (l l' : Session × Option (List Stmt)) : Prop where
  session : l.1.Alike K l'.1
  program : Option.Rel (List.Forall₂ (Stmt.Alike K.likeness)) l.2 l'.2

namespace Session.Alike
variable {K : Comparison} {s s' : Session}

theorem reset (h : s.Alike K s') : s.reset.Alike K s'.reset :=
  ⟨h.world, rfl, h.number⟩

theorem view (h : s.Alike K s') : s'.view = s.view.mapFaults K.move := by
  rw [Session.view, h.log, h.world.sink, View.of_mapFaults]
  rfl

theorem reportAll (h : s.Alike K s') {ds : List Diagnostic}
    (hstatic : ∀ d ∈ ds, d.isRuntime = false) : (s.reportAll ds).Alike K (s'.reportAll ds) := by
  refine ⟨h.world, ?_, h.number⟩
  rw [Session.reportAll, Session.reportAll, Log.mapFaults_reportStatic _ _ hstatic, h.log]

/-- Both sessions take the same tokens, or neither does and the same is reported. -/
theorem loadTokens (h : s.Alike K s') {tokens : List Token} (htokens : ∀ t ∈ tokens, K.admits t)
    (hend : K.admits (.endOn (Cursor.start tokens 0).endLine)) :
    LoadedAlike K (s.loadTokens tokens) (s'.loadTokens tokens) := by
  have hsame : List.Forall₂ K.reading.token tokens tokens :=
    List.forall₂_same.mpr fun t ht => ⟨htokens t ht, rfl⟩
  have htoken : ∀ t u, K.reading.token t u → u = t := fun _ _ h => h.2
  have hstatic : ∀ {α : Type} (report : α → Diagnostic), (∀ a, (report a).isRuntime = false) →
      ∀ (faults : List α), ∀ d ∈ faults.map report, d.isRuntime = false := by
    intro α report hreport faults d hd
    obtain ⟨a, -, rfl⟩ := List.mem_map.mp hd
    exact hreport a
  have hstop : K.reading.token (.endOn (Cursor.start tokens s.nextId).endLine)
      (.endOn (Cursor.start tokens s'.nextId).endLine) := ⟨hend, rfl⟩
  obtain ⟨hitems, hnext⟩ := programItems_alike hsame hstop h.number
  have hread := programOfItems_alike hitems
  -- The sessions after the identities of the source have been given.
  have hgiven : Session.Alike K { s with nextId := (programItems tokens s.nextId).2 }
      { s' with nextId := (programItems tokens s'.nextId).2 } := ⟨h.world, h.log, hnext⟩
  unfold Session.loadTokens
  dsimp only
  revert hread
  generalize programOfItems (programItems tokens s.nextId).1 = read
  generalize programOfItems (programItems tokens s'.nextId).1 = read'
  intro hread
  cases hread with
  | error hfaults =>
    rw [eq_of_forall₂ hfaults fun _ _ h => h.eq htoken]
    exact ⟨hgiven.reportAll (hstatic _ (fun _ => rfl) _), .none⟩
  | @ok program program' hprogram =>
    have hsurvey := survey_alike hprogram
    dsimp only
    rw [h.log, Log.hadError_mapFaults]
    split
    · exact ⟨h.log ▸ hgiven, .none⟩
    · revert hsurvey
      generalize survey program = found
      generalize survey program' = found'
      intro hsurvey
      cases hsurvey with
      | error hfaults =>
        rw [eq_of_forall₂ hfaults fun _ _ h => h.eq htoken]
        exact ⟨h.log ▸ hgiven.reportAll (hstatic _ (fun _ => rfl) _), .none⟩
      | ok hfound =>
        have hfound : List.Forall₂ (DistanceEntry.Alike K.likeness) _ _ :=
          hfound.imp fun _ _ hentry => ⟨hentry.number, hentry.distance⟩
        refine ⟨⟨h.world.record hfound, rfl, hnext⟩, .some ?_⟩
        exact Stmt.Alike.monoAll K.reading_le hprogram

theorem load (h : s.Alike K s') {source : List UInt8}
    (htokens : ∀ t ∈ (tokenize source).1, K.admits t) :
    LoadedAlike K (s.load source) (s'.load source) := by
  have hreported : (s.reportAll ((tokenize source).2.map .ofLexical)).Alike K
      (s'.reportAll ((tokenize source).2.map .ofLexical)) := by
    refine h.reportAll fun d hd => ?_
    obtain ⟨f, -, rfl⟩ := List.mem_map.mp hd
    rfl
  exact hreported.loadTokens htokens (htokens _ (stop_mem_tokenize source _))

theorem concluded {w w' : World} (hw : w.Alike K.likeness w') {log log' : Log}
    (hlog : log' = log.mapFaults K.move) {nextId nextId' : Nat}
    (hnumber : ∀ n, K.likeness.number (nextId + n) (nextId' + n)) {fault fault' : Option RuntimeFault}
    (hfault : Option.Rel (RuntimeFault.Alike K.likeness) fault fault') :
    (Session.concluded log nextId fault w).Alike K (.concluded log' nextId' fault' w') := by
  refine ⟨hw, ?_, hnumber⟩
  rw [Session.concluded, Session.concluded, hlog, Log.mapFaults_reportAll]
  cases hfault with
  | none => rfl
  | some hf =>
    rw [K.fault hf]
    rfl

section Taken
variable {l l' : Session} {source source' : List UInt8} {program program' : List Stmt}
  {fuel fuel' : Nat}

/-- Sessions go on alike after two programs, which may run for different numbers of steps, if the
programs come to like machines. -/
theorem run?_taken (hload : s.load source = (l, some program))
    (hload' : s'.load source' = (l', some program')) (hlog : l'.log = l.log.mapFaults K.move)
    (hnumber : ∀ n, K.likeness.number (l.nextId + n) (l'.nextId + n))
    (hrun : (Machine.run fuel (l.world.program program)).Alike K.likeness
      (Machine.run fuel' (l'.world.program program'))) :
    Option.Rel (Session.Alike K) (s.run? fuel source) (s'.run? fuel' source') := by
  have hinterpret := World.interpret?_alike hrun
  unfold Session.run?
  rw [hload, hload']
  dsimp only
  revert hinterpret
  generalize l.world.interpret? fuel program = result
  generalize l'.world.interpret? fuel' program' = result'
  intro hinterpret
  cases hinterpret with
  | none => exact .none
  | some hresult => exact .some (concluded hresult.2 hlog hnumber hresult.1)

theorem partway_taken (hload : s.load source = (l, some program))
    (hload' : s'.load source' = (l', some program')) (hlog : l'.log = l.log.mapFaults K.move)
    (hrun : (Machine.run fuel (l.world.program program)).Alike K.likeness
      (Machine.run fuel' (l'.world.program program'))) :
    s'.partway fuel' source' = (s.partway fuel source).mapFaults K.move := by
  unfold Session.partway
  rw [hload, hload']
  dsimp only
  rw [hrun.world.sink, hlog, View.of_mapFaults]

end Taken

/-- After a request to run a source the same shows as before it, if sessions come to like ones. -/
theorem observe_run {fuel fuel' : Nat} {source source' : List UInt8} {rest : List Request}
    (hrun : Option.Rel (Session.Alike K) (s.run? fuel source) (s'.run? fuel' source'))
    (hpartway : s'.partway fuel' source' = (s.partway fuel source).mapFaults K.move)
    (hrest : ∀ t t' : Session, t.Alike K t' →
      t'.observe rest = (t.observe rest).map (View.mapFaults K.move)) :
    s'.observe (.run fuel' source' :: rest) =
      (s.observe (.run fuel source :: rest)).map (View.mapFaults K.move) := by
  rw [Session.observe, Session.observe, hpartway]
  revert hrun
  generalize s.run? fuel source = next
  generalize s'.run? fuel' source' = next'
  intro hrun
  cases hrun with
  | none => rfl
  | some ht => exact congrArg₂ List.cons ht.view (hrest _ _ ht)

/-- Sessions that are alike go on alike after a source whose tokens are admitted. -/
theorem run? (h : s.Alike K s') {source : List UInt8} (fuel : Nat)
    (htokens : ∀ t ∈ (tokenize source).1, K.admits t) :
    Option.Rel (Session.Alike K) (s.run? fuel source) (s'.run? fuel source) ∧
      s'.partway fuel source = (s.partway fuel source).mapFaults K.move := by
  have hloaded := h.load htokens
  cases hload : s.load source with
  | mk l program =>
    cases hload' : s'.load source with
    | mk l' program' =>
      rw [hload, hload'] at hloaded
      obtain ⟨hl, hprogram⟩ := hloaded
      cases hprogram with
      | none =>
        rw [Session.run?, Session.run?, Session.partway, Session.partway, hload, hload']
        exact ⟨.some hl, hl.view⟩
      | some hprogram =>
        have hrun := Machine.run_alike fuel (hl.world.program hprogram)
        exact ⟨run?_taken hload hload' hl.log hl.number hrun,
          partway_taken hload hload' hl.log hrun⟩

/-- Sessions that are alike show the same to all requests whose tokens are admitted. -/
theorem observe (h : s.Alike K s') {requests : List Request}
    (hadmits : ∀ request ∈ requests, ∀ t ∈ request.tokens, K.admits t) :
    s'.observe requests = (s.observe requests).map (View.mapFaults K.move) := by
  induction requests generalizing s s' with
  | nil => rfl
  | cons request rest ih =>
    obtain ⟨hfirst, hlater⟩ := List.forall_mem_cons.mp hadmits
    cases request with
    | reset => exact congrArg₂ List.cons h.reset.view (ih h.reset hlater)
    | run fuel source =>
      obtain ⟨hrun, hpartway⟩ := h.run? fuel hfirst
      exact observe_run hrun hpartway fun _ _ ht => ih ht hlater

theorem performAll? (h : s.Alike K s') {requests : List Request}
    (hadmits : ∀ request ∈ requests, ∀ t ∈ request.tokens, K.admits t) :
    Option.Rel (Session.Alike K) (s.performAll? requests) (s'.performAll? requests) := by
  induction requests generalizing s s' with
  | nil => exact .some h
  | cons request rest ih =>
    obtain ⟨hfirst, hlater⟩ := List.forall_mem_cons.mp hadmits
    cases request with
    | reset => exact ih h.reset hlater
    | run fuel source =>
      have hrun := (h.run? fuel hfirst).1
      rw [Session.performAll?, Session.performAll?]
      revert hrun
      generalize s.run? fuel source = next
      generalize s'.run? fuel source = next'
      intro hrun
      cases hrun with
      | none => exact .none
      | some ht => exact ih ht hlater

end Session.Alike

/-! ## Sessions that show the same -/

/-- Tokens are the same in both sessions, and identities are paired. -/
def Comparison.same (number : Nat → Nat → Prop)
    (unique : ∀ {i j i' j'}, number i j → number i' j' → (i = i' ↔ j = j')) : Comparison where
  likeness := .same (fun _ => True) number unique
  admits _ := True
  move := id
  self _ := ⟨trivial, rfl⟩
  fault := by
    rintro f f' ⟨cause, -, rfl⟩
    rfl

def Comparison.equal : Comparison :=
  .same Eq @Likeness.unique_of_eq

/-- Sessions between which no faults are moved show the same. -/
theorem Session.Alike.observe_eq {K : Comparison} {s s' : Session} (h : s.Alike K s')
    (hmove : K.move = id) (hadmits : ∀ t, K.admits t) (requests : List Request) :
    s'.observe requests = s.observe requests := by
  have hrequests : ∀ request ∈ requests, ∀ t ∈ request.tokens, K.admits t :=
    fun _ _ t _ => hadmits t
  have hmapped := h.observe hrequests
  rw [hmove, funext View.mapFaults_id, List.map_id'] at hmapped
  exact hmapped

/-! ## Sessions compared with themselves -/

/-- A program is like itself, the identities in it being those given to it. -/
theorem program_alike_self {tokens : List Token} {nextId : Nat} {program : List Stmt}
    (h : programOfItems (programItems tokens nextId).1 = .ok program) :
    List.Forall₂ (Stmt.Alike (.between nextId (programItems tokens nextId).2)) program program := by
  have hsame : List.Forall₂ Likeness.identity.token tokens tokens :=
    List.forall₂_same.mpr fun t _ => ⟨trivial, rfl⟩
  have hnumber : ∀ n, Likeness.identity.number (nextId + n) (nextId + n) := fun _ => rfl
  have hread := programOfItems_alike (programItems_alike hsame ⟨trivial, rfl⟩ hnumber).1
  have hadmits : ∀ t ∈ tokens, (fun _ => True) t := fun _ _ => trivial
  obtain ⟨-, -, hrange⟩ := program_good hadmits h
  rw [h] at hread
  cases hread with
  | ok hprogram =>
    refine Stmt.Alike.weakenAll (L := .identity) id (fun r hr j hj => ?_) hprogram
    have hid : r.id = j := hj
    obtain ⟨hlow, hhigh⟩ := hrange r.id (List.mem_map_of_mem hr)
    exact ⟨hlow, hhigh, hid.symm⟩

/-- A session between its runs, in which all identities that have been used are below the next one. -/
structure Session.Settled (s : Session) : Prop where
  idle : s.Idle fun _ => True
  world : s.world.Alike (.between 0 s.nextId) s.world

namespace Session

/-- The world of a session is like itself after the identities of a source have been given. -/
theorem world_alike_load {s l : Session} {source : List UInt8} {program : Option (List Stmt)}
    (hs : s.world.Alike (.between 0 s.nextId) s.world) (h : s.load source = (l, program)) :
    l.world.Alike (.between 0 l.nextId) l.world := by
  have hself : ∀ d : Distances, d.Alike (.between 0 l.nextId) d :=
    Distances.alike_self fun _ _ hij => hij.2.2
  cases program with
  | none =>
    obtain ⟨hnext, hworld⟩ := load_none h
    have hle : s.nextId ≤ l.nextId := hnext ▸ nextId_le_programItems _ _
    rw [hworld]
    exact hs.mono (Likeness.between_le (Nat.le_refl 0) hle) (hself _)
  | some program =>
    obtain ⟨-, hnext, entries, -, hworld⟩ := load_some h
    have hle : s.nextId ≤ l.nextId := hnext ▸ nextId_le_programItems _ _
    have hmore := hs.mono (Likeness.between_le (Nat.le_refl 0) hle) (hself _)
    rw [hworld]
    exact ⟨hmore.store, hmore.chain, hmore.depth, hself _, hmore.sink, hmore.clock⟩

theorem Settled.run? {s s' : Session} {fuel : Nat} {source : List UInt8} (hs : s.Settled)
    (h : s.run? fuel source = some s') : s'.Settled := by
  refine ⟨hs.idle.run? (fun _ _ => trivial) h, ?_⟩
  cases hload : s.load source with
  | mk l program =>
    have hl := world_alike_load hs.world hload
    unfold Session.run? at h
    rw [hload] at h
    cases program with
    | none =>
      cases h
      exact hl
    | some program =>
      obtain ⟨⟨fault, world'⟩, hrun, rfl⟩ := Option.map_eq_some_iff.mp h
      obtain ⟨hread, hnext, -⟩ := load_some hload
      have hprogram := program_alike_self hread
      rw [← hnext] at hprogram
      have hbelow := Likeness.between_le (Nat.zero_le s.nextId) (Nat.le_refl l.nextId)
      obtain ⟨-, rfl⟩ := halted_of_interpret? hrun
      exact (Machine.run_alike fuel (hl.program (Stmt.Alike.monoAll hbelow hprogram))).world

theorem Settled.fresh {s : Session} (hs : s.Settled) (target : Reference)
    (h : s.nextId ≤ target.id) : s.world.distances.get? target = none := by
  obtain ⟨m, past, hl, -, hworld⟩ := hs.idle
  rw [← hworld]
  exact hl.agrees.numbers.fresh target h

/-- Every session that can be reached is settled. -/
theorem settled_of_performAll? {sink : Sink} {clock : Clock} {past : List Request} {s : Session}
    (h : (fresh sink clock).performAll? past = some s) : s.Settled := by
  have hlast : ∀ start : Session, start.Settled → start.performAll? past = some s → s.Settled := by
    clear h
    induction past with
    | nil =>
      rintro start hstart ⟨⟩
      exact hstart
    | cons request rest ih =>
      intro start hstart h
      cases request with
      | reset => exact ih start.reset ⟨hstart.idle, hstart.world⟩ h
      | run fuel source =>
        obtain ⟨next, hrun, hrest⟩ := Option.bind_eq_some_iff.mp h
        exact ih next (hstart.run? hrun) hrest
  exact hlast _ ⟨idle_fresh _ sink clock, .fresh sink clock⟩ h

end Session

end LoxLang
