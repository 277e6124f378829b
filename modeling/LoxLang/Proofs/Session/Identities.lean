import LoxLang.Proofs.Machine.Moves
import LoxLang.Proofs.Scope.Lifetime

/-!
Identities never clash in a process. All that is read in a process takes its identities from one counter,
whatever it is read for: statements on their own, a single expression, the sources of one session or
another. So the references that were given out are pairwise distinct (`Process.Sound`), the surveys of a
session record each of them once, and what is recorded later leaves what was recorded before as it is
(`Process.Le`). `identities_distinct` says it after all that a process can do.
-/
namespace LoxLang
open Reading
set_option autoImplicit false

/-! ## Recorded distances -/

/-- Some distances are others and those of the local references of a program, which had none. -/
structure Distances.Adds (d : Distances) (program : List Stmt) (d' : Distances) : Prop where
  new : ∀ site ∈ Stmt.sitesAll [] program,
    d.get? site.reference = none ∧ d'.get? site.reference = site.distance?
  old : ∀ target, (∀ site ∈ Stmt.sitesAll [] program, site.reference.id ≠ target.id) →
    d'.get? target = d.get? target

theorem Distances.record_append (d : Distances) (found more : List DistanceEntry) :
    d.record (found ++ more) = (d.record found).record more :=
  List.foldl_append

namespace Session

/-- The distances that a session records when it takes a source. -/
def surveyed (s : Session) (source : List UInt8) : List DistanceEntry :=
  match s.load source with
  | (_, none) => []
  | (_, some program) =>
    match survey program with
    | .ok entries => entries
    | .error _ => []

variable {s s' : Session} {source : List UInt8}

theorem nextId_load (s : Session) (source : List UInt8) :
    (s.load source).1.nextId = (programItems (tokenize source).1 s.nextId).2 := by
  cases hload : s.load source with
  | mk s' program =>
    cases program with
    | none => exact (loadTokens_none hload).1
    | some program => exact (loadTokens_some hload).2.1

theorem surveyed_fresh (s : Session) (source : List UInt8) :
    Fresh s.nextId (programItems (tokenize source).1 s.nextId).2
      ((s.surveyed source).map DistanceEntry.id) := by
  unfold surveyed
  split
  · exact Fresh.nil _ _
  · rename_i loaded program hload
    obtain ⟨hprogram, -, entries, hentries, -⟩ := loadTokens_some hload
    have hadmits : ∀ t ∈ (tokenize source).1, (fun _ => True) t := fun _ _ => trivial
    obtain ⟨hfound, hfresh, -⟩ := program_sites hadmits hprogram hentries
    rw [hentries]
    dsimp only
    rw [hfound]
    exact hfresh.sublist (entryIds_sublist _)

theorem load_distances (s : Session) (source : List UInt8) :
    (s.load source).1.world.distances = s.world.distances.record (s.surveyed source) := by
  unfold surveyed
  split
  · rename_i loaded hload
    rw [hload]
    exact congrArg World.distances (loadTokens_none hload).2
  · rename_i loaded program hload
    obtain ⟨-, -, entries, hentries, hworld⟩ := loadTokens_some hload
    rw [hload, hentries]
    exact congrArg World.distances hworld

/-- A run records what its survey has found, and nothing while it is executed. -/
theorem run?_distances {fuel : Nat} (h : s.run? fuel source = some s') :
    s'.nextId = (programItems (tokenize source).1 s.nextId).2 ∧
      s'.world.distances = s.world.distances.record (s.surveyed source) := by
  have hnext := s.nextId_load source
  have hloaded := s.load_distances source
  unfold run? at h
  split at h
  · rename_i loaded hload
    cases h
    rw [hload] at hnext hloaded
    exact ⟨hnext, hloaded⟩
  · rename_i world log nextId program hload
    obtain ⟨⟨fault, world'⟩, hrun, rfl⟩ := Option.map_eq_some_iff.mp h
    rw [hload] at hnext hloaded
    have hend : world'.distances = world.distances := by
      rw [← (halted_of_interpret? hrun).2, Machine.distances_run]
      rfl
    exact ⟨hnext, hend.trans hloaded⟩

end Session

/-! ## Processes -/

/-- A session of a process, and all distances that were recorded in it, the first at the front. -/
structure Client where
  session : Session
  recorded : List DistanceEntry

/-- A process: the next identity, the references in all trees that were given out, and its sessions. -/
structure Process where
  nextId : Nat
  yielded : List Reference
  clients : List Client

/-- What a process can be asked for. -/
inductive Activity where
  /-- To read the statements among some tokens. -/
  | parse (tokens : List Token)
  /-- To read some tokens as a single expression. -/
  | parseExpression (tokens : List Token)
  /-- To begin a session. -/
  | session (sink : Sink) (clock : Clock)
  /-- To run a source within some steps in one of the sessions. -/
  | run (client fuel : Nat) (source : List UInt8)
  /-- To forget all diagnostics of one of the sessions. -/
  | reset (client : Nat)

/-- The session as it takes its identities from the counter of the process. -/
def Client.at (c : Client) (nextId : Nat) : Session :=
  { c.session with nextId }

def Client.run? (c : Client) (nextId fuel : Nat) (source : List UInt8) : Option Client :=
  ((c.at nextId).run? fuel source).map fun s => ⟨s, c.recorded ++ (c.at nextId).surveyed source⟩

def Client.reset (c : Client) : Client :=
  { c with session := c.session.reset }

namespace Process

def start : Process := ⟨0, [], []⟩

/-- Reads the statements among some tokens; those next to faults are given out too. -/
def parse (p : Process) (tokens : List Token) : Process :=
  let (items, nextId) := programItems tokens p.nextId
  { p with
    nextId
    yielded := p.yielded ++ Stmt.referencesAll (items.filterMap ProgramItem.declaration?) }

/-- Reads a single expression, which is given out if there is no fault. -/
def parseExpression (p : Process) (tokens : List Token) : Process :=
  let (result, nextId) := expressionOfTokens tokens p.nextId
  let references := match result with
    | .ok e => e.references
    | .error _ => []
  { p with nextId, yielded := p.yielded ++ references }

/-- What a process comes to if the session that is asked exists and a run comes to its end. -/
def perform? (p : Process) : Activity → Option Process
  | .parse tokens => some (p.parse tokens)
  | .parseExpression tokens => some (p.parseExpression tokens)
  | .session sink clock => some { p with clients := p.clients ++ [⟨.fresh sink clock, []⟩] }
  | .run i fuel source =>
    (p.clients[i]?.bind (·.run? p.nextId fuel source)).map fun c =>
      { p.parse (tokenize source).1 with clients := p.clients.set i c }
  | .reset i => p.clients[i]?.map fun c => { p with clients := p.clients.set i c.reset }

def performAll? (p : Process) : List Activity → Option Process
  | [] => some p
  | activity :: rest => (p.perform? activity).bind (performAll? · rest)

end Process

/-! ## What holds at any time -/

/-- What is recorded in a session is recorded once, for identities before the next one. -/
structure Client.Sound (nextId : Nat) (c : Client) : Prop where
  recorded : Fresh 0 nextId (c.recorded.map DistanceEntry.id)
  distances : c.session.world.distances = Distances.empty.record c.recorded

/-- What was given out is distinct and comes before the next identity. -/
structure Process.Sound (p : Process) : Prop where
  yielded : Fresh 0 p.nextId (referenceIds p.yielded)
  clients : ∀ c ∈ p.clients, c.Sound p.nextId

/-- A session goes on, and only distances for identities that have not been given out are added. -/
def Client.Le (nextId : Nat) (c c' : Client) : Prop :=
  ∃ more, c'.recorded = c.recorded ++ more ∧ ∀ entry ∈ more, nextId ≤ entry.id

structure Process.Le (p p' : Process) : Prop where
  nextId : p.nextId ≤ p'.nextId
  yielded : p.yielded <+: p'.yielded
  clients : ∀ (i : Nat) (c : Client), p.clients[i]? = some c →
    ∃ c', p'.clients[i]? = some c' ∧ c.Le p.nextId c'

namespace Client
variable {nextId next : Nat} {c c' c'' : Client}

theorem Sound.mono (h : c.Sound nextId) (hle : nextId ≤ next) : c.Sound next :=
  ⟨h.recorded.mono (Nat.le_refl 0) hle, h.distances⟩

theorem Le.refl (nextId : Nat) (c : Client) : c.Le nextId c :=
  ⟨[], (List.append_nil _).symm, List.forall_mem_nil _⟩

theorem Le.trans (h : c.Le nextId c') (hle : nextId ≤ next) (h' : c'.Le next c'') :
    c.Le nextId c'' := by
  obtain ⟨more, hrecorded, hmore⟩ := h
  obtain ⟨most, hrecorded', hmost⟩ := h'
  refine ⟨more ++ most, by rw [hrecorded', hrecorded, List.append_assoc], ?_⟩
  exact List.forall_mem_append.mpr ⟨hmore, fun entry hentry => Nat.le_trans hle (hmost entry hentry)⟩

theorem Sound.get?_eq_none (h : c.Sound nextId) {target : Reference} (htarget : nextId ≤ target.id) :
    c.session.world.distances.get? target = none := by
  rw [h.distances, Distances.get?_record_of_not_mem fun entry hentry heq => ?_,
    Distances.get?_empty]
  have hbelow := (h.recorded.2 _ (List.mem_map_of_mem hentry)).2
  omega

theorem Le.get?_eq (h : c.Le nextId c') (hc : c.Sound nextId) (hc' : c'.Sound next)
    {target : Reference} (htarget : target.id < nextId) :
    c'.session.world.distances.get? target = c.session.world.distances.get? target := by
  obtain ⟨more, hrecorded, hmore⟩ := h
  rw [hc'.distances, hrecorded, Distances.record_append, ← hc.distances]
  refine Distances.get?_record_of_not_mem fun entry hentry heq => ?_
  have hnew := hmore entry hentry
  omega

theorem Sound.run? (h : c.Sound nextId) {fuel : Nat} {source : List UInt8}
    (hrun : c.run? nextId fuel source = some c') :
    c'.Sound (programItems (tokenize source).1 nextId).2 ∧ c.Le nextId c' := by
  obtain ⟨s, hs, rfl⟩ := Option.map_eq_some_iff.mp hrun
  obtain ⟨-, hdistances⟩ := Session.run?_distances hs
  have hfresh := (c.at nextId).surveyed_fresh source
  -- The survey only finds references of the source, and these were read from the counter on.
  refine ⟨⟨?_, ?_⟩, _, rfl, fun entry hentry => (hfresh.2 _ (List.mem_map_of_mem hentry)).1⟩
  · rw [List.map_append]
    exact h.recorded.append hfresh (Nat.zero_le _) (nextId_le_programItems _ _)
  · rw [Distances.record_append, ← h.distances]
    exact hdistances

end Client

namespace Process
variable {p p' p'' : Process}

theorem Le.rfl : p.Le p :=
  ⟨Nat.le_refl _, List.prefix_refl _, fun _ c hc => ⟨c, hc, .refl _ c⟩⟩

theorem Le.trans (h : p.Le p') (h' : p'.Le p'') : p.Le p'' := by
  refine ⟨Nat.le_trans h.nextId h'.nextId, h.yielded.trans h'.yielded, fun i c hc => ?_⟩
  obtain ⟨c', hc', hle⟩ := h.clients i c hc
  obtain ⟨c'', hc'', hle'⟩ := h'.clients i c' hc'
  exact ⟨c'', hc'', hle.trans h.nextId hle'⟩

/-- Reading gives out new references and leaves the sessions alone. -/
theorem Sound.reads (h : p.Sound) {nextId : Nat} {references : List Reference}
    (hnext : p.nextId ≤ nextId) (hfresh : Fresh p.nextId nextId (referenceIds references)) :
    Sound ⟨nextId, p.yielded ++ references, p.clients⟩ ∧
      p.Le ⟨nextId, p.yielded ++ references, p.clients⟩ := by
  refine ⟨⟨?_, fun c hc => (h.clients c hc).mono hnext⟩, hnext, List.prefix_append _ _,
    fun i c hc => ⟨c, hc, .refl _ c⟩⟩
  rw [referenceIds_append]
  exact h.yielded.append hfresh (Nat.zero_le _) hnext

theorem Sound.parse (h : p.Sound) (tokens : List Token) :
    (p.parse tokens).Sound ∧ p.Le (p.parse tokens) := by
  have hadmits : ∀ t ∈ tokens, (fun _ => True) t := fun _ _ => trivial
  obtain ⟨hnext, -, hfresh⟩ := programItems_good hadmits p.nextId
  exact h.reads hnext hfresh

theorem Sound.parseExpression (h : p.Sound) (tokens : List Token) :
    (p.parseExpression tokens).Sound ∧ p.Le (p.parseExpression tokens) := by
  have hgood := @wholeExpression_reads (fun _ => True) (depthBound tokens) p.nextId
    (.start tokens p.nextId) rfl fun _ _ => trivial
  unfold Process.parseExpression expressionOfTokens
  cases hr : wholeExpression (depthBound tokens) (.start tokens p.nextId) with
  | ok e place =>
    rw [hr] at hgood
    exact h.reads hgood.2.1 hgood.2.2.2
  | error stop place =>
    rw [hr] at hgood
    exact h.reads hgood.2 (Fresh.nil _ _)

theorem Sound.set (hp : p'.Sound) {i : Nat} {c c' : Client} (hc : p.clients[i]? = some c)
    (hsound : c'.Sound p'.nextId) (hle : c.Le p.nextId c') (hle' : p.Le p')
    (hclients : p'.clients = p.clients) :
    Sound { p' with clients := p.clients.set i c' } ∧ p.Le { p' with clients := p.clients.set i c' } := by
  refine ⟨⟨hp.yielded, fun other hother => ?_⟩, hle'.nextId, hle'.yielded, fun j other hother => ?_⟩
  · rcases List.mem_or_eq_of_mem_set hother with hold | rfl
    · exact hp.clients other (hclients ▸ hold)
    · exact hsound
  · by_cases hij : i = j
    · subst hij
      obtain rfl : c = other := Option.some.inj (hc.symm.trans hother)
      refine ⟨c', ?_, hle⟩
      have hi : i < p.clients.length := (List.getElem?_eq_some_iff.mp hc).1
      exact List.getElem?_set_self hi
    · exact ⟨other, (List.getElem?_set_ne hij).trans hother, .refl _ other⟩

/-- Whatever a process does, it stays sound and goes on. -/
theorem Sound.perform? (h : p.Sound) {activity : Activity} (hp : p.perform? activity = some p') :
    p'.Sound ∧ p.Le p' := by
  cases activity with
  | parse tokens =>
    cases hp
    exact h.parse tokens
  | parseExpression tokens =>
    cases hp
    exact h.parseExpression tokens
  | session sink clock =>
    cases hp
    refine ⟨⟨h.yielded, List.forall_mem_append.mpr ⟨h.clients, ?_⟩⟩, Nat.le_refl _,
      List.prefix_refl _, fun i c hc => ⟨c, ?_, .refl _ c⟩⟩
    · exact List.forall_mem_singleton.mpr ⟨Fresh.nil _ _, rfl⟩
    · exact (List.getElem?_append_left (List.getElem?_eq_some_iff.mp hc).1).trans hc
  | run i fuel source =>
    obtain ⟨c', hrun, rfl⟩ := Option.map_eq_some_iff.mp hp
    obtain ⟨c, hc, hrun⟩ := Option.bind_eq_some_iff.mp hrun
    obtain ⟨hsound, hle⟩ := (h.clients c (List.mem_of_getElem? hc)).run? hrun
    obtain ⟨hparsed, hparsedLe⟩ := h.parse (tokenize source).1
    exact hparsed.set hc hsound hle hparsedLe rfl
  | reset i =>
    obtain ⟨c, hc, rfl⟩ := Option.map_eq_some_iff.mp hp
    have hsound := h.clients c (List.mem_of_getElem? hc)
    have hreset : c.reset.Sound p.nextId := ⟨hsound.recorded, hsound.distances⟩
    exact h.set hc hreset (.refl _ c) .rfl rfl

theorem Sound.performAll? (h : p.Sound) {activities : List Activity}
    (hp : p.performAll? activities = some p') : p'.Sound ∧ p.Le p' := by
  induction activities generalizing p with
  | nil =>
    cases hp
    exact ⟨h, .rfl⟩
  | cons activity rest ih =>
    obtain ⟨mid, hfirst, hrest⟩ := Option.bind_eq_some_iff.mp hp
    obtain ⟨hmid, hle⟩ := h.perform? hfirst
    obtain ⟨hlast, hle'⟩ := ih hmid hrest
    exact ⟨hlast, hle.trans hle'⟩

theorem sound_start : start.Sound :=
  ⟨Fresh.nil _ _, List.forall_mem_nil _⟩

end Process

/-- A source that is taken adds the distances of its local references, and its execution changes none. -/
theorem Client.Sound.adds {nextId : Nat} {c : Client} (h : c.Sound nextId) {source : List UInt8}
    {s : Session} {program : List Stmt} (hload : (c.at nextId).load source = (s, some program)) :
    c.session.world.distances.Adds program s.world.distances := by
  obtain ⟨hprogram, -, entries, hentries, hworld⟩ := Session.loadTokens_some hload
  have hadmits : ∀ t ∈ (tokenize source).1, (fun _ => True) t := fun _ _ => trivial
  obtain ⟨rfl, ⟨hnodup, hrange⟩, -⟩ := program_sites hadmits hprogram hentries
  have hdistances : s.world.distances = c.session.world.distances.record
      ((Stmt.sitesAll [] program).filterMap Site.toEntry) := congrArg World.distances hworld
  have hnone : ∀ site ∈ Stmt.sitesAll [] program,
      c.session.world.distances.get? site.reference = none :=
    fun site hsite => h.get?_eq_none (hrange _ (mem_siteIds hsite)).1
  rw [hdistances]
  exact ⟨fun site hsite => ⟨hnone site hsite,
    Distances.get?_record_sites hnodup hsite (hnone site hsite)⟩,
    fun target => Distances.get?_record_other⟩

/-- After all that a process has done, the references in the trees that it has given out have pairwise
distinct identities. In each of its sessions a distance is recorded at most once for an identity, the
distances are what was recorded, no distance of a reference that was given out changes later, and a source
that is taken adds the distances of its own local references before it is executed. -/
theorem identities_distinct {past : List Activity} {p : Process}
    (h : Process.start.performAll? past = some p) :
    (referenceIds p.yielded).Nodup ∧
      ∀ (i : Nat) (c : Client), p.clients[i]? = some c →
        (c.recorded.map DistanceEntry.id).Nodup ∧
        c.session.world.distances = Distances.empty.record c.recorded ∧
        (∀ later p', p.performAll? later = some p' → ∃ c', p'.clients[i]? = some c' ∧
          ∀ target ∈ p.yielded, c'.session.world.distances.get? target =
            c.session.world.distances.get? target) ∧
        ∀ source s program, (c.at p.nextId).load source = (s, some program) →
          c.session.world.distances.Adds program s.world.distances ∧
          ∀ n, (Machine.run n (s.world.program program)).world.distances = s.world.distances := by
  obtain ⟨hsound, -⟩ := Process.sound_start.performAll? h
  refine ⟨hsound.yielded.1, fun i c hc => ?_⟩
  have hclient := hsound.clients c (List.mem_of_getElem? hc)
  refine ⟨hclient.recorded.1, hclient.distances, fun later p' hlater => ?_,
    fun source s program hload => ⟨hclient.adds hload, fun n => Machine.distances_run n _⟩⟩
  obtain ⟨hsound', hle⟩ := hsound.performAll? hlater
  obtain ⟨c', hc', hgoes⟩ := hle.clients i c hc
  refine ⟨c', hc', fun target htarget => ?_⟩
  exact hgoes.get?_eq hclient (hsound'.clients c' (List.mem_of_getElem? hc'))
    (hsound.yielded.2 _ (List.mem_map_of_mem htarget)).2

/-- Two sessions, and a source with a fault between their runs; then a function of the first run is called.
The assignment takes an identity after that of its value, and the variable read in its place is gone. -/
theorem identities_distinct_of_two_sessions :
    let session : Activity := .session (.ofRoom none) (.standing 0)
    let first := "fun make() \x7b var n = 0; fun next() \x7b n = n + 1; return n; \x7d return next; \x7d"
    let broken := "print clock; print = 2;"
    let second := "\x7b var a = 1; print a; \x7d"
    let past : List Activity := [session, session, .run 0 100 first.toUTF8.toList,
      .parse (tokenize broken.toUTF8.toList).1, .run 1 100 second.toUTF8.toList]
    let later : List Activity := [.run 0 100 "make()();".toUTF8.toList]
    ∃ p p' c c', Process.start.performAll? past = some p ∧ p.performAll? later = some p' ∧
      referenceIds p.yielded = [2, 1, 3, 4, 5, 6] ∧
      p.clients.map Client.recorded = [[⟨1, 1⟩, ⟨2, 1⟩, ⟨3, 1⟩, ⟨4, 0⟩], [⟨6, 0⟩]] ∧
      p.clients[0]? = some c ∧ p'.clients[0]? = some c' ∧
      ∀ target ∈ p.yielded, c'.session.world.distances.get? target =
        c.session.world.distances.get? target := by
  intro session first broken second past later
  have hdone : ((Process.start.performAll? past).any fun p =>
      referenceIds p.yielded == [2, 1, 3, 4, 5, 6] &&
        (p.clients.map Client.recorded == [[⟨1, 1⟩, ⟨2, 1⟩, ⟨3, 1⟩, ⟨4, 0⟩], [⟨6, 0⟩]] &&
          (p.performAll? later).isSome)) = true := by
    decide +kernel
  obtain ⟨p, hp, hholds⟩ := (Option.any_eq_true _ _).mp hdone
  obtain ⟨hyielded, hholds⟩ := Bool.and_eq_true_iff.mp hholds
  obtain ⟨hrecorded, hgoes⟩ := Bool.and_eq_true_iff.mp hholds
  obtain ⟨p', hp'⟩ := Option.isSome_iff_exists.mp hgoes
  obtain ⟨c, rest, hclients, -, -⟩ := List.map_eq_cons_iff.mp (eq_of_beq hrecorded)
  have hc : p.clients[0]? = some c := by rw [hclients]; rfl
  obtain ⟨-, hkept⟩ := identities_distinct hp
  obtain ⟨c', hc', hsame⟩ := (hkept 0 c hc).2.2.1 later p' hp'
  exact ⟨p, p', c, c', hp, hp', eq_of_beq hyielded, eq_of_beq hrecorded, hc, hc', hsame⟩

end LoxLang
