import LoxLang.Proofs.Session.Comparison

/-!
Lines and identities never decide anything. Two sessions get token lists that agree but for lines, and
take the identities of their references from counters that stand anywhere and may be moved forward in
between; they show the same but for the lines of what they report (`lines_and_identities_irrelevant`).
Closures of earlier programs are still there in later ones, so identities are paired for the whole life
of two sessions: each program adds the pairs of its own references (`Likeness.extend`), and this is one to
one because both counters are above all earlier pairs (`Session.Twins`).
-/
namespace LoxLang
set_option autoImplicit false

/-! ## Without lines -/

def Token.unlined (t : Token) : Token :=
  { t with line := 0 }

def Diagnostic.unlined : Diagnostic → Diagnostic
  | .lexical _ message => .lexical 0 message
  | .grammar token message => .grammar token.unlined message
  | .binding f => .binding ⟨f.cause, f.token.unlined⟩
  | .runtime f => .runtime ⟨f.cause, 0⟩
  | .file message => .file message
  | .encoding f => .encoding f

def Log.unlined (log : Log) : List Diagnostic :=
  log.entries.map Diagnostic.unlined

/-- What shows but for the lines of what is reported. -/
def View.unlined (v : View) : View :=
  { v with diagnostics := v.diagnostics.map Diagnostic.unlined }

theorem Token.unlined_eq_iff {t u : Token} :
    u.unlined = t.unlined ↔ u.kind = t.kind ∧ u.lexeme = t.lexeme := by
  obtain ⟨kind, lexeme, line⟩ := t
  obtain ⟨kind', lexeme', line'⟩ := u
  simp [unlined]

@[simp] theorem Diagnostic.isStatic_unlined (d : Diagnostic) : d.unlined.isStatic = d.isStatic := by
  cases d <;> rfl

@[simp] theorem Diagnostic.isRuntime_unlined (d : Diagnostic) : d.unlined.isRuntime = d.isRuntime := by
  cases d <;> rfl

theorem Log.hadError_unlined (log : Log) : log.hadError = log.unlined.any Diagnostic.isStatic := by
  simp only [hadError, unlined, List.any_map, Function.comp_def, Diagnostic.isStatic_unlined]

theorem Log.hadRuntimeError_unlined (log : Log) :
    log.hadRuntimeError = log.unlined.any Diagnostic.isRuntime := by
  simp only [hadRuntimeError, unlined, List.any_map, Function.comp_def, Diagnostic.isRuntime_unlined]

theorem Log.unlined_reportAll (log : Log) (ds : List Diagnostic) :
    (log.reportAll ds).unlined = log.unlined ++ ds.map Diagnostic.unlined :=
  List.map_append

theorem View.unlined_of {log log' : Log} (h : log'.unlined = log.unlined) (sink : Sink)
    (finished : Bool) : (View.of sink log' finished).unlined = (View.of sink log finished).unlined := by
  have hstatus : log'.exitStatus? = log.exitStatus? := by
    rw [Log.exitStatus?, Log.exitStatus?, Log.hadError_unlined, Log.hadRuntimeError_unlined, h,
      ← Log.hadError_unlined, ← Log.hadRuntimeError_unlined]
  rw [View.of, View.of, hstatus]
  exact congrArg (fun ds => View.mk sink.lines.toList ds log.exitStatus? finished) h

/-! ## Sessions that read tokens -/

/-- What a session can be asked for from the tokens of a source on. -/
inductive TokenRequest where
  /-- To run the tokens of a source within some steps, with the faults that came up between them. -/
  | run (fuel : Nat) (faults : List LexicalFault) (tokens : List Token)
  /-- To forget all diagnostics. -/
  | reset
  /-- To pass over some identities, which are given out elsewhere. -/
  | skip (count : Nat)

/-- What is asked for but for lines and identities. -/
def TokenRequest.unlined : TokenRequest → TokenRequest
  | .run fuel faults tokens =>
    .run fuel (faults.map fun f => { f with line := 0 }) (tokens.map Token.unlined)
  | .reset => .reset
  | .skip _ => .skip 0

namespace Session

def skip (s : Session) (count : Nat) : Session :=
  { s with nextId := s.nextId + count }

/-- Runs tokens, their program within some steps. -/
def runTokens? (fuel : Nat) (s : Session) (tokens : List Token) : Option Session :=
  match s.loadTokens tokens with
  | (s, none) => some s
  | (⟨world, log, nextId⟩, some program) =>
    (world.interpret? fuel program).map fun (fault, world) => concluded log nextId fault world

/-- The view of a run of tokens that is not finished after some steps. -/
def partwayTokens (fuel : Nat) (s : Session) (tokens : List Token) : View :=
  match s.loadTokens tokens with
  | (s, none) => s.view
  | (⟨world, log, _⟩, some program) =>
    .of (Machine.run fuel (world.program program)).world.sink log false

/-- The views after each of some requests, up to a run that does not finish. -/
def observeTokens (s : Session) : List TokenRequest → List View
  | [] => []
  | .reset :: rest => s.reset.view :: s.reset.observeTokens rest
  | .skip count :: rest => (s.skip count).view :: (s.skip count).observeTokens rest
  | .run fuel faults tokens :: rest =>
    match (s.reportAll (faults.map .ofLexical)).runTokens? fuel tokens with
    | some s' => s'.view :: s'.observeTokens rest
    | none => [(s.reportAll (faults.map .ofLexical)).partwayTokens fuel tokens]

end Session

/-! ## Pairs of identities -/

namespace Likeness

/-- Tokens are taken for each other when they agree but for their lines. -/
def Unlined (L : Likeness) : Prop :=
  ∀ t u, L.token t u ↔ u.unlined = t.unlined

/-- The pairs so far are below two counters. -/
def Below (L : Likeness) (nextId nextId' : Nat) : Prop :=
  ∀ i j, L.number i j → i < nextId ∧ j < nextId'

variable {L : Likeness} {nextId nextId' : Nat}

/-- The pairs so far and the identities that two counters give in the same order, as far as `admits`
goes. -/
def extend (L : Likeness) (admits : Nat → Prop) (hbelow : L.Below nextId nextId') : Likeness where
  token := L.token
  number i j := L.number i j ∨ ∃ n, admits n ∧ i = nextId + n ∧ j = nextId' + n
  kind := L.kind
  lexeme := L.lexeme
  unique := by
    rintro i j i' j' (hold | ⟨n, -, rfl, rfl⟩) (hold' | ⟨n', -, rfl, rfl⟩)
    · exact L.unique hold hold'
    · have hlow := hbelow i j hold
      omega
    · have hlow := hbelow i' j' hold'
      omega
    · omega

theorem le_extend (admits : Nat → Prop) (hbelow : L.Below nextId nextId') :
    L.Le (L.extend admits hbelow) :=
  ⟨id, .inl⟩

theorem extend_new {admits : Nat → Prop} {hbelow : L.Below nextId nextId'} {i j : Nat}
    (h : (L.extend admits hbelow).number i j) (hi : nextId ≤ i) :
    ∃ n, admits n ∧ i = nextId + n ∧ j = nextId' + n := by
  rcases h with hold | hnew
  · exact absurd (hbelow i j hold).1 (Nat.not_lt.mpr hi)
  · exact hnew

end Likeness

/-! ## Twins -/

/-- Sessions in like worlds that have reported the same but for lines, and whose counters are above all
identities with a distance and all pairs. -/
structure Session.Twins (L : Likeness) (s s' : Session) : Prop where
  unlined : L.Unlined
  below : L.Below s.nextId s'.nextId
  world : s.world.Alike L s'.world
  log : s'.log.unlined = s.log.unlined
  fresh : ∀ target : Reference, s.nextId ≤ target.id → s.world.distances.get? target = none
  fresh' : ∀ target : Reference, s'.nextId ≤ target.id → s'.world.distances.get? target = none

section Diagnostics
variable {L : Likeness}

theorem map_unlined_ofSyntax (hL : L.Unlined) {faults faults' : List SyntaxFault}
    (h : List.Forall₂ (SyntaxFault.Alike L) faults faults') :
    (faults'.map Diagnostic.ofSyntax).map Diagnostic.unlined =
      (faults.map Diagnostic.ofSyntax).map Diagnostic.unlined := by
  induction h with
  | nil => rfl
  | @cons f f' _ _ hf _ ih =>
    refine congrArg₂ List.cons ?_ ih
    simp only [Diagnostic.ofSyntax, Diagnostic.unlined, (hL _ _).mp hf.token, hf.cause]

theorem map_unlined_binding (hL : L.Unlined) {faults faults' : List BindingFault}
    (h : List.Forall₂ (BindingFault.Alike L) faults faults') :
    (faults'.map Diagnostic.binding).map Diagnostic.unlined =
      (faults.map Diagnostic.binding).map Diagnostic.unlined := by
  induction h with
  | nil => rfl
  | @cons f f' _ _ hf _ ih =>
    refine congrArg₂ List.cons ?_ ih
    simp only [Diagnostic.unlined, (hL _ _).mp hf.token, hf.cause]

theorem map_unlined_runtime {fault fault' : Option RuntimeFault}
    (h : Option.Rel (RuntimeFault.Alike L) fault fault') :
    (fault'.toList.map Diagnostic.runtime).map Diagnostic.unlined =
      (fault.toList.map Diagnostic.runtime).map Diagnostic.unlined := by
  cases h with
  | none => rfl
  | some hf => cases hf with
    | intro cause _ => rfl

end Diagnostics

namespace Session.Twins
variable {L : Likeness} {s s' : Session}

theorem view (h : s.Twins L s') : s'.view.unlined = s.view.unlined := by
  rw [Session.view, Session.view, h.world.sink]
  exact View.unlined_of h.log _ _

theorem reset (h : s.Twins L s') : s.reset.Twins L s'.reset :=
  ⟨h.unlined, h.below, h.world, rfl, h.fresh, h.fresh'⟩

theorem skip (h : s.Twins L s') (count count' : Nat) : (s.skip count).Twins L (s'.skip count') := by
  refine ⟨h.unlined, fun i j hij => ?_, h.world, h.log, fun target htarget => ?_,
    fun target htarget => ?_⟩
  · obtain ⟨hi, hj⟩ := h.below i j hij
    exact ⟨Nat.lt_add_right count hi, Nat.lt_add_right count' hj⟩
  · exact h.fresh target (Nat.le_trans (Nat.le_add_right _ _) htarget)
  · exact h.fresh' target (Nat.le_trans (Nat.le_add_right _ _) htarget)

theorem reportAll (h : s.Twins L s') {ds ds' : List Diagnostic}
    (hds : ds'.map Diagnostic.unlined = ds.map Diagnostic.unlined) :
    (s.reportAll ds).Twins L (s'.reportAll ds') := by
  refine ⟨h.unlined, h.below, h.world, ?_, h.fresh, h.fresh'⟩
  rw [Session.reportAll, Session.reportAll, Log.unlined_reportAll, Log.unlined_reportAll, h.log, hds]

/-- The identities of tokens that are read in both sessions can be paired, though no others yet. -/
theorem numbered (h : s.Twins L s') {tokens tokens' : List Token}
    (hitems : ∀ n, (L.extend (fun _ => True) h.below).number ((programItems tokens s.nextId).2 + n)
      ((programItems tokens' s'.nextId).2 + n)) :
    Session.Twins
      (L.extend (fun n => s.nextId + n < (programItems tokens s.nextId).2) h.below)
      { s with nextId := (programItems tokens s.nextId).2 }
      { s' with nextId := (programItems tokens' s'.nextId).2 } := by
  have hle := nextId_le_programItems tokens s.nextId
  have hle' := nextId_le_programItems tokens' s'.nextId
  obtain ⟨given, -, hnext, hnext'⟩ := Likeness.extend_new (hitems 0) hle
  refine ⟨h.unlined, ?_, ?_, h.log, fun target htarget => h.fresh target (Nat.le_trans hle htarget),
    fun target htarget => h.fresh' target (Nat.le_trans hle' htarget)⟩
  · rintro i j (hold | ⟨n, hn, rfl, rfl⟩)
    · obtain ⟨hi, hj⟩ := h.below i j hold
      exact ⟨Nat.lt_of_lt_of_le hi hle, Nat.lt_of_lt_of_le hj hle'⟩
    · dsimp only
      omega
  · refine h.world.mono (Likeness.le_extend _ h.below) ?_
    rintro r r' (hold | ⟨n, -, hr, hr'⟩)
    · exact h.world.distances r r' hold
    -- Identities that are new have no distance on either side.
    · rw [h.fresh r (hr ▸ Nat.le_add_right _ _), h.fresh' r' (hr' ▸ Nat.le_add_right _ _)]

/-- Distances of paired identities are below both counters. -/
theorem record (h : s.Twins L s') {found found' : List DistanceEntry}
    (hfound : List.Forall₂ (DistanceEntry.Alike L) found found') :
    Session.Twins L { s with world := s.world.record found }
      { s' with world := s'.world.record found' } := by
  have hentries : (∀ entry ∈ found, entry.id < s.nextId) ∧ ∀ entry ∈ found', entry.id < s'.nextId := by
    induction hfound with
    | nil => exact ⟨List.forall_mem_nil _, List.forall_mem_nil _⟩
    | cons hentry _ ih =>
      obtain ⟨hi, hj⟩ := h.below _ _ hentry.number
      exact ⟨List.forall_mem_cons.mpr ⟨hi, ih.1⟩, List.forall_mem_cons.mpr ⟨hj, ih.2⟩⟩
  refine ⟨h.unlined, h.below, h.world.record hfound, h.log, fun target htarget => ?_,
    fun target htarget => ?_⟩
  · refine (Distances.get?_record_of_not_mem fun entry hentry heq => ?_).trans (h.fresh target htarget)
    exact absurd (heq ▸ hentries.1 entry hentry) (Nat.not_lt.mpr htarget)
  · refine (Distances.get?_record_of_not_mem fun entry hentry heq => ?_).trans (h.fresh' target htarget)
    exact absurd (heq ▸ hentries.2 entry hentry) (Nat.not_lt.mpr htarget)

/-- Twins stay twins after they have read tokens that agree but for lines, and both take a program or
neither does. -/
theorem loadTokens (h : s.Twins L s') {tokens tokens' : List Token}
    (htokens : tokens'.map Token.unlined = tokens.map Token.unlined) :
    ∃ L', (s.loadTokens tokens).1.Twins L' (s'.loadTokens tokens').1 ∧
      Option.Rel (List.Forall₂ (Stmt.Alike L')) (s.loadTokens tokens).2 (s'.loadTokens tokens').2 := by
  let wide := L.extend (fun _ => True) h.below
  let narrow := L.extend (fun n => s.nextId + n < (programItems tokens s.nextId).2) h.below
  have hsame : List.Forall₂ wide.token tokens tokens' := by
    have hmap : List.Forall₂ Eq (tokens.map Token.unlined) (tokens'.map Token.unlined) :=
      htokens ▸ List.forall₂_refl _
    refine (List.forall₂_map_left_iff.mp (List.forall₂_map_right_iff.mp hmap)).imp fun t u heq => ?_
    exact (h.unlined t u).mpr heq.symm
  have hstop : wide.token (.endOn (Cursor.start tokens s.nextId).endLine)
      (.endOn (Cursor.start tokens' s'.nextId).endLine) := (h.unlined _ _).mpr rfl
  obtain ⟨hitems, hnext⟩ := programItems_alike hsame hstop fun n => .inr ⟨n, trivial, rfl, rfl⟩
  have hgiven := h.numbered hnext
  have hpending : s'.log.hadError = s.log.hadError := by
    rw [Log.hadError_unlined, h.log, ← Log.hadError_unlined]
  have hread := programOfItems_alike hitems
  unfold Session.loadTokens
  dsimp only
  cases hprogram : programOfItems (programItems tokens s.nextId).1 with
  | error faults =>
    rw [hprogram] at hread
    revert hread
    generalize programOfItems (programItems tokens' s'.nextId).1 = read'
    intro hread
    cases hread with
    | error hfaults =>
      exact ⟨narrow, hgiven.reportAll (map_unlined_ofSyntax (L := wide) h.unlined hfaults), .none⟩
  | ok program =>
    rw [hprogram] at hread
    revert hread
    generalize programOfItems (programItems tokens' s'.nextId).1 = read'
    intro hread
    cases hread with
    | @ok _ program' hwide =>
      -- The references of the program are among those that have been given.
      obtain ⟨-, -, hrange⟩ := @program_good (fun _ => True) _ _ _ (fun _ _ => trivial) hprogram
      have halike : List.Forall₂ (Stmt.Alike narrow) program program' := by
        refine Stmt.Alike.weakenAll (L := wide) id (fun r hr j hj => ?_) hwide
        obtain ⟨hlow, hhigh⟩ := hrange r.id (List.mem_map_of_mem hr)
        obtain ⟨n, -, hn, hj⟩ := Likeness.extend_new hj hlow
        have hbelow : s.nextId + n < (programItems tokens s.nextId).2 := hn ▸ hhigh
        exact .inr ⟨n, hbelow, hn, hj⟩
      have hsurvey := survey_alike halike
      dsimp only
      rw [hpending]
      split
      · exact ⟨narrow, hgiven, .none⟩
      · revert hsurvey
        generalize survey program = found
        generalize survey program' = found'
        intro hsurvey
        cases hsurvey with
        | error hfaults =>
          exact ⟨narrow, hgiven.reportAll (map_unlined_binding (L := narrow) h.unlined hfaults), .none⟩
        | ok hfound => exact ⟨narrow, hgiven.record hfound, .some halike⟩

/-- A program that both have taken comes to its end in both or in neither, and leaves twins. -/
theorem interpret (h : s.Twins L s') {program program' : List Stmt}
    (hprogram : List.Forall₂ (Stmt.Alike L) program program') (fuel : Nat) :
    Option.Rel (fun t t' => ∃ L', Session.Twins L' t t')
        ((s.world.interpret? fuel program).map fun result =>
          concluded s.log s.nextId result.1 result.2)
        ((s'.world.interpret? fuel program').map fun result =>
          concluded s'.log s'.nextId result.1 result.2) ∧
      (View.of (Machine.run fuel (s'.world.program program')).world.sink s'.log false).unlined =
        (View.of (Machine.run fuel (s.world.program program)).world.sink s.log false).unlined := by
  have hrun := Machine.run_alike fuel (h.world.program hprogram)
  have hinterpret := World.interpret?_alike hrun
  have hkept : ∀ {w w' : World} {body : List Stmt} {fault : Option RuntimeFault},
      w.interpret? fuel body = some (fault, w') → w'.distances = w.distances := by
    intro w w' body fault hends
    rw [← (halted_of_interpret? hends).2, Machine.distances_run]
    rfl
  refine ⟨?_, by rw [hrun.world.sink]; exact View.unlined_of h.log _ _⟩
  cases hends : s.world.interpret? fuel program with
  | none =>
    cases hends' : s'.world.interpret? fuel program' with
    | none => exact .none
    | some result' =>
      rw [hends, hends'] at hinterpret
      cases hinterpret
  | some result =>
    cases hends' : s'.world.interpret? fuel program' with
    | none =>
      rw [hends, hends'] at hinterpret
      cases hinterpret
    | some result' =>
      rw [hends, hends'] at hinterpret
      obtain ⟨fault, world⟩ := result
      obtain ⟨fault', world'⟩ := result'
      cases hinterpret with
      | some hresult =>
        obtain ⟨hfault, hworld⟩ := hresult
        refine .some ⟨L, h.unlined, h.below, hworld, ?_, fun target htarget => ?_,
          fun target htarget => ?_⟩
        · change (s'.log.reportAll _).unlined = (s.log.reportAll _).unlined
          rw [Log.unlined_reportAll, Log.unlined_reportAll, h.log, map_unlined_runtime hfault]
        · exact (congrArg (·.get? target) (hkept hends)).trans (h.fresh target htarget)
        · exact (congrArg (·.get? target) (hkept hends')).trans (h.fresh' target htarget)

/-- Twins that run tokens that agree but for lines come to twins. -/
theorem runTokens (h : s.Twins L s') {tokens tokens' : List Token}
    (htokens : tokens'.map Token.unlined = tokens.map Token.unlined) (fuel : Nat) :
    Option.Rel (fun t t' => ∃ L', Session.Twins L' t t') (s.runTokens? fuel tokens)
        (s'.runTokens? fuel tokens') ∧
      (s'.partwayTokens fuel tokens').unlined = (s.partwayTokens fuel tokens).unlined := by
  obtain ⟨L', hloaded, hprogram⟩ := h.loadTokens htokens
  unfold Session.runTokens? Session.partwayTokens
  revert hloaded hprogram
  generalize s.loadTokens tokens = loaded
  generalize s'.loadTokens tokens' = loaded'
  intro hloaded hprogram
  obtain ⟨l, program⟩ := loaded
  obtain ⟨l', program'⟩ := loaded'
  cases hprogram with
  | none => exact ⟨.some ⟨L', hloaded⟩, hloaded.view⟩
  | some hprogram => exact hloaded.interpret hprogram fuel

/-- Twins show the same but for lines, whatever they are asked for. -/
theorem observeTokens (h : s.Twins L s') {requests requests' : List TokenRequest}
    (hrequests : requests'.map TokenRequest.unlined = requests.map TokenRequest.unlined) :
    (s'.observeTokens requests').map View.unlined = (s.observeTokens requests).map View.unlined := by
  induction requests generalizing L s s' requests' with
  | nil =>
    obtain rfl := List.map_eq_nil_iff.mp hrequests
    rfl
  | cons request rest ih =>
    obtain ⟨request', rest', rfl, hfirst, hlater⟩ := List.map_eq_cons_iff.mp hrequests
    cases request with
    | reset =>
      cases request' with
      | reset => exact congrArg₂ List.cons h.reset.view (ih h.reset hlater)
      | run _ _ _ => cases hfirst
      | skip _ => cases hfirst
    | skip count =>
      cases request' with
      | skip count' =>
        have hskipped := h.skip count count'
        exact congrArg₂ List.cons hskipped.view (ih hskipped hlater)
      | run _ _ _ => cases hfirst
      | reset => cases hfirst
    | run fuel faults tokens =>
      cases request' with
      | run fuel' faults' tokens' =>
        obtain ⟨rfl, hfaults, htokens⟩ := TokenRequest.run.inj hfirst
        have hreported : (faults'.map Diagnostic.ofLexical).map Diagnostic.unlined =
            (faults.map Diagnostic.ofLexical).map Diagnostic.unlined := by
          have hcauses := congrArg (List.map Diagnostic.ofLexical) hfaults
          rwa [List.map_map, List.map_map] at hcauses ⊢
        obtain ⟨hruns, hpartway⟩ := (h.reportAll hreported).runTokens htokens fuel'
        rw [Session.observeTokens, Session.observeTokens]
        revert hruns
        generalize Session.runTokens? fuel' (s.reportAll _) tokens = next
        generalize Session.runTokens? fuel' (s'.reportAll _) tokens' = next'
        intro hruns
        cases hruns with
        | none => exact congrArg ([·]) hpartway
        | some ht =>
          obtain ⟨L', ht⟩ := ht
          exact congrArg₂ List.cons ht.view (ih ht hlater)
      | reset => cases hfirst
      | skip _ => cases hfirst

end Session.Twins

/-! ## From the beginning -/

/-- No identities are paired, and tokens are taken for each other when they agree but for their lines. -/
def Likeness.apartFromLines : Likeness where
  token t u := u.unlined = t.unlined
  number _ _ := False
  kind h := (Token.unlined_eq_iff.mp h).1
  lexeme h := (Token.unlined_eq_iff.mp h).2
  unique h := h.elim

/-- Two sessions begin in the same world, with counters that stand anywhere, and are asked for the same
but for the lines of what is read and for how many identities are passed over. Then after each request
they show the same lines of output, the same exit status and, one after the other, diagnostics that are
the same but for their lines; and either both have come to the end of a run or neither has. -/
theorem lines_and_identities_irrelevant (sink : Sink) (clock : Clock)
    {requests requests' : List TokenRequest}
    (h : requests'.map TokenRequest.unlined = requests.map TokenRequest.unlined) (nextId nextId' : Nat) :
    ((Session.mk (.fresh sink clock) .empty nextId').observeTokens requests').map View.unlined =
      ((Session.mk (.fresh sink clock) .empty nextId).observeTokens requests).map View.unlined := by
  have hnone : ∀ target : Reference, (World.fresh sink clock).distances.get? target = none :=
    fun target => Distances.get?_empty target
  have htwins : Session.Twins .apartFromLines ⟨.fresh sink clock, .empty, nextId⟩
      ⟨.fresh sink clock, .empty, nextId'⟩ :=
    ⟨fun _ _ => Iff.rfl, fun _ _ hnever => hnever.elim, .fresh sink clock, rfl,
      fun target _ => hnone target, fun target _ => hnone target⟩
  exact htwins.observeTokens h

/-- A closure over a local variable is kept in a global one, and called in a later run that ends with a
fault; in between identities are passed over in one of the sessions. -/
theorem lines_and_identities_irrelevant_to_closure :
    let name (text : String) (line : Nat) : Token := ⟨.identifier, text, line⟩
    let word (keyword : Keyword) (line : Nat) : Token := ⟨.keyword keyword, "", line⟩
    let sign (symbol : Symbol) (line : Nat) : Token := ⟨.symbol symbol, "", line⟩
    let declaring (line : Nat) : List Token := [word .varWord 1, name "g" 1, sign .semicolon line,
      sign .leftBrace line, word .varWord line, name "a" line, sign .equal 2, word .trueWord 2,
      sign .semicolon 2, word .funWord 3, name "f" line, sign .leftParen 3, sign .rightParen 3,
      sign .leftBrace line, word .returnWord line, name "a" 4, sign .semicolon 4,
      sign .rightBrace line, name "g" line, sign .equal line, name "f" 5, sign .semicolon 5,
      sign .rightBrace 5, .endOn line]
    let calling (line : Nat) : List Token := [word .printWord 1, name "g" line, sign .leftParen line,
      sign .rightParen line, sign .semicolon 2, name "g" line, sign .dot line, name "x" line,
      sign .semicolon line, .endOn 3]
    let requests (line count : Nat) : List TokenRequest :=
      [.run 100 [] (declaring line), .skip count, .run 100 [] (calling line)]
    let w := World.fresh (.ofRoom none) (.standing 0)
    let views (line count nextId : Nat) := (Session.mk w .empty nextId).observeTokens (requests line count)
    (requests 7 20).map TokenRequest.unlined = (requests 1 0).map TokenRequest.unlined ∧
      (views 7 20 50).map View.unlined = (views 1 0 0).map View.unlined ∧
      (views 1 0 0).map View.lines = [[], [], ["true"]] ∧
      (views 1 0 0).map (·.diagnostics.map Diagnostic.line?) = [[], [], [some 1]] ∧
      (views 7 20 50).map (·.diagnostics.map Diagnostic.line?) = [[], [], [some 7]] := by
  intro name word sign declaring calling requests w views
  have hsame : (requests 7 20).map TokenRequest.unlined = (requests 1 0).map TokenRequest.unlined := rfl
  exact ⟨hsame, lines_and_identities_irrelevant _ _ hsame 0 50, by decide +kernel,
    by decide +kernel, by decide +kernel⟩

end LoxLang
