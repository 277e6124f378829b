import LoxLang.Proofs.Scope.Preservation
import LoxLang.Proofs.Syntax.Program

/-!
Sessions agree with the texts of their programs. `Lived.sound` says that every state that a session
can come to agrees with its history: the sites of all programs taken so far have identities of their
own and the distances of the text, and the machine stands where the text has it.
-/
namespace LoxLang
set_option autoImplicit false

/-! ## Sites of a program -/

/-- The sites of a program that was read and surveyed are legal, they have identities of their own, and
the survey gives them the distances of the text. -/
theorem program_sites {admits : Token → Prop} {tokens : List Token} {nextId : Nat}
    {program : List Stmt} {entries : List DistanceEntry} (hadmits : ∀ t ∈ tokens, admits t)
    (hprogram : programOfItems (programItems tokens nextId).1 = .ok program)
    (hentries : survey program = .ok entries) :
    entries = (Stmt.sitesAll [] program).filterMap Site.toEntry ∧
      Fresh nextId (programItems tokens nextId).2 (siteIds (Stmt.sitesAll [] program)) ∧
      ∀ site ∈ Stmt.sitesAll [] program, site.Legal admits := by
  obtain ⟨hwell, hfresh⟩ := program_good hadmits hprogram
  obtain ⟨hfound, hlegal⟩ := survey_sites hwell hentries
  exact ⟨hfound, hfresh.perm ((Stmt.sitesAll_perm [] program).map _).symm, hlegal⟩

/-! ## The setting of a history -/

namespace History

/-- A site of one of the programs taken. -/
def HasSite (h : History) (site : Site) : Prop :=
  ∃ program ∈ h.programs, site ∈ Stmt.sitesAll [] program

/-- A scope was opened in one of the states left. -/
def HasOpened (h : History) (origin : Origin) (id : ScopeId) (outer : Chain) : Prop :=
  ∃ m ∈ h.left, m.Opens origin id outer

/-- What has come about in a history. -/
def setting (h : History) (admits : Token → Prop) (s : Store) : Setting :=
  ⟨admits, h.HasSite, h.HasOpened, s⟩

/-- The identities of sites: no two sites share one, all are below the next one, and nothing is
recorded for those to come. -/
structure Numbers (h : History) (nextId : Nat) (d : Distances) : Prop where
  below : ∀ site, h.HasSite site → site.reference.id < nextId
  unique : ∀ site other, h.HasSite site → h.HasSite other →
    site.reference.id = other.reference.id → site = other
  fresh : ∀ target : Reference, nextId ≤ target.id → d.get? target = none

end History

theorem eq_of_siteIds {sites : List Site} (hnodup : (siteIds sites).Nodup) {site other : Site}
    (hsite : site ∈ sites) (hother : other ∈ sites)
    (heq : site.reference.id = other.reference.id) : site = other := by
  induction sites with
  | nil => cases hsite
  | cons first rest ih =>
    obtain ⟨hfirst, hrest⟩ := List.nodup_cons.mp hnodup
    rcases List.mem_cons.mp hsite with rfl | hs <;> rcases List.mem_cons.mp hother with rfl | ho
    · rfl
    · exact absurd (heq ▸ mem_siteIds ho) hfirst
    · exact absurd (heq ▸ mem_siteIds hs) hfirst
    · exact ih hrest hs ho

/-! ## Agreement in larger settings -/

namespace Setting
variable {S S' : Setting}

theorem Places.mono (hle : S.Le S') (hstore : S'.store = S.store) {chain : Chain}
    {frames : List Frame} {c : Control} (h : S.Places chain frames c) :
    S'.Places chain frames c := by
  have hstands : ∀ {Γ : Enclosure} {awaited : Awaited}, S.Stands Γ awaited chain frames →
      S'.Stands Γ awaited chain frames :=
    fun hs => hs.mono hle fun _ hstack => by rw [hstore]; exact hstack
  cases c with
  | eval e =>
    obtain ⟨Γ, p, he, hs⟩ := h
    exact ⟨Γ, p, he.mono hle, hstands hs⟩
  | exec s =>
    obtain ⟨Γ, hknown, hs⟩ := h
    exact ⟨Γ, hknown.mono hle, hstands hs⟩
  | execAll body =>
    obtain ⟨Γ, hbody, hs⟩ := h
    exact ⟨Γ, hbody.mono hle, hstands hs⟩
  | value v =>
    obtain ⟨hv, Γ, p, hs⟩ := h
    exact ⟨hv.mono hle, Γ, p, hstands hs⟩
  | done completion =>
    cases completion with
    | normal =>
      obtain ⟨Γ, hs⟩ := h
      exact ⟨Γ, hstands hs⟩
    | returned v =>
      obtain ⟨hv, Γ, stack, hframes, hexact⟩ := h
      exact ⟨hv.mono hle, Γ, stack, hframes.mono hle, by rw [hstore]; exact hexact⟩
  | fault f => trivial

theorem Holds.mono (hle : S.Le S') (hstore : S'.store = S.store) (h : S.Holds) : S'.Holds :=
  h.change hle (fun _ _ _ hv => .inl (hstore ▸ hv)) (fun _ _ _ hv => .inl (hstore ▸ hv))

theorem le_of_store (hadmits : S'.admits = S.admits) (hstore : S'.store = S.store)
    (hknown : ∀ site, S.known site → S'.known site)
    (hopened : ∀ origin id outer, S.opened origin id outer → S'.opened origin id outer) :
    S.Le S' :=
  ⟨hadmits, hknown, hopened, .of_scopes (by rw [hstore])⟩

end Setting

/-! ## States of a session -/

/-- A machine agrees with its history, and is on its way back to the global scope. -/
structure Lived.Agrees (admits : Token → Prop) (nextId : Nat) (m : Machine) (h : History) : Prop where
  sound : m.Sound (h.setting admits m.world.store)
  numbers : h.Numbers nextId m.world.distances
  unwound : m.unwound = (.globals, 0)

namespace Lived.Agrees
variable {admits : Token → Prop} {nextId : Nat} {m : Machine} {h : History}

theorem fresh (sink : Sink) (clock : Clock) :
    Agrees admits 0 ⟨.fresh sink clock, .done .normal, []⟩ ⟨[], []⟩ := by
  have hnone : ∀ site, ¬ History.HasSite ⟨[], []⟩ site := by
    rintro site ⟨program, hprogram, -⟩
    cases hprogram
  refine ⟨⟨rfl, fun site hsite => absurd hsite (hnone site), ⟨Nat.one_pos, ?_, ?_⟩, ?_⟩,
    ⟨fun site hsite => absurd hsite (hnone site), fun site _ hsite => absurd hsite (hnone site),
      fun target _ => Distances.get?_empty target⟩, rfl⟩
  · intro id x v hv
    cases id with
    | zero =>
      obtain ⟨-, rfl⟩ : x = "clock" ∧ v = .callable .clock := by
        simp only [World.fresh, History.setting, Store.scope, Store.ofGlobals] at hv
        change ((Table.empty : Table Value).insert "clock" (.callable .clock)).get? x = some v at hv
        rw [Table.get?_insert] at hv
        split at hv
        · rename_i hx
          cases hv
          exact ⟨hx.symm, rfl⟩
        · cases hv
      trivial
    | succ id => cases hv
  · intro object x v hv
    cases hv
  · exact ⟨[], .globals, [], .program, trivial⟩

theorem step (ha : Agrees admits nextId m h) :
    Agrees admits nextId m.step ⟨h.programs, m :: h.left⟩ := by
  obtain ⟨S', hs⟩ := Setting.step_leads ha.sound
  -- What the step opens counts as opened once the state before it is among those left.
  have hle : S'.Le (History.setting ⟨h.programs, m :: h.left⟩ admits m.step.world.store) := by
    refine Setting.le_of_store hs.le.admits.symm hs.store (fun site hsite => ?_)
      fun origin id outer hopened => ?_
    · rw [hs.known] at hsite
      exact hsite
    · rcases hs.opened origin id outer hopened with ⟨left, hleft, hold⟩ | hnew
      · exact ⟨left, List.mem_cons_of_mem m hleft, hold⟩
      · exact ⟨m, List.mem_cons_self, hnew⟩
  refine ⟨⟨rfl, fun site hsite => ?_, hs.holds.mono hle hs.store, hs.placed.mono hle hs.store⟩,
    ⟨ha.numbers.below, ha.numbers.unique, ?_⟩, (Machine.unwound_step m).trans ha.unwound⟩
  · rw [hs.distances]
    exact ha.sound.resolved site hsite
  · rw [hs.distances]
    exact ha.numbers.fresh

/-- A machine that has come to its end is back in the global scope. -/
theorem chain_of_halted (ha : Agrees admits nextId m h) (hhalted : m.halted = true) :
    m.world.context = (.globals, 0) := by
  have hframes := ((Machine.halted_iff m).mp hhalted).1
  have hunwound := ha.unwound
  rw [Machine.unwound, hframes] at hunwound
  exact hunwound

theorem refuse (ha : Agrees admits nextId m h) (hhalted : m.halted = true) {nextId' : Nat}
    (hle : nextId ≤ nextId') : Agrees admits nextId' ⟨m.world, .done .normal, []⟩ h := by
  have hcontext := ha.chain_of_halted hhalted
  have hchain : m.world.chain = .globals := congrArg Prod.fst hcontext
  refine ⟨⟨rfl, ha.sound.resolved, ha.sound.holds, [], ?_, [], .program, trivial⟩,
    ⟨fun site hsite => Nat.lt_of_lt_of_le (ha.numbers.below site hsite) hle, ha.numbers.unique,
      fun target ht => ha.numbers.fresh target (Nat.le_trans hle ht)⟩, hcontext⟩
  rw [hchain]
  exact .globals

theorem load (ha : Agrees admits nextId m h) (hhalted : m.halted = true) {tokens : List Token}
    (hadmits : ∀ t ∈ tokens, admits t) {program : List Stmt} {entries : List DistanceEntry}
    (hprogram : programOfItems (programItems tokens nextId).1 = .ok program)
    (hentries : survey program = .ok entries) :
    Agrees admits (programItems tokens nextId).2 ((m.world.record entries).program program)
      ⟨program :: h.programs, h.left⟩ := by
  have hwell := (program_good hadmits hprogram).1
  obtain ⟨rfl, ⟨hnodup, hrange⟩, hlegal⟩ := program_sites hadmits hprogram hentries
  have hnew : ∀ site ∈ Stmt.sitesAll [] program,
      nextId ≤ site.reference.id ∧ site.reference.id < (programItems tokens nextId).2 :=
    fun site hsite => hrange _ (mem_siteIds hsite)
  have hcases : ∀ site, History.HasSite ⟨program :: h.programs, h.left⟩ site →
      site ∈ Stmt.sitesAll [] program ∨ h.HasSite site := by
    rintro site ⟨other, hother, hsite⟩
    rcases List.mem_cons.mp hother with rfl | hold
    · exact .inl hsite
    · exact .inr ⟨other, hold, hsite⟩
  have hnext := nextId_le_programItems tokens nextId
  have hcontext := ha.chain_of_halted hhalted
  have hchain : m.world.chain = .globals := congrArg Prod.fst hcontext
  have hle : (h.setting admits m.world.store).Le
      (History.setting ⟨program :: h.programs, h.left⟩ admits m.world.store) :=
    Setting.le_of_store rfl rfl
      (fun site ⟨other, hother, hsite⟩ => ⟨other, List.mem_cons_of_mem _ hother, hsite⟩)
      fun _ _ _ hopened => hopened
  refine ⟨⟨rfl, fun site hsite => ?_, ha.sound.holds.mono hle rfl, [], ?_, ?_, [], ?_, trivial⟩,
    ⟨fun site hsite => ?_, fun site other hsite hother heq => ?_, fun target ht => ?_⟩, hcontext⟩
  · rcases hcases site hsite with hmem | hold
    · refine ⟨hlegal site hmem, Distances.get?_record_sites hnodup hmem ?_⟩
      exact ha.numbers.fresh site.reference (hnew site hmem).1
    · obtain ⟨hsitelegal, hdistance⟩ := ha.sound.resolved site hold
      refine ⟨hsitelegal, (Distances.get?_record_other fun other hother heq => ?_).trans hdistance⟩
      have hlow := ha.numbers.below site hold
      have hhigh := (hnew other hother).1
      omega
  · exact ⟨hwell, fun site hsite => ⟨program, List.mem_cons_self, hsite⟩⟩
  · change Setting.Realizes _ [] m.world.chain
    rw [hchain]
    exact .globals
  · rw [Stmt.afterAll_globals]
    exact .program
  · rcases hcases site hsite with hmem | hold
    · exact (hnew site hmem).2
    · exact Nat.lt_of_lt_of_le (ha.numbers.below site hold) hnext
  · rcases hcases site hsite with hs | hs <;> rcases hcases other hother with ho | ho
    · exact eq_of_siteIds hnodup hs ho heq
    · have hlow := ha.numbers.below other ho
      have hhigh := (hnew site hs).1
      omega
    · have hlow := ha.numbers.below site hs
      have hhigh := (hnew other ho).1
      omega
    · exact ha.numbers.unique site other hs ho heq
  · refine (Distances.get?_record_other fun site hsite heq => ?_).trans
      (ha.numbers.fresh target (Nat.le_trans hnext ht))
    have hlow := (hnew site hsite).2
    omega

end Lived.Agrees

/-- Every state that a session can come to agrees with its history. -/
theorem Lived.agrees {admits : Token → Prop} {nextId : Nat} {m : Machine} {h : History}
    (hl : Lived admits nextId m h) : Agrees admits nextId m h := by
  induction hl with
  | fresh sink clock => exact .fresh sink clock
  | step _ ih => exact ih.step
  | load _ hhalted hadmits hload ih =>
    obtain ⟨hprogram, hnext, entries, hentries, hworld⟩ := Session.loadTokens_some hload
    rw [hnext, hworld]
    exact ih.load hhalted hadmits hprogram hentries
  | refuse _ hhalted _ hload ih =>
    obtain ⟨hnext, hworld⟩ := Session.loadTokens_none hload
    rw [hnext, hworld]
    exact ih.refuse hhalted (nextId_le_programItems _ _)

/-! ## Scopes are opened once -/

namespace History

/-- In the order of a history the scopes become no fewer. -/
structure Ordered (h : History) (s : Store) : Prop where
  before : ∀ m ∈ h.left, m.step.world.store.scopes.size ≤ s.scopes.size
  between : ∀ m ∈ h.left, ∀ other ∈ h.left, m = other ∨
    m.step.world.store.scopes.size ≤ other.world.store.scopes.size ∨
    other.step.world.store.scopes.size ≤ m.world.store.scopes.size

/-- A scope was opened for some reason inside a chain, and for no other reason. -/
structure Created (h : History) (origin : Origin) (id : ScopeId) (outer : Chain) : Prop where
  opened : h.HasOpened origin id outer
  once : ∀ other chain, h.HasOpened other id chain → other = origin ∧ chain = outer

end History

theorem Lived.ordered {admits : Token → Prop} {nextId : Nat} {m : Machine} {h : History}
    (hl : Lived admits nextId m h) : h.Ordered m.world.store := by
  induction hl with
  | fresh sink clock => exact ⟨nofun, nofun⟩
  | @step nextId m h hl ih =>
    obtain ⟨S', hs⟩ := Setting.step_leads hl.agrees.sound
    have hgrows : m.world.store.scopes.size ≤ m.step.world.store.scopes.size :=
      Nat.le_trans hs.le.grows.size (Nat.le_of_eq (congrArg (·.scopes.size) hs.store.symm))
    refine ⟨List.forall_mem_cons.mpr ⟨Nat.le_refl _, fun left hleft =>
      Nat.le_trans (ih.before left hleft) hgrows⟩, fun first hfirst other hother => ?_⟩
    rcases List.mem_cons.mp hfirst with rfl | hold
    · rcases List.mem_cons.mp hother with rfl | hother
      · exact .inl rfl
      · exact .inr (.inr (ih.before other hother))
    · rcases List.mem_cons.mp hother with rfl | hother
      · exact .inr (.inl (ih.before first hold))
      · exact ih.between first hold other hother
  | load _ _ _ hload ih =>
    obtain ⟨-, -, entries, -, hworld⟩ := Session.loadTokens_some hload
    rw [hworld]
    exact ⟨ih.before, ih.between⟩
  | refuse _ _ _ hload ih =>
    obtain ⟨-, hworld⟩ := Session.loadTokens_none hload
    rw [hworld]
    exact ih

/-- No scope is opened twice. -/
theorem Lived.created {admits : Token → Prop} {nextId : Nat} {m : Machine} {h : History}
    (hl : Lived admits nextId m h) {origin : Origin} {id : ScopeId} {outer : Chain}
    (hopened : h.HasOpened origin id outer) : h.Created origin id outer := by
  refine ⟨hopened, fun other chain hagain => ?_⟩
  obtain ⟨first, hfirst, hopens⟩ := hopened
  obtain ⟨second, hsecond, hopens'⟩ := hagain
  obtain ⟨hlow, hhigh⟩ := hopens.creates
  obtain ⟨hlow', hhigh'⟩ := hopens'.creates
  rcases hl.ordered.between first hfirst second hsecond with rfl | hle | hle
  · obtain ⟨rfl, rfl⟩ := hopens.unique hopens'
    exact ⟨rfl, rfl⟩
  · exact absurd (Nat.lt_of_lt_of_le hhigh (Nat.le_trans hle hlow')) (Nat.lt_irrefl id)
  · exact absurd (Nat.lt_of_lt_of_le hhigh' (Nat.le_trans hle hlow)) (Nat.lt_irrefl id)

end LoxLang
