import LoxLang.Proofs.Scope.Reads

/-!
Assigning to variables. An assignment means the same variable as a read at the same place, and with a
distance it succeeds, unless it stands in the initializer of a local variable of the same name: there
the survey takes the variable that is being initialized, which is not bound yet, and the assignment
faults (`assignment_write`).
-/
namespace LoxLang
set_option autoImplicit false

/-- A reading at the place of a site. -/
def Site.asRead (site : Site) : Site :=
  { site with use := .read }

/-- An assignment in the initializer of the variable to which it assigns. -/
def Site.InOwnInitializer (site : Site) : Prop :=
  site.initializing = some site.name

/-- Outside of its own initializer a variable is at the same distance for an assignment as for a read.
Inside, an assignment is at distance zero, and a read is not. -/
theorem Site.Legal.distance?_write {admits : Token → Prop} {site : Site} (hlegal : site.Legal admits)
    (huse : site.use = .write) :
    (¬ site.InOwnInitializer → site.distance? = site.asRead.distance?) ∧
      (site.InOwnInitializer → site.distance? = some 0 ∧ site.asRead.distance? ≠ some 0) := by
  obtain ⟨reference, use, Γ, p⟩ := site
  subst huse
  refine ⟨fun hother => if_neg hother, fun hown => ⟨if_pos hown, fun hzero => ?_⟩⟩
  obtain ⟨-, layer, outer, hΓ, hfresh⟩ := hlegal.undeclared _ hown
  obtain ⟨⟨first, hfirst, hname⟩, -⟩ := Enclosure.distance?_eq_some hzero
  rw [show Γ = layer :: outer from hΓ] at hfirst
  cases hfirst
  exact hfresh hname

/-- Where a value is assigned there is exactly one site for it, and the active chain belongs to the
enclosure of that site. Outside of its own initializer a variable with a distance is written in the
scope meant by the text, and one without is written in the global scope if it is bound there. Inside,
the assignment always faults. -/
theorem assignment_write {admits : Token → Prop} {nextId : Nat} {m : Machine} {h : History}
    (hl : Lived admits nextId m h) :
    (∀ site, h.HasSite site → site.use = .write →
      (¬ site.InOwnInitializer →
        m.world.distances.get? site.reference = site.asRead.distance?) ∧
      (site.InOwnInitializer → m.world.distances.get? site.reference = some 0 ∧
        site.asRead.distance? ≠ some 0)) ∧
    ∀ target v frames, m.control = .value v → m.frames = .assign target :: frames →
      ∃ site, h.HasSite site ∧ site.reference = target ∧ site.use = .write ∧
        (∀ other, h.HasSite other → other.reference.id = target.id → other = site) ∧
        (h.setting admits m.world.store).Realizes site.enclosure m.world.chain ∧
        (¬ site.InOwnInitializer → ∀ distance, m.world.distances.get? target = some distance →
          ∃ id, site.MeansScope h m.world distance id ∧
            m.step = ⟨m.world.bind id site.name v, .value v, frames⟩) ∧
        (¬ site.InOwnInitializer → m.world.distances.get? target = none →
          (∀ layer ∈ site.enclosure, site.name ∉ layer.names) ∧
          m.step = if m.world.store.binds 0 site.name then
              ⟨m.world.bind 0 site.name v, .value v, frames⟩
            else ⟨m.world, .fault target.name.undefined, frames⟩) ∧
        (site.InOwnInitializer → m.step = ⟨m.world, .fault target.name.undefined, frames⟩) := by
  obtain ⟨hsound, hnumbers, -⟩ := hl.agrees
  refine ⟨fun site hsite huse => ?_, fun target v frames hcontrol hframes => ?_⟩
  · obtain ⟨hlegal, hdistance⟩ := hsound.resolved site hsite
    rw [hdistance]
    exact hlegal.distance?_write huse
  · obtain ⟨w, c, stack⟩ := m
    subst hcontrol hframes
    obtain ⟨-, Γ, p, hchain, stack, hwait, hexact⟩ := hsound.placed
    cases hwait with
    | assign hname hsite hrest =>
      obtain ⟨hlegal, hdistance⟩ := hsound.resolved _ hsite
      obtain ⟨hother, hown⟩ := hlegal.distance?_write rfl
      have hstep : ∀ binder, w.binder? target = binder →
          Machine.step ⟨w, .value v, .assign target :: frames⟩ =
            binder.elim ⟨w, .fault target.name.undefined, frames⟩
              fun id => ⟨w.bind id target.name.lexeme v, .value v, frames⟩ := by
        intro binder hbinder
        simp only [Machine.step, Machine.stepValue, Machine.write, hbinder]
        cases binder <;> rfl
      refine ⟨_, hsite, rfl, rfl, fun other ho heq => hnumbers.unique other _ ho hsite heq, hchain,
        fun hout distance hd => ?_, fun hout hd => ⟨?_, ?_⟩, fun hin => ?_⟩
      · have hmeant := (hdistance.trans (hother hout)).symm.trans hd
        obtain ⟨id, hmeans⟩ := hl.meansScope hchain hlegal hmeant
        refine ⟨id, hmeans, hstep (some id) ?_⟩
        unfold World.binder?
        rw [show w.distances.get? target = some distance from hd]
        exact hmeans.binderAt?
      · exact Enclosure.distance?_eq_none.mp ((hdistance.trans (hother hout)).symm.trans hd)
      · have hbinder : w.binder? target =
            if w.store.binds 0 target.name.lexeme = true then some 0 else none := by
          unfold World.binder?
          rw [show w.distances.get? target = none from hd]
          rfl
        rw [hstep _ hbinder]
        by_cases hbound : w.store.binds 0 target.name.lexeme = true
        · rw [if_pos hbound]
          exact (if_pos hbound).symm
        · rw [if_neg hbound]
          exact (if_neg hbound).symm
      · obtain ⟨-, layer, outer, hΓ, hfresh⟩ := hlegal.undeclared _ hin
        obtain rfl : Γ = layer :: outer := hΓ
        obtain ⟨_, id, hid, -⟩ := hchain.scope_at (k := 0) rfl
        refine hstep none ?_
        unfold World.binder?
        rw [show w.distances.get? target = some 0 from hdistance.trans (hown hin).1]
        dsimp only [Store.binderAt?] at hid ⊢
        rw [hid]
        -- The scope binds no more than the names declared so far, and this one is not among them.
        refine if_neg fun hbound => hfresh ?_
        exact hexact.innermost hid hbound

/-- Whether a machine is about to assign to a variable at some distance. -/
def Machine.assigns (distance : Nat) (m : Machine) : Bool :=
  match m.control, m.frames with
  | .value _, .assign target :: _ => m.world.distances.get? target == some distance
  | _, _ => false

/-- In the initializer of another variable an assignment is written in the scope meant. In its own
initializer it faults, although a read there would be of the outer variable. -/
theorem assignment_write_in_initializers :
    ∃ nextId, (∃ m h target v frames, Lived (fun _ => True) nextId m h ∧ m.control = .value v ∧
      m.frames = .assign target :: frames ∧ m.world.distances.get? target = some 1 ∧
      ∃ (site : Site) (id : ScopeId), site.reference = target ∧ site.MeansScope h m.world 1 id ∧
        m.step = ⟨m.world.bind id site.name v, .value v, frames⟩) ∧
    ∃ m h target v frames, Lived (fun _ => True) nextId m h ∧ m.control = .value v ∧
      m.frames = .assign target :: frames ∧ m.world.distances.get? target = some 0 ∧
      ∃ site, h.HasSite site ∧ site.reference = target ∧ site.InOwnInitializer ∧
        site.asRead.distance? = some 1 ∧ m.step = ⟨m.world, .fault target.name.undefined, frames⟩ := by
  let name (s : String) : Token := ⟨.identifier, s, 1⟩
  let varWord : Token := ⟨.keyword .varWord, "", 1⟩
  let sign (s : Symbol) : Token := ⟨.symbol s, "", 1⟩
  let declared (x : String) : List Token := [varWord, name x, sign .equal, name "a", sign .equal,
    name "a", sign .semicolon]
  let tokens : List Token := [sign .leftBrace, varWord, name "a", sign .semicolon,
    sign .leftBrace] ++ declared "b" ++ declared "a" ++ [sign .rightBrace, sign .rightBrace]
  let loaded := (Session.fresh (.ofRoom none) (.standing 0)).loadTokens tokens
  have hassigns : ∀ distance m, Machine.assigns distance m = true → ∃ target v frames,
      m.control = .value v ∧ m.frames = .assign target :: frames ∧
      m.world.distances.get? target = some distance := by
    intro distance m hm
    unfold Machine.assigns at hm
    split at hm
    · rename_i v target frames hcontrol hframes
      exact ⟨target, v, frames, hcontrol, hframes, eq_of_beq hm⟩
    · cases hm
  have hrun : (loaded.2.any fun program =>
      Machine.assigns 1 ((loaded.1.world.program program).run 11) &&
      Machine.assigns 0 ((loaded.1.world.program program).run 18) &&
      (Stmt.sitesAll [] program).all fun site =>
        site.use != .write || site.asRead.distance? == some 1) = true := by decide +kernel
  obtain ⟨program, hprogram, hruns⟩ := (Option.any_eq_true _ _).mp hrun
  simp only [Bool.and_eq_true, List.all_eq_true, Bool.or_eq_true, bne_iff_ne, beq_iff_eq] at hruns
  obtain ⟨⟨hother, hown⟩, houter⟩ := hruns
  have hl (n : Nat) : Lived (fun _ => True) _ _ _ := Lived.of_load (fun _ _ => trivial)
    (show loaded = (loaded.1, some program) by rw [← hprogram]) n
  refine ⟨loaded.1.nextId, ?_, ?_⟩
  · obtain ⟨target, v, frames, hcontrol, hframes, hdistance⟩ := hassigns _ _ hother
    obtain ⟨hsites, hassign⟩ := assignment_write (hl 11)
    obtain ⟨site, hsite, rfl, huse, -, -, hwrite, -⟩ := hassign target v frames hcontrol hframes
    have hout : ¬ site.InOwnInitializer := by
      intro hin
      cases hdistance.symm.trans ((hsites site hsite huse).2 hin).1
    obtain ⟨id, hmeans, hstep⟩ := hwrite hout 1 hdistance
    exact ⟨_, _, _, v, frames, hl 11, hcontrol, hframes, hdistance, site, id, rfl, hmeans, hstep⟩
  · obtain ⟨target, v, frames, hcontrol, hframes, hdistance⟩ := hassigns _ _ hown
    obtain ⟨hsites, hassign⟩ := assignment_write (hl 18)
    obtain ⟨site, hsite, rfl, huse, -, -, -, -, hfault⟩ := hassign target v frames hcontrol hframes
    obtain ⟨_, hmem, hprog⟩ := id hsite
    obtain rfl := List.mem_singleton.mp hmem
    have hread := (houter site hprog).resolve_left fun hne => hne huse
    have hin : site.InOwnInitializer := by
      refine Classical.byContradiction fun hout => ?_
      cases hread.symm.trans (((hsites site hsite huse).1 hout).symm.trans hdistance)
    exact ⟨_, _, _, v, frames, hl 18, hcontrol, hframes, hdistance, site, hsite, rfl, hin, hread,
      hfault hin⟩

end LoxLang
