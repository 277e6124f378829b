import LoxLang.Proofs.Scope.Lifetime

/-!
Reading variables. A variable with a distance is found in exactly the scope at that distance, which
was opened by the activation of the innermost block or body around it that declares its name before
it; a variable without one is global. So the distances of a survey never mislead a running program,
however long ago the functions that run were declared (`variable_read`).
-/
namespace LoxLang
set_option autoImplicit false

/-- A scope is the one that the text means at a site. -/
structure Site.MeansScope (h : History) (w : World) (site : Site) (distance : Nat) (id : ScopeId) :
    Prop where
  chain : w.chain[distance]? = some id
  binds : w.store.binds id site.name = true
  /-- It was created by an activation of the innermost layer that declares the name, inside the scopes
  further out. -/
  activation : ∃ layer origin, site.enclosure[distance]? = some layer ∧ site.name ∈ layer.names ∧
    origin.region = layer.region ∧ h.Created origin id (w.chain.drop (distance + 1))
  innermost : ∀ k < distance, ∀ layer, site.enclosure[k]? = some layer → site.name ∉ layer.names
  /-- The layer is that of a block or a body, unless the name is a reserved word. -/
  region : ∀ layer, site.enclosure[distance]? = some layer → site.name ∉ Store.reserved →
    (∃ body, layer.region = .block body) ∨ ∃ declaration, layer.region = .body declaration

/-- On a chain that realizes the enclosure of a site, the scope at the distance is the one meant. -/
theorem Lived.meansScope {admits : Token → Prop} {nextId : Nat} {m : Machine} {h : History}
    (hl : Lived admits nextId m h) {site : Site}
    (hchain : (h.setting admits m.world.store).Realizes site.enclosure m.world.chain)
    (hlegal : site.Legal admits) {distance : Nat}
    (hd : site.enclosure.distance? site.name = some distance) :
    ∃ id, site.MeansScope h m.world distance id := by
  obtain ⟨⟨layer, hlayer, hname⟩, hinner⟩ := Enclosure.distance?_eq_some hd
  obtain ⟨origin, id, hid, hregion, hopened, hbinds, -⟩ := hchain.scope_at hlayer
  refine ⟨id, hid, hbinds _ hname, ⟨layer, origin, hlayer, hname, hregion, hl.created hopened⟩,
    hinner, fun other hother hword => ?_⟩
  obtain rfl : layer = other := Option.some.inj (hlayer.symm.trans hother)
  simp only [Store.reserved, List.mem_cons, List.not_mem_nil, or_false, not_or] at hword
  exact hlegal.proper.region_of_mem (List.mem_of_getElem? hlayer) hname hword.1 hword.2

theorem Site.MeansScope.binderAt? {h : History} {w : World} {site : Site} {distance : Nat}
    {id : ScopeId} (hs : site.MeansScope h w distance id) :
    w.store.binderAt? w.chain distance site.name = some id := by
  unfold Store.binderAt?
  rw [hs.chain]
  dsimp only
  rw [if_pos hs.binds]

/-- Where a variable is read there is exactly one site for it, and the active chain belongs to the
enclosure of that site. With a distance, the scope meant by the text is read, and the read succeeds;
without one no layer declares the name, and only the global scope is asked. -/
theorem variable_read {admits : Token → Prop} {nextId : Nat} {m : Machine} {h : History}
    (hl : Lived admits nextId m h) {target : Reference}
    (hm : m.control = .eval (.variable target)) :
    ∃ site, h.HasSite site ∧ site.reference = target ∧ site.use = .read ∧
      (∀ other, h.HasSite other → other.reference.id = target.id → other = site) ∧
      (h.setting admits m.world.store).Realizes site.enclosure m.world.chain ∧
      (∀ distance, m.world.distances.get? target = some distance →
        (site.initializing = some site.name → 0 < distance) ∧
        ∃ id v, site.MeansScope h m.world distance id ∧
          (m.world.store.scope id).get? site.name = some v ∧
          m.step = ⟨m.world, .value v, m.frames⟩) ∧
      (m.world.distances.get? target = none →
        (∀ layer ∈ site.enclosure, site.name ∉ layer.names) ∧
        m.step = match (m.world.store.scope 0).get? site.name with
          | some v => ⟨m.world, .value v, m.frames⟩
          | none => ⟨m.world, .fault target.name.undefined, m.frames⟩) := by
  obtain ⟨hsound, hnumbers, -⟩ := hl.agrees
  obtain ⟨w, c, frames⟩ := m
  subst hm
  obtain ⟨Γ, p, hknown, hchain, -⟩ := hsound.placed
  have hsite : h.HasSite ⟨target, .read, Γ, p⟩ := hknown.2 _ List.mem_cons_self
  obtain ⟨hlegal, hdistance⟩ := hsound.resolved _ hsite
  have hdistance : w.distances.get? target = Γ.distance? target.name.lexeme := hdistance
  refine ⟨_, hsite, rfl, rfl, fun other hother heq => hnumbers.unique other _ hother hsite heq, hchain,
    fun distance hd => ⟨fun hinit => ?_, ?_⟩, fun hd => ⟨?_, ?_⟩⟩
  · -- At distance zero would be the variable that is being initialized, which is not declared yet.
    obtain ⟨-, layer, outer, heq, hfresh⟩ := hlegal.undeclared _ hinit
    obtain ⟨⟨first, hfirst, hname⟩, -⟩ := Enclosure.distance?_eq_some (hdistance.symm.trans hd)
    refine Nat.pos_of_ne_zero fun hzero => ?_
    subst hzero
    rw [show Γ = layer :: outer from heq] at hfirst
    cases hfirst
    exact hfresh hname
  · obtain ⟨id, hmeans⟩ := hl.meansScope hchain hlegal (hdistance.symm.trans hd)
    obtain ⟨v, hv⟩ := (w.store.binds_iff id _).mp hmeans.binds
    refine ⟨id, v, hmeans, hv, ?_⟩
    have hread : w.read? target = some v :=
      (World.read?_of_distance hd).trans ((Store.lookupAt?_of_getElem? hmeans.chain _).trans hv)
    simp only [Machine.step, Machine.stepEval, Machine.read, hread]
  · exact Enclosure.distance?_eq_none.mp (hdistance.symm.trans hd)
  · have hread : w.read? target = (w.store.scope 0).get? target.name.lexeme := by
      unfold World.read? World.binder?
      rw [show w.distances.get? target = none from hd]
      simp only [Chain.globals, Store.binder?]
      split
      · rfl
      · rename_i hunbound
        simp only [Store.binds, Table.contains, Bool.not_eq_true, Option.isSome_eq_false_iff,
          Option.isNone_iff_eq_none] at hunbound
        exact hunbound.symm
    have hstep : Machine.step ⟨w, .eval (.variable target), frames⟩ =
        match w.read? target with
        | some v => ⟨w, .value v, frames⟩
        | none => ⟨w, .fault target.name.undefined, frames⟩ := rfl
    rw [hread] at hstep
    exact hstep

/-- A function called in the block that declares it reads a variable of that block. -/
theorem variable_read_in_call :
    ∃ nextId m h target, Lived (fun _ => True) nextId m h ∧ m.control = .eval (.variable target) ∧
      m.world.distances.get? target = some 1 ∧ ∃ site id v, h.HasSite site ∧
      site.reference = target ∧ site.MeansScope h m.world 1 id ∧
      m.step = ⟨m.world, .value v, m.frames⟩ := by
  let name (s : String) : Token := ⟨.identifier, s, 1⟩
  let word (k : Keyword) : Token := ⟨.keyword k, "", 1⟩
  let sign (s : Symbol) : Token := ⟨.symbol s, "", 1⟩
  let tokens : List Token := [sign .leftBrace, word .varWord, name "a", sign .semicolon,
    word .funWord, name "f", sign .leftParen, sign .rightParen, sign .leftBrace, name "a",
    sign .semicolon, sign .rightBrace, name "f", sign .leftParen, sign .rightParen,
    sign .semicolon, sign .rightBrace]
  let loaded := (Session.fresh (.ofRoom none) (.standing 0)).loadTokens tokens
  have hrun : (loaded.2.any fun program =>
      let m := (loaded.1.world.program program).run 15
      match m.control with
      | .eval (.variable target) => m.world.distances.get? target == some 1
      | _ => false) = true := by decide +kernel
  obtain ⟨program, hprogram, hreads⟩ := (Option.any_eq_true _ _).mp hrun
  dsimp only at hreads
  split at hreads
  · rename_i target hcontrol
    have hl : Lived (fun _ => True) _ _ _ := Lived.of_load (fun _ _ => trivial)
      (show loaded = (loaded.1, some program) by rw [← hprogram]) 15
    have hdistance := eq_of_beq hreads
    obtain ⟨site, hsite, href, -, -, -, hlocal, -⟩ := variable_read hl hcontrol
    obtain ⟨-, id, v, hmeans, -, hstep⟩ := hlocal 1 hdistance
    exact ⟨_, _, _, target, hl, hcontrol, hdistance, site, id, v, hsite, href, hmeans, hstep⟩
  · cases hreads

end LoxLang
