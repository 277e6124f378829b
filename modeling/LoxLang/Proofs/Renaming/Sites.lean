import LoxLang.Proofs.Binding.Misuses
import LoxLang.Proofs.Renaming.Trees

/-!
A renaming that captures nothing leaves every reference at its distance. Around each point the enclosures
before and after have the same layers, with the names that the marks give them (`Enclosure.Renamed`), and a
name that is found at some distance is found there after it has got the name of that layer
(`Enclosure.Renamed.distance?`). So no site changes its distance, nothing becomes a misuse, and the survey
takes the renamed program with the same distances (`survey_renamed`).
-/
namespace LoxLang
set_option autoImplicit false

/-! ## Names of different scopes -/

namespace Renaming
variable (ρ : Renaming) {x y : String}

/-- The new name does not stand in the program before the renaming. -/
def Admits (t : Token) : Prop :=
  t.lexeme ≠ ρ.new

/-- Different names stay different, whatever scopes they are names of. -/
theorem eq_of_name_eq (hx : x ≠ ρ.new) (hy : y ≠ ρ.new) {marked marked' : Bool}
    (h : ρ.name marked x = ρ.name marked' y) : x = y := by
  rcases ρ.name_cases marked x with hkept | ⟨hold, hnew⟩ <;>
    rcases ρ.name_cases marked' y with hkept' | ⟨hold', hnew'⟩
  · rwa [hkept, hkept'] at h
  · exact absurd (hkept.symm.trans (h.trans hnew')) hx
  · exact absurd (hkept'.symm.trans (h.symm.trans hnew)) hy
  · exact hold.trans hold'.symm

theorem map_name_mem_iff {names : List String} (hnames : ρ.new ∉ names) (hx : x ≠ ρ.new)
    (marked marked' : Bool) (h : ρ.name marked' x ∈ names.map (ρ.name marked)) : x ∈ names := by
  obtain ⟨y, hy, hname⟩ := List.mem_map.mp h
  have hne : y ≠ ρ.new := fun heq => hnames (heq ▸ hy)
  exact ρ.eq_of_name_eq hne hx hname ▸ hy

end Renaming

namespace Marks

theorem at?_zero (marks : Marks) : marks.at? (some 0) = marks.here := by
  cases marks <;> rfl

theorem at?_cons_succ (marked : Bool) (marks : Marks) (distance : Option Nat) :
    Marks.at? (marked :: marks) (distance.map (· + 1)) = marks.at? distance := by
  cases distance <;> rfl

end Marks

/-! ## Enclosures -/

/-- Regions of one kind. -/
inductive Region.Like : Region → Region → Prop
  | block (body body' : List Stmt) : Like (.block body) (.block body')
  | body (d d' : FunctionDeclaration) : Like (.body d) (.body d')
  | receiver (d d' : FunctionDeclaration) : Like (.receiver d) (.receiver d')
  | ancestry (name name' : Token) (methods methods' : List FunctionDeclaration) :
    Like (.ancestry name methods) (.ancestry name' methods')

/-- An enclosure before and after; the new name is declared nowhere in it before. -/
inductive Enclosure.Renamed (ρ : Renaming) : Marks → Enclosure → Enclosure → Prop
  | globals : Renamed ρ [false] [] []
  | layer {marks : Marks} (marked : Bool) {region region' : Region} {names : List String}
    {Γ Γ' : Enclosure} : region.Like region' → ρ.new ∉ names → Renamed ρ marks Γ Γ' →
    Renamed ρ (marked :: marks) (⟨region, names⟩ :: Γ) (⟨region', names.map (ρ.name marked)⟩ :: Γ')

theorem Enclosure.distance?_cons (x : String) (layer : Layer) (Γ : Enclosure) :
    Enclosure.distance? x (layer :: Γ) =
      if x ∈ layer.names then some 0 else (Enclosure.distance? x Γ).map (· + 1) := by
  simp [Enclosure.distance?, List.findIdx?_cons]

namespace Enclosure.Renamed
variable {ρ : Renaming} {marks : Marks} {Γ Γ' : Enclosure}

theorem inFunction (h : Γ.Renamed ρ marks Γ') : Γ'.inFunction = Γ.inFunction := by
  induction h with
  | globals => rfl
  | layer marked hregion hnew _ ih =>
    cases hregion with
    | body => rfl
    | _ => exact ih

theorem classContext (h : Γ.Renamed ρ marks Γ') : Γ'.classContext = Γ.classContext := by
  induction h with
  | globals => rfl
  | layer marked hregion hnew hrest ih =>
    cases hregion with
    | receiver d d' =>
      cases hrest with
      | globals => rfl
      | layer marked' hregion' hnew' hrest' => cases hregion' <;> rfl
    | _ => exact ih

theorem declare (h : Γ.Renamed ρ marks Γ') {name name' : Token}
    (hname : name.Renamed ρ marks.here name') (hfresh : name.lexeme ≠ ρ.new) :
    (Γ.declare name.lexeme).Renamed ρ marks (Γ'.declare name'.lexeme) := by
  cases h with
  | globals => exact .globals
  | layer marked hregion hnew hrest =>
    rw [hname.lexeme]
    exact .layer marked hregion (List.not_mem_cons_of_ne_of_not_mem hfresh.symm hnew) hrest

/-- What has a distance before has it after, under the name that it gets there. -/
theorem distance? (h : Γ.Renamed ρ marks Γ') {x : String} (hx : x ≠ ρ.new) :
    Γ'.distance? (ρ.name (marks.at? (Γ.distance? x)) x) = Γ.distance? x := by
  induction h with
  | globals => rfl
  | @layer marks marked region region' names Γ Γ' hregion hnew hrest ih =>
    rw [Enclosure.distance?_cons, Enclosure.distance?_cons]
    by_cases hmem : x ∈ names
    · rw [if_pos hmem]
      exact if_pos (List.mem_map_of_mem hmem)
    · rw [if_neg hmem, Marks.at?_cons_succ, ih]
      exact if_neg fun hmem' => hmem (ρ.map_name_mem_iff hnew hx marked _ hmem')

theorem innermost (h : Γ.Renamed ρ marks Γ') :
    ρ.new ∉ Γ.innermost ∧ Γ'.innermost = Γ.innermost.map (ρ.name marks.here) := by
  cases h with
  | globals => exact ⟨List.not_mem_nil, rfl⟩
  | layer marked hregion hnew hrest => exact ⟨hnew, rfl⟩

end Enclosure.Renamed

/-! ## Sites -/

/-- The surroundings of a site before and after: its enclosure and the variable that is being
initialized. -/
structure Renaming.Around (ρ : Renaming) (marks : Marks) (Γ Γ' : Enclosure) (p p' : Option String) :
    Prop where
  enclosure : Γ.Renamed ρ marks Γ'
  initializing : p' = p.map (ρ.name marks.here)
  fresh : ∀ x ∈ p, x ≠ ρ.new

namespace Renaming.Around
variable {ρ : Renaming} {marks : Marks} {Γ Γ' : Enclosure} {p p' : Option String}

theorem elsewhere (h : Γ.Renamed ρ marks Γ') : ρ.Around marks Γ Γ' none none :=
  ⟨h, rfl, fun x hx => absurd hx (Option.not_mem_none x)⟩

theorem pending (h : Γ.Renamed ρ marks Γ') {name name' : Token}
    (hname : name.Renamed ρ marks.here name') (hfresh : name.lexeme ≠ ρ.new) :
    ρ.Around marks Γ Γ' (Γ.pending name.lexeme) (Γ'.pending name'.lexeme) := by
  cases h with
  | globals => exact elsewhere .globals
  | layer marked hregion hnew hrest =>
    refine ⟨.layer marked hregion hnew hrest, congrArg some hname.lexeme, fun x hx => ?_⟩
    obtain rfl : name.lexeme = x := Option.some.inj hx
    exact hfresh

theorem initializing_of (h : ρ.Around marks Γ Γ' p p') {x : String} (hx : x ≠ ρ.new) {marked : Bool}
    (hp : p' = some (ρ.name marked x)) : p = some x := by
  rw [h.initializing] at hp
  obtain ⟨y, rfl, hname⟩ := Option.map_eq_some_iff.mp hp
  rw [ρ.eq_of_name_eq (h.fresh y rfl) hx hname]

/-- A site keeps its distance when it gets the name that its binding has. -/
theorem distance? (h : ρ.Around marks Γ Γ' p p') {r r' : Reference} (use : Use)
    (hfresh : r.name.lexeme ≠ ρ.new)
    (hname : r'.name.lexeme =
      ρ.name (marks.at? (⟨r, use, Γ, p⟩ : Site).distance?) r.name.lexeme) :
    (⟨r', use, Γ', p'⟩ : Site).distance? = (⟨r, use, Γ, p⟩ : Site).distance? := by
  have hread : r'.name.lexeme = ρ.name (marks.at? (Γ.distance? r.name.lexeme)) r.name.lexeme →
      Γ'.distance? r'.name.lexeme = Γ.distance? r.name.lexeme := fun heq => by
    rw [heq]
    exact h.enclosure.distance? hfresh
  unfold Site.distance? Site.name at hname ⊢
  cases use with
  | read => exact hread hname
  | _ =>
    dsimp only at hname ⊢
    by_cases hown : p = some r.name.lexeme
    · rw [if_pos hown, Marks.at?_zero] at hname
      rw [if_pos hown, hname, h.initializing, hown, Option.map_some, if_pos rfl]
    · rw [if_neg hown] at hname
      rw [if_neg hown, if_neg]
      · exact hread hname
      · rw [hname]
        exact fun hp => hown (h.initializing_of hfresh hp)

/-- A reading in an initializer finds a name farther out after, if it did before. -/
theorem misuse?_read (h : ρ.Around marks Γ Γ' p p') {r r' : Reference} {admits : Token → Prop}
    (hundeclared : Γ.Undeclared admits p) (hfresh : r.name.lexeme ≠ ρ.new)
    (hname : r'.name.lexeme = ρ.name (marks.at? (Γ.distance? r.name.lexeme)) r.name.lexeme)
    (hmisuse : (⟨r, .read, Γ, p⟩ : Site).misuse? = none) :
    (⟨r', .read, Γ', p'⟩ : Site).misuse? = none := by
  by_cases hown : p' = some r'.name.lexeme
  · obtain rfl : p = some r.name.lexeme := h.initializing_of hfresh (hown.trans (congrArg some hname))
    subst hown
    obtain ⟨-, layer, outer, rfl, hlayer⟩ := hundeclared _ rfl
    have hfound : Enclosure.distance? r.name.lexeme outer ≠ none := fun hnone => by
      have hself := Spot.misuse?_read_own r (layer :: outer)
      rw [List.tail_cons, if_pos hnone] at hself
      exact absurd (hself.symm.trans hmisuse) (Option.some_ne_none _)
    have henclosure := h.enclosure
    rw [Enclosure.distance?_cons, if_neg hlayer] at hname
    change Spot.misuse? (.use ⟨r', .read, Γ', some r'.name.lexeme⟩) = none
    rw [Spot.misuse?_read_own]
    cases henclosure with
    | layer marked hregion hnew hrest =>
      rw [Marks.at?_cons_succ] at hname
      rw [List.tail_cons, hname, hrest.distance? hfresh]
      exact if_neg hfound
  · exact if_neg fun hreads => hown hreads.1

end Renaming.Around

/-! ## What the survey sees -/

/-- Some sites have the distances that are recorded for them, and nothing is wrong at some spots. -/
structure Renaming.Knows (ρ : Renaming) (sites : List Site) (spots : List Spot) : Prop where
  sites : ∀ site ∈ sites, ρ.distances.get? site.reference = site.distance? ∧
    site.Legal ρ.Admits
  spots : ∀ spot ∈ spots, spot.misuse? = none

/-- Sites give the same distances after as before, and nothing is wrong at the spots after. -/
structure Renaming.Keeps (sites sites' : List Site) (spots' : List Spot) : Prop where
  entries : sites'.filterMap Site.toEntry = sites.filterMap Site.toEntry
  spots : ∀ spot ∈ spots', spot.misuse? = none

section Parts
variable {ρ : Renaming} {sites more : List Site} {spots others : List Spot}

theorem Renaming.Knows.left (h : ρ.Knows (sites ++ more) (spots ++ others)) :
    ρ.Knows sites spots :=
  ⟨(List.forall_mem_append.mp h.sites).1, (List.forall_mem_append.mp h.spots).1⟩

theorem Renaming.Knows.right (h : ρ.Knows (sites ++ more) (spots ++ others)) :
    ρ.Knows more others :=
  ⟨(List.forall_mem_append.mp h.sites).2, (List.forall_mem_append.mp h.spots).2⟩

theorem Renaming.Keeps.nil : Renaming.Keeps [] [] [] :=
  ⟨rfl, List.forall_mem_nil _⟩

theorem Renaming.Keeps.append {sites' more' : List Site} {spots' others' : List Spot}
    (h1 : Renaming.Keeps sites sites' spots') (h2 : Renaming.Keeps more more' others') :
    Renaming.Keeps (sites ++ more) (sites' ++ more') (spots' ++ others') := by
  refine ⟨?_, List.forall_mem_append.mpr ⟨h1.spots, h2.spots⟩⟩
  rw [List.filterMap_append, List.filterMap_append, h1.entries, h2.entries]

/-- A spot at which no reference stands. -/
theorem Renaming.Keeps.spot {sites' : List Site} {spots' : List Spot}
    (h : Renaming.Keeps sites sites' spots') {spot : Spot} (hspot : spot.misuse? = none) :
    Renaming.Keeps sites sites' (spot :: spots') :=
  ⟨h.entries, List.forall_mem_cons.mpr ⟨hspot, h.spots⟩⟩

theorem Renaming.Keeps.single {site site' : Site} (hid : site'.reference.id = site.reference.id)
    (hdistance : site'.distance? = site.distance?) (hmisuse : site'.misuse? = none) :
    Renaming.Keeps [site] [site'] [.use site'] := by
  refine ⟨?_, List.forall_mem_singleton.mpr hmisuse⟩
  have hentry : site'.toEntry = site.toEntry := by
    rw [Site.toEntry, Site.toEntry, hdistance, hid]
  rw [List.filterMap_cons, List.filterMap_cons, hentry]

end Parts

section Expressions
variable {ρ : Renaming} {marks : Marks} {Γ Γ' : Enclosure} {p p' : Option String}

/-- A reference keeps its distance. -/
theorem Reference.Renamed.distance? {r r' : Reference} (h : r.Renamed ρ marks r') (use : Use)
    (hΓ : ρ.Around marks Γ Γ' p p') (hfresh : r.name.lexeme ≠ ρ.new)
    (hrecorded : ρ.distances.get? r = (⟨r, use, Γ, p⟩ : Site).distance?) :
    (⟨r', use, Γ', p'⟩ : Site).distance? = (⟨r, use, Γ, p⟩ : Site).distance? := by
  refine hΓ.distance? use hfresh ?_
  rw [h.name.lexeme, hrecorded]

theorem Reference.Renamed.keeps_read {r r' : Reference} (h : r.Renamed ρ marks r')
    (hΓ : ρ.Around marks Γ Γ' p p') (hfresh : r.name.lexeme ≠ ρ.new)
    (hknows : ρ.Knows [⟨r, .read, Γ, p⟩] [.use ⟨r, .read, Γ, p⟩]) :
    Renaming.Keeps [⟨r, .read, Γ, p⟩] [⟨r', .read, Γ', p'⟩] [.use ⟨r', .read, Γ', p'⟩] := by
  obtain ⟨hrecorded, hlegal⟩ := hknows.sites _ List.mem_cons_self
  have hmisuse : (⟨r, .read, Γ, p⟩ : Site).misuse? = none := hknows.spots _ List.mem_cons_self
  refine .single h.id (h.distance? .read hΓ hfresh hrecorded)
    (hΓ.misuse?_read hlegal.undeclared hfresh ?_ hmisuse)
  rw [h.name.lexeme, hrecorded]
  rfl

mutual

theorem Expr.Renamed.keeps {e e' : Expr} (h : e.Renamed ρ marks e') (hΓ : ρ.Around marks Γ Γ' p p')
    (hwell : e.WellFormed ρ.Admits) (hknows : ρ.Knows (e.sites Γ p) ((e.sites Γ p).map .use)) :
    Renaming.Keeps (e.sites Γ p) (e'.sites Γ' p') ((e'.sites Γ' p').map .use) := by
  cases e with
  | literal value =>
    cases h
    exact .nil
  | unary operator operand =>
    cases h with
    | unary _ hoperand => exact hoperand.keeps hΓ hwell.2 hknows
  | binary left operator right =>
    cases h with
    | binary _ hleft hright =>
      simp only [Expr.sites, List.map_append] at hknows ⊢
      exact (hleft.keeps hΓ hwell.2.1 hknows.left).append (hright.keeps hΓ hwell.2.2 hknows.right)
  | logical left operator right =>
    cases h with
    | logical _ hleft hright =>
      simp only [Expr.sites, List.map_append] at hknows ⊢
      exact (hleft.keeps hΓ hwell.2.1 hknows.left).append (hright.keeps hΓ hwell.2.2 hknows.right)
  | grouping inner =>
    cases h with
    | grouping hinner => exact hinner.keeps hΓ hwell hknows
  | «variable» target =>
    cases h with
    | «variable» htarget => exact htarget.keeps_read hΓ hwell.1 hknows
  | assign target value =>
    cases h with
    | assign htarget hvalue =>
      simp only [Expr.sites, List.map_append] at hknows ⊢
      obtain ⟨hrecorded, -⟩ := hknows.right.sites _ List.mem_cons_self
      exact (hvalue.keeps hΓ hwell.2 hknows.left).append
        (.single htarget.id (htarget.distance? .write hΓ hwell.1.1 hrecorded) rfl)
  | call callee paren arguments =>
    cases h with
    | call _ hcallee harguments =>
      simp only [Expr.sites, List.map_append] at hknows ⊢
      exact (hcallee.keeps hΓ hwell.1 hknows.left).append
        (Expr.Renamed.keepsAll harguments hΓ hwell.2 hknows.right)
  | get object name =>
    cases h with
    | get _ hobject => exact hobject.keeps hΓ hwell.1 hknows
  | set object name value =>
    cases h with
    | set _ hobject hvalue =>
      simp only [Expr.sites, List.map_append] at hknows ⊢
      exact (hvalue.keeps hΓ hwell.2.2 hknows.left).append (hobject.keeps hΓ hwell.1 hknows.right)
  | thisObject keyword =>
    obtain ⟨hrecorded, -⟩ := hknows.sites _ List.mem_cons_self
    have hmisuse := hknows.spots _ List.mem_cons_self
    cases h with
    | thisObject hkeyword =>
      refine .single rfl (hkeyword.distance? .receiver hΓ hwell.1 hrecorded)
        ((Spot.misuse?_receiver keyword Γ' p').trans ?_)
      rw [hΓ.enclosure.classContext]
      exact hmisuse
  | superMethod keyword method =>
    obtain ⟨hrecorded, -⟩ := hknows.sites _ List.mem_cons_self
    have hmisuse := hknows.spots _ List.mem_cons_self
    cases h with
    | superMethod _ hkeyword =>
      refine .single rfl (hkeyword.distance? .ancestry hΓ hwell.1.1 hrecorded)
        ((Spot.misuse?_ancestry keyword Γ' p').trans ?_)
      rw [hΓ.enclosure.classContext]
      exact hmisuse
termination_by structural e

theorem Expr.Renamed.keepsAll {es es' : List Expr} (h : List.Forall₂ (Expr.Renamed ρ marks) es es')
    (hΓ : ρ.Around marks Γ Γ' p p') (hwell : Expr.AllWellFormed ρ.Admits es)
    (hknows : ρ.Knows (Expr.sitesAll Γ p es) ((Expr.sitesAll Γ p es).map .use)) :
    Renaming.Keeps (Expr.sitesAll Γ p es) (Expr.sitesAll Γ' p' es')
      ((Expr.sitesAll Γ' p' es').map .use) := by
  cases es with
  | nil =>
    cases h
    exact .nil
  | cons e rest =>
    cases h with
    | cons he hrest =>
      simp only [Expr.sitesAll, List.map_append] at hknows ⊢
      exact (he.keeps hΓ hwell.1 hknows.left).append
        (Expr.Renamed.keepsAll hrest hΓ hwell.2 hknows.right)
termination_by structural es

end

theorem Expr.Renamed.keepsOption {e e' : Option Expr} (h : Option.Rel (Expr.Renamed ρ marks) e e')
    (hΓ : ρ.Around marks Γ Γ' p p') (hwell : Expr.OptionWellFormed ρ.Admits e)
    (hknows : ρ.Knows (Expr.sitesOption Γ p e) ((Expr.sitesOption Γ p e).map .use)) :
    Renaming.Keeps (Expr.sitesOption Γ p e) (Expr.sitesOption Γ' p' e')
      ((Expr.sitesOption Γ' p' e').map .use) := by
  cases h with
  | none => exact .nil
  | some he => exact he.keeps hΓ hwell hknows

end Expressions

/-! ## Declarations -/

section Statements
variable {ρ : Renaming}

/-- A name that is declared for the first time in its scope still is. -/
theorem Token.Renamed.misuse?_declaration {marks : Marks} {Γ Γ' : Enclosure} {name name' : Token}
    (h : name.Renamed ρ marks.here name') (hΓ : Γ.Renamed ρ marks Γ') (hfresh : name.lexeme ≠ ρ.new)
    (hmisuse : (Spot.declaration name Γ).misuse? = none) :
    (Spot.declaration name' Γ').misuse? = none := by
  obtain ⟨hnew, hinnermost⟩ := hΓ.innermost
  rw [Spot.misuse?_declaration, h.lexeme, hinnermost]
  refine if_neg fun hmem => ?_
  rw [Spot.misuse?_declaration, if_pos (ρ.map_name_mem_iff hnew hfresh _ _ hmem)] at hmisuse
  exact absurd hmisuse (Option.some_ne_none _)

theorem Stmt.Renamed.after {marks : Marks} {Γ Γ' : Enclosure} {s s' : Stmt}
    (h : s.Renamed ρ marks s') (hΓ : Γ.Renamed ρ marks Γ') (hwell : s.WellFormed ρ.Admits) :
    (s.after Γ).Renamed ρ marks (s'.after Γ') := by
  cases h with
  | «variable» hname hinitializer => exact hΓ.declare hname hwell.1.1
  | @function marks declaration declaration' hname hdeclaration =>
    obtain ⟨name, params, body⟩ := declaration
    rw [Stmt.after, Stmt.after, hdeclaration.name]
    exact hΓ.declare hname hwell.1.1
  | classDeclaration hname hsuperclass hmethods => exact hΓ.declare hname hwell.1.1
  | _ => exact hΓ

/-- The enclosure of the methods of a class, before and after. -/
theorem Enclosure.Renamed.ofClass {marks : Marks} {Γ Γ' : Enclosure} (hΓ : Γ.Renamed ρ marks Γ')
    {name : Token} (hname : name.Renamed ρ marks.here name) (hfresh : name.lexeme ≠ ρ.new)
    {superclass superclass' : Option Expr}
    (hsuperclass : Option.Rel (Expr.Renamed ρ marks) superclass superclass')
    (methods methods' : List FunctionDeclaration) :
    (Γ.ofClass name superclass methods).Renamed ρ (marks.ofClass superclass)
      (Γ'.ofClass name superclass' methods') := by
  have hdeclared := hΓ.declare hname hfresh
  cases hsuperclass with
  | none => exact hdeclared
  | some hparent =>
    have hnew : ρ.new ∉ ["super"] := fun hmem =>
      ρ.new_free (List.mem_singleton.mp hmem ▸ Store.super_mem_reserved)
    have hlayer := Enclosure.Renamed.layer false (.ancestry name name methods methods') hnew hdeclared
    rwa [List.map_singleton, ρ.name_false] at hlayer

theorem Enclosure.Renamed.ofMethod {marks : Marks} {Γ Γ' : Enclosure} (hΓ : Γ.Renamed ρ marks Γ')
    (d d' : FunctionDeclaration) :
    (Γ.ofMethod d).Renamed ρ (false :: marks) (Γ'.ofMethod d') := by
  have hnew : ρ.new ∉ ["this"] := fun hmem =>
    ρ.new_free (List.mem_singleton.mp hmem ▸ Store.this_mem_reserved)
  have hlayer := Enclosure.Renamed.layer false (.receiver d d') hnew hΓ
  rwa [List.map_singleton, ρ.name_false] at hlayer

theorem Spot.misuse?_inheritance_iff {name parent : Token} :
    (Spot.inheritance name parent).misuse? = none ↔ parent.lexeme ≠ name.lexeme := by
  rw [Spot.misuse?]
  split
  · rename_i heq
    exact ⟨fun h => absurd h (Option.some_ne_none _), fun hne => absurd heq hne⟩
  · rename_i hne
    exact ⟨fun _ => hne, fun _ => rfl⟩

/-- A class declares its name, and its superclass is found at the same distance. -/
theorem Enclosure.Renamed.keeps_class {marks : Marks} {Γ Γ' : Enclosure} (hΓ : Γ.Renamed ρ marks Γ')
    {name : Token} (hname : name.Renamed ρ marks.here name) (hfresh : name.lexeme ≠ ρ.new)
    {superclass superclass' : Option Expr}
    (hsuperclass : Option.Rel (Expr.Renamed ρ marks) superclass superclass')
    (hparents : ∀ parent ∈ superclass, parent.IsVariable ρ.Admits)
    (hknows : ρ.Knows (Expr.sitesOption Γ none superclass) (Spot.ofClass Γ name superclass)) :
    Renaming.Keeps (Expr.sitesOption Γ none superclass) (Expr.sitesOption Γ' none superclass')
      (Spot.ofClass Γ' name superclass') := by
  cases hsuperclass with
  | none =>
    exact Renaming.Keeps.nil.spot (hname.misuse?_declaration hΓ hfresh
      (hknows.spots _ List.mem_cons_self))
  | some hsuper =>
    obtain ⟨parent, rfl, hparentName⟩ := hparents _ rfl
    obtain ⟨hsites, hspots⟩ := hknows
    obtain ⟨hdeclaration, hrest⟩ := List.forall_mem_cons.mp hspots
    obtain ⟨hinheritance, hread⟩ := List.forall_mem_cons.mp hrest
    cases hsuper with
    | @«variable» _ parent' hparent =>
      have hother : parent'.name.lexeme ≠ name.lexeme := by
        rw [hparent.name.lexeme, hname.lexeme]
        exact fun heq => Spot.misuse?_inheritance_iff.mp hinheritance
          (ρ.eq_of_name_eq hparentName.1 hfresh heq)
      exact ((hparent.keeps_read (.elsewhere hΓ) hparentName.1 ⟨hsites, hread⟩).spot
        (Spot.misuse?_inheritance_iff.mpr hother)).spot
          (hname.misuse?_declaration hΓ hfresh hdeclaration)

/-- Parameters are declared one after the other, before and after. -/
theorem Enclosure.Renamed.params {marks : Marks} {marked : Bool} {Γ Γ' : Enclosure}
    (hΓ : Γ.Renamed ρ (marked :: marks) Γ') {params params' : List Token}
    (hparams : List.Forall₂ (Token.Renamed ρ marked) params params')
    (hfresh : ∀ t ∈ params, t.lexeme ≠ ρ.new)
    (hspots : ∀ spot ∈ Spot.declarations Γ params, spot.misuse? = none) :
    ∀ spot ∈ Spot.declarations Γ' params', spot.misuse? = none := by
  induction hparams generalizing Γ Γ' with
  | nil => exact List.forall_mem_nil _
  | cons hparam _ ih =>
    obtain ⟨hfirst, hrest⟩ := List.forall_mem_cons.mp hfresh
    obtain ⟨hspot, hlater⟩ := List.forall_mem_cons.mp hspots
    exact List.forall_mem_cons.mpr ⟨hparam.misuse?_declaration hΓ hfirst hspot,
      ih (hΓ.declare hparam hfirst) hrest hlater⟩

theorem Renaming.map_lexeme {marked : Bool} {params params' : List Token}
    (h : List.Forall₂ (Token.Renamed ρ marked) params params') :
    params'.map Token.lexeme = (params.map Token.lexeme).map (ρ.name marked) := by
  induction h with
  | nil => rfl
  | cons hparam _ ih => rw [List.map_cons, List.map_cons, List.map_cons, hparam.lexeme, ih]

theorem Enclosure.Renamed.ofFunction {marks : Marks} {marked : Bool} {Γ Γ' : Enclosure}
    (hΓ : Γ.Renamed ρ marks Γ') {d d' : FunctionDeclaration}
    (hparams : List.Forall₂ (Token.Renamed ρ marked) d.params d'.params)
    (hfresh : ∀ t ∈ d.params, t.lexeme ≠ ρ.new) :
    (Γ.ofFunction d).Renamed ρ (marked :: marks) (Γ'.ofFunction d') := by
  have hnew : ρ.new ∉ (d.params.map Token.lexeme).reverse := fun hmem => by
    obtain ⟨t, ht, hlexeme⟩ := List.mem_map.mp (List.mem_reverse.mp hmem)
    exact hfresh t ht hlexeme
  have hlayer := Enclosure.Renamed.layer marked (.body d d') hnew hΓ
  rwa [List.map_reverse, ← Renaming.map_lexeme hparams] at hlayer

mutual

theorem Stmt.Renamed.keeps {marks : Marks} {Γ Γ' : Enclosure} {s s' : Stmt}
    (h : s.Renamed ρ marks s') (hΓ : Γ.Renamed ρ marks Γ') (hwell : s.WellFormed ρ.Admits)
    (hknows : ρ.Knows (s.sites Γ) (s.spots Γ)) :
    Renaming.Keeps (s.sites Γ) (s'.sites Γ') (s'.spots Γ') := by
  cases s with
  | expression value =>
    cases h with
    | expression hvalue => exact hvalue.keeps (.elsewhere hΓ) hwell hknows
  | print keyword value =>
    cases h with
    | print _ hvalue => exact hvalue.keeps (.elsewhere hΓ) hwell hknows
  | «variable» name initializer =>
    obtain ⟨hsites, hspots⟩ := hknows
    obtain ⟨hspot, hrest⟩ := List.forall_mem_cons.mp hspots
    have hfresh := hwell.1.1
    cases h with
    | «variable» hname hinitializer =>
      exact (Expr.Renamed.keepsOption hinitializer (.pending hΓ hname hfresh) hwell.2
        ⟨hsites, hrest⟩).spot (hname.misuse?_declaration hΓ hfresh hspot)
  | block body =>
    cases h with
    | block marked hbody =>
      exact Stmt.Renamed.keepsAll hbody (.layer marked (.block _ _) List.not_mem_nil hΓ) hwell hknows
  | conditional condition thenBranch elseBranch =>
    cases elseBranch with
    | none =>
      cases h with
      | conditional hcondition hthen =>
        exact (hcondition.keeps (.elsewhere hΓ) hwell.1 hknows.left).append
          (hthen.keeps hΓ hwell.2.2 hknows.right)
    | some elseBranch =>
      cases h with
      | alternative hcondition hthen helse =>
        exact ((hcondition.keeps (.elsewhere hΓ) hwell.1 hknows.left.left).append
          (hthen.keeps hΓ hwell.2.1.2 hknows.left.right)).append
            (helse.keeps hΓ hwell.2.2.2 hknows.right)
  | loop condition body =>
    cases h with
    | loop hcondition hbody =>
      exact (hcondition.keeps (.elsewhere hΓ) hwell.1 hknows.left).append
        (hbody.keeps hΓ hwell.2.2 hknows.right)
  | function declaration =>
    obtain ⟨hsites, hspots⟩ := hknows
    obtain ⟨hspot, hrest⟩ := List.forall_mem_cons.mp hspots
    have hfresh : declaration.name.lexeme ≠ ρ.new := by
      obtain ⟨name, params, body⟩ := declaration
      exact hwell.1.1
    cases h with
    | function hname hdeclaration =>
      rw [Stmt.sites, Stmt.sites, Stmt.spots, hdeclaration.name]
      exact (hdeclaration.keeps (hΓ.declare hname hfresh) hwell ⟨hsites, hrest⟩).spot
        (hname.misuse?_declaration hΓ hfresh hspot)
  | returnWith keyword value =>
    obtain ⟨hsites, hspots⟩ := hknows
    obtain ⟨hspot, hrest⟩ := List.forall_mem_cons.mp hspots
    cases h with
    | returnWith _ hvalue =>
      refine (Expr.Renamed.keepsOption hvalue (.elsewhere hΓ) hwell ⟨hsites, hrest⟩).spot ?_
      rw [Spot.misuse?, hΓ.inFunction]
      exact hspot
  | classDeclaration name superclass methods =>
    have hfresh := hwell.1.1
    cases h with
    | @classDeclaration _ _ _ superclass' _ methods' hname hsuperclass hmethods =>
      have hclass := hΓ.ofClass hname hfresh hsuperclass methods methods'
      exact (hΓ.keeps_class hname hfresh hsuperclass hwell.2.1 hknows.left).append
        (FunctionDeclaration.Renamed.keepsAll hmethods hclass hwell.2.2 hknows.right)
termination_by structural s

theorem Stmt.Renamed.keepsAll {marks : Marks} {Γ Γ' : Enclosure} {body body' : List Stmt}
    (h : Stmt.RenamedAll ρ marks body body') (hΓ : Γ.Renamed ρ marks Γ')
    (hwell : Stmt.AllWellFormed ρ.Admits body)
    (hknows : ρ.Knows (Stmt.sitesAll Γ body) (Stmt.spotsAll Γ body)) :
    Renaming.Keeps (Stmt.sitesAll Γ body) (Stmt.sitesAll Γ' body') (Stmt.spotsAll Γ' body') := by
  cases body with
  | nil =>
    cases h
    exact .nil
  | cons s rest =>
    cases h with
    | cons hs hrest =>
      exact (hs.keeps hΓ hwell.1 hknows.left).append
        (Stmt.Renamed.keepsAll hrest (hs.after hΓ hwell.1) hwell.2 hknows.right)
termination_by structural body

theorem FunctionDeclaration.Renamed.keeps {marks : Marks} {Γ Γ' : Enclosure}
    {d d' : FunctionDeclaration} (h : d.Renamed ρ marks d') (hΓ : Γ.Renamed ρ marks Γ')
    (hwell : d.WellFormed ρ.Admits) (hknows : ρ.Knows (d.sites Γ) (d.spots Γ)) :
    Renaming.Keeps (d.sites Γ) (d'.sites Γ') (d'.spots Γ') := by
  obtain ⟨name, params, body⟩ := d
  cases h with
  | @intro marks marked _ _ params' _ body' hparams hbody =>
    have hfresh : ∀ t ∈ params, t.lexeme ≠ ρ.new := fun t ht => (hwell.2.1 t ht).1
    obtain ⟨hsites, hspots⟩ := hknows
    obtain ⟨hdeclarations, hrest⟩ := List.forall_mem_append.mp hspots
    have hopen : Enclosure.Renamed ρ (marked :: marks) (⟨.body ⟨name, params, body⟩, []⟩ :: Γ)
        (⟨.body ⟨name, params', body'⟩, []⟩ :: Γ') :=
      .layer marked (.body _ _) List.not_mem_nil hΓ
    have hinside : (Γ.ofFunction ⟨name, params, body⟩).Renamed ρ (marked :: marks)
        (Γ'.ofFunction ⟨name, params', body'⟩) := hΓ.ofFunction hparams hfresh
    have hkept := Stmt.Renamed.keepsAll hbody hinside hwell.2.2 ⟨hsites, hrest⟩
    exact ⟨hkept.entries, List.forall_mem_append.mpr
      ⟨hopen.params hparams hfresh hdeclarations, hkept.spots⟩⟩
termination_by structural d

theorem FunctionDeclaration.Renamed.keepsAll {marks : Marks} {Γ Γ' : Enclosure}
    {methods methods' : List FunctionDeclaration}
    (h : FunctionDeclaration.RenamedAll ρ (false :: marks) methods methods')
    (hΓ : Γ.Renamed ρ marks Γ') (hwell : FunctionDeclaration.AllWellFormed ρ.Admits methods)
    (hknows : ρ.Knows (FunctionDeclaration.sitesAll Γ methods)
      (FunctionDeclaration.spotsAll Γ methods)) :
    Renaming.Keeps (FunctionDeclaration.sitesAll Γ methods)
      (FunctionDeclaration.sitesAll Γ' methods') (FunctionDeclaration.spotsAll Γ' methods') := by
  cases methods with
  | nil =>
    cases h
    exact .nil
  | cons d rest =>
    cases h with
    | cons hd hrest =>
      exact (hd.keeps (hΓ.ofMethod _ _) hwell.1 hknows.left).append
        (FunctionDeclaration.Renamed.keepsAll hrest hΓ hwell.2 hknows.right)
termination_by structural methods

end

end Statements

/-! ## Well-formed trees -/

section WellFormed
variable {ρ : Renaming} {admits : Token → Prop}

/-- Any token is admitted. -/
abbrev anyToken (_ : Token) : Prop := True

theorem Token.IsName.any {t : Token} (h : t.IsName admits) : t.IsName anyToken :=
  ⟨trivial, h.2⟩

theorem Token.IsName.renamed {marked : Bool} {t t' : Token} (h : t.IsName admits)
    (ht : t.Renamed ρ marked t') : t'.IsName anyToken := by
  refine ⟨trivial, ?_⟩
  rw [ht.kind]
  exact h.2

mutual

theorem Expr.Renamed.wellFormed {marks : Marks} {e e' : Expr} (h : e.Renamed ρ marks e')
    (hwell : e.WellFormed admits) : e'.WellFormed anyToken := by
  cases e with
  | literal value =>
    cases h
    trivial
  | unary operator operand =>
    cases h with
    | unary _ hoperand => exact ⟨hwell.1, hoperand.wellFormed hwell.2⟩
  | binary left operator right =>
    cases h with
    | binary _ hleft hright =>
      exact ⟨hwell.1, hleft.wellFormed hwell.2.1, hright.wellFormed hwell.2.2⟩
  | logical left operator right =>
    cases h with
    | logical _ hleft hright =>
      exact ⟨hwell.1, hleft.wellFormed hwell.2.1, hright.wellFormed hwell.2.2⟩
  | grouping inner =>
    cases h with
    | grouping hinner => exact hinner.wellFormed hwell
  | «variable» target =>
    cases h with
    | «variable» htarget => exact hwell.renamed htarget.name
  | assign target value =>
    cases h with
    | assign htarget hvalue => exact ⟨hwell.1.renamed htarget.name, hvalue.wellFormed hwell.2⟩
  | call callee paren arguments =>
    cases h with
    | call _ hcallee harguments =>
      exact ⟨hcallee.wellFormed hwell.1, Expr.Renamed.wellFormedAll harguments hwell.2⟩
  | get object name =>
    cases h with
    | get _ hobject => exact ⟨hobject.wellFormed hwell.1, hwell.2.any⟩
  | set object name value =>
    cases h with
    | set _ hobject hvalue =>
      exact ⟨hobject.wellFormed hwell.1, hwell.2.1.any, hvalue.wellFormed hwell.2.2⟩
  | thisObject keyword =>
    cases h
    exact ⟨trivial, hwell.2⟩
  | superMethod keyword method =>
    cases h
    exact ⟨⟨trivial, hwell.1.2⟩, hwell.2.any⟩
termination_by structural e

theorem Expr.Renamed.wellFormedAll {marks : Marks} {es es' : List Expr}
    (h : List.Forall₂ (Expr.Renamed ρ marks) es es') (hwell : Expr.AllWellFormed admits es) :
    Expr.AllWellFormed anyToken es' := by
  cases es with
  | nil =>
    cases h
    trivial
  | cons e rest =>
    cases h with
    | cons he hrest => exact ⟨he.wellFormed hwell.1, Expr.Renamed.wellFormedAll hrest hwell.2⟩
termination_by structural es

end

theorem Expr.Renamed.wellFormedOption {marks : Marks} {e e' : Option Expr}
    (h : Option.Rel (Expr.Renamed ρ marks) e e') (hwell : Expr.OptionWellFormed admits e) :
    Expr.OptionWellFormed anyToken e' := by
  cases h with
  | none => trivial
  | some he => exact he.wellFormed hwell

theorem Stmt.Renamed.isDeclaration {marks : Marks} {s s' : Stmt} (h : s.Renamed ρ marks s') :
    s'.isDeclaration = s.isDeclaration := by
  cases h <;> rfl

mutual

theorem Stmt.Renamed.wellFormed {marks : Marks} {s s' : Stmt} (h : s.Renamed ρ marks s')
    (hwell : s.WellFormed admits) : s'.WellFormed anyToken := by
  cases s with
  | expression value =>
    cases h with
    | expression hvalue => exact hvalue.wellFormed hwell
  | print keyword value =>
    cases h with
    | print _ hvalue => exact hvalue.wellFormed hwell
  | «variable» name initializer =>
    cases h with
    | «variable» hname hinitializer =>
      exact ⟨hwell.1.renamed hname, Expr.Renamed.wellFormedOption hinitializer hwell.2⟩
  | block body =>
    cases h with
    | block _ hbody => exact Stmt.Renamed.wellFormedAll hbody hwell
  | conditional condition thenBranch elseBranch =>
    cases elseBranch with
    | none =>
      cases h with
      | conditional hcondition hthen =>
        exact ⟨hcondition.wellFormed hwell.1, hthen.isDeclaration.trans hwell.2.1,
          hthen.wellFormed hwell.2.2⟩
    | some elseBranch =>
      obtain ⟨hcond, ⟨hthenPlain, hthenWell⟩, helsePlain, helseWell⟩ := hwell
      cases h with
      | alternative hcondition hthen helse =>
        exact ⟨hcondition.wellFormed hcond,
          ⟨hthen.isDeclaration.trans hthenPlain, hthen.wellFormed hthenWell⟩,
          helse.isDeclaration.trans helsePlain, helse.wellFormed helseWell⟩
  | loop condition body =>
    cases h with
    | loop hcondition hbody =>
      exact ⟨hcondition.wellFormed hwell.1, hbody.isDeclaration.trans hwell.2.1,
        hbody.wellFormed hwell.2.2⟩
  | function declaration =>
    cases h with
    | function _ hdeclaration => exact hdeclaration.wellFormed hwell
  | returnWith keyword value =>
    cases h with
    | returnWith _ hvalue => exact Expr.Renamed.wellFormedOption hvalue hwell
  | classDeclaration name superclass methods =>
    cases h with
    | classDeclaration _ hsuperclass hmethods =>
      refine ⟨hwell.1.any, fun parent' hparent' => ?_,
        FunctionDeclaration.Renamed.wellFormedAll hmethods hwell.2.2⟩
      cases hsuperclass with
      | none => cases hparent'
      | some hparent =>
        cases hparent'
        obtain ⟨target, rfl, hname⟩ := hwell.2.1 _ rfl
        cases hparent with
        | «variable» htarget => exact ⟨_, rfl, hname.renamed htarget.name⟩
termination_by structural s

theorem Stmt.Renamed.wellFormedAll {marks : Marks} {body body' : List Stmt}
    (h : Stmt.RenamedAll ρ marks body body') (hwell : Stmt.AllWellFormed admits body) :
    Stmt.AllWellFormed anyToken body' := by
  cases body with
  | nil =>
    cases h
    trivial
  | cons s rest =>
    cases h with
    | cons hs hrest => exact ⟨hs.wellFormed hwell.1, Stmt.Renamed.wellFormedAll hrest hwell.2⟩
termination_by structural body

theorem FunctionDeclaration.Renamed.wellFormed {marks : Marks} {d d' : FunctionDeclaration}
    (h : d.Renamed ρ marks d') (hwell : d.WellFormed admits) : d'.WellFormed anyToken := by
  obtain ⟨name, params, body⟩ := d
  cases h with
  | intro marked _ hparams hbody =>
    refine ⟨hwell.1.any, fun param' hparam' => ?_, Stmt.Renamed.wellFormedAll hbody hwell.2.2⟩
    obtain ⟨i, hi, rfl⟩ := List.mem_iff_getElem.mp hparam'
    have hi' := hi
    rw [← hparams.length_eq] at hi'
    exact (hwell.2.1 _ (List.getElem_mem hi')).renamed (hparams.get hi' hi)
termination_by structural d

theorem FunctionDeclaration.Renamed.wellFormedAll {marks : Marks}
    {methods methods' : List FunctionDeclaration}
    (h : FunctionDeclaration.RenamedAll ρ marks methods methods')
    (hwell : FunctionDeclaration.AllWellFormed admits methods) :
    FunctionDeclaration.AllWellFormed anyToken methods' := by
  cases methods with
  | nil =>
    cases h
    trivial
  | cons d rest =>
    cases h with
    | cons hd hrest =>
      exact ⟨hd.wellFormed hwell.1, FunctionDeclaration.Renamed.wellFormedAll hrest hwell.2⟩
termination_by structural methods

end

end WellFormed

/-! ## Programs -/

/-- A survey without faults comes from spots at which nothing is wrong, and gives the distances of the
sites. -/
theorem survey_eq_ok_iff {admits : Token → Prop} {program : List Stmt}
    (hwell : Stmt.AllWellFormed admits program) {found : List DistanceEntry} :
    survey program = .ok found ↔ (∀ spot ∈ Stmt.spotsAll [] program, spot.misuse? = none) ∧
      found = (Stmt.sitesAll [] program).filterMap Site.toEntry := by
  have hstart : Survey.Reaches admits ⟨false, .outside⟩ none [] .start :=
    ⟨trivial, .globals, fun _ => rfl, rfl, rfl⟩
  have hfaults := (Survey.visitStmts_reports program hstart hwell).faults
  have hnone : (Survey.visitStmts ⟨false, .outside⟩ program .start).faults = [] ↔
      ∀ spot ∈ Stmt.spotsAll [] program, spot.misuse? = none := by
    rw [hfaults]
    change (Stmt.spotsAll [] program).filterMap Spot.fault? = [] ↔ _
    rw [List.filterMap_eq_nil_iff]
    exact forall₂_congr fun spot _ => Option.map_eq_none_iff
  constructor
  · intro h
    refine ⟨hnone.mp ?_, (survey_sites hwell h).1⟩
    unfold survey at h
    dsimp only at h
    split at h
    · rename_i hclean
      exact List.isEmpty_iff.mp hclean
    · cases h
  · rintro ⟨hspots, rfl⟩
    have hclean := hnone.mpr hspots
    have hok : survey program =
        .ok (Survey.visitStmts ⟨false, .outside⟩ program .start).distances := by
      unfold survey
      dsimp only
      rw [hclean]
      rfl
    rw [hok, (survey_sites hwell hok).1]

/-- A renamed program is taken, with the same distances, if it was taken before the renaming. -/
theorem survey_renamed {ρ : Renaming} {program program' : List Stmt} {found : List DistanceEntry}
    (h : Stmt.RenamedAll ρ [false] program program')
    (hwell : Stmt.AllWellFormed ρ.Admits program) (hsurvey : survey program = .ok found)
    (hrecorded : ∀ site ∈ Stmt.sitesAll [] program,
      ρ.distances.get? site.reference = site.distance?) :
    survey program' = .ok found := by
  obtain ⟨hspots, rfl⟩ := (survey_eq_ok_iff hwell).mp hsurvey
  have hlegal := (survey_sites hwell hsurvey).2
  have hkept := Stmt.Renamed.keepsAll h .globals hwell
    ⟨fun site hsite => ⟨hrecorded site hsite, hlegal site hsite⟩, hspots⟩
  exact (survey_eq_ok_iff (Stmt.Renamed.wellFormedAll h hwell)).mpr ⟨hkept.spots, hkept.entries.symm⟩

end LoxLang
