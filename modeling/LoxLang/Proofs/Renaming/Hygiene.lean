import LoxLang.Proofs.Machine.Termination
import LoxLang.Proofs.Renaming.Choices
import LoxLang.Proofs.Renaming.Steps
import LoxLang.Proofs.Session.Comparison

/-!
Local variables can be renamed. A session between its runs is related to itself with no scope marked, since
every chain that it holds leads through scopes that there are (`World.renamed_self`), and a program that
is taken in it has the distances that the survey has found. So what is known of the survey and of the steps
of machines goes together: `local_names_hygienic` says that the renamed program is taken with the same
distances, prints the same lines and ends in the same way.
-/
namespace LoxLang
set_option autoImplicit false

/-! ## Sessions in which nothing is renamed -/

/-- So many scopes, none of which is marked. -/
def Marks.unmarked (count : Nat) : Marks :=
  List.replicate count false

theorem Marks.clear_unmarked (count : Nat) : (Marks.unmarked count).Clear :=
  fun _ => List.eq_of_mem_replicate

theorem Marks.getElem?_unmarked {count id : Nat} (h : id < count) :
    (Marks.unmarked count)[id]? = some false := by
  rw [Marks.unmarked, List.getElem?_replicate, if_pos h]

theorem Table.renamed_self {α : Type} (ρ : Renaming) {R : α → α → Prop} {t : Table α}
    (h : ∀ x v, t.get? x = some v → R v v) : t.Renamed ρ false R t := by
  intro x _
  rw [ρ.name_false]
  exact rel_self (h x)

namespace Layout
variable {L : Layout} {allowed : Stmt → Prop} (ρ : Renaming)

theorem HasLinks.unmarked {chain : Chain} (h : L.HasLinks chain) :
    chain.Marked (.unmarked L.links.length) (.unmarked chain.length) := by
  induction chain with
  | nil => exact .nil
  | cons id outer ih => exact .cons (Marks.getElem?_unmarked (lt_of_getElem? h.1)) (ih h.2)

theorem HasFunction.renamed_self {c : Closure} (h : L.HasFunction allowed c) {inner : Marks}
    (hinner : inner.Clear) : c.Renamed ρ (.unmarked L.links.length) inner c :=
  ⟨⟨.unmarked c.chain.length, h.1.2.unmarked, c.declaration.renamed_self ρ
    (List.forall_mem_append.mpr ⟨hinner, Marks.clear_unmarked _⟩)⟩, rfl, rfl⟩

theorem Sound.class_renamed_self (hsound : L.Sound allowed) {c : ClassObject} (h : L.HasClass c) :
    c.Renamed ρ (.unmarked L.links.length) c := by
  refine ⟨rfl, rfl, fun name => rel_self fun method hmethod => ?_⟩
  exact (hsound.hasFunction_method? h hmethod).renamed_self ρ (Marks.clear_unmarked 1)

theorem Sound.value_renamed_self (hsound : L.Sound allowed) {v : Value} (h : L.HasValue v) :
    v.Renamed ρ (.unmarked L.links.length) v := by
  cases v with
  | callable callable =>
    cases callable with
    | clock => exact .callable .clock
    | function id closure =>
      have hfunction := (hsound.functions id id closure h).2
      exact .callable (.function id (hfunction.renamed_self ρ (Marks.clear_unmarked 0)))
    | classObject c => exact .callable (.classObject (hsound.class_renamed_self ρ h))
  | object object =>
    exact .object ⟨rfl, hsound.class_renamed_self ρ (hsound.origins object.id object.origin h)⟩
  | _ => exact Value.renamed_of_plain trivial

theorem Holds.renamed_self {s : Store} (h : L.Holds allowed s) :
    s.Renamed ρ (.unmarked L.links.length) s := by
  have hsize : (Marks.unmarked L.links.length).length = s.scopes.size :=
    (List.length_replicate).trans h.scopes
  refine ⟨hsize.symm, hsize.symm, Marks.getElem?_unmarked (lt_of_getElem? h.sound.globals),
    fun id marked hmark => ?_, rfl, fun {object object'} hid => ?_, rfl⟩
  · obtain rfl := Marks.clear_unmarked _ marked (List.mem_of_getElem? hmark)
    exact Table.renamed_self ρ fun x v hv => h.sound.value_renamed_self ρ (h.bound id x v hv)
  · have hfields : s.fieldsOf object' = s.fieldsOf object := by
      rw [Store.fieldsOf, Store.fieldsOf, hid]
    rw [hfields]
    exact Table.renamed_self ρ fun x v hv => h.sound.value_renamed_self ρ (h.stored object x v hv)

end Layout

/-- Between its runs a session is in the global scope, and a renaming that knows the distances of its world
leaves that world as it is. -/
theorem Session.Settled.renamed_self {s : Session} (hs : s.Settled) {ρ : Renaming}
    {entries : List DistanceEntry} (hdistances : ρ.distances = s.world.distances.record entries) :
    ∃ M, (s.world.record entries).Renamed ρ M [false] (s.world.record entries) := by
  obtain ⟨m, past, hl, hhalted, hworld⟩ := hs.idle
  have hchain : s.world.chain = .globals := by
    rw [← hworld]
    exact congrArg Prod.fst (hl.agrees.chain_of_halted hhalted)
  have hall : ∀ program ∈ past.programs, ∀ t ∈ Stmt.partsAll program, (fun _ => True) t :=
    fun _ _ _ _ => trivial
  obtain ⟨states, hreached⟩ := hl.reachable hall
  obtain ⟨L, hfits, -⟩ := hreached.fits
  have hstore := hfits.holds.renamed_self ρ
  have hmarked := hfits.chain.2.unmarked
  rw [hworld] at hstore hmarked
  rw [hchain] at hmarked
  refine ⟨_, hstore, rfl, ?_, rfl, hdistances.symm, hdistances.symm, rfl, rfl⟩
  change s.world.chain.Marked _ _
  rw [hchain]
  exact hmarked

/-! ## Renamed programs -/

/-- In any session, a program is taken from a source in which the new name does not stand. It is renamed in
the scopes that are marked: a `var` declaration or a parameter with the old name gets the new one there, and
so do the references and assignments whose distance leads to it. A local variable is one such scope, which may
not declare anything else under the old name; several can be renamed at once. Then the renamed program is
taken with the same distances for all its references. After any number of steps both have printed the same,
and they end after the same number, either normally or with a fault of one kind on one line; only in a fault
for a variable that is not there the new name may stand for the old one. -/
theorem local_names_hygienic {sink : Sink} {clock : Clock} {past : List Request}
    {s loaded : Session} {source : List UInt8} {program program' : List Stmt} {ρ : Renaming}
    (hpast : (Session.fresh sink clock).performAll? past = some s)
    (hload : s.load source = (loaded, some program))
    (hdistances : ρ.distances = loaded.world.distances)
    (hnew : ∀ t ∈ (tokenize source).1, t.lexeme ≠ ρ.new)
    (hrenamed : Stmt.RenamedAll ρ [false] program program') :
    (∃ found, survey program = .ok found ∧ survey program' = .ok found ∧
      loaded.world = s.world.record found) ∧
    ∀ fuel,
      (Machine.run fuel (loaded.world.program program')).world.sink =
        (Machine.run fuel (loaded.world.program program)).world.sink ∧
      Option.Rel (fun result result' => Option.Rel (RuntimeFault.Renamed ρ) result.1 result'.1 ∧
          result'.2.sink = result.2.sink)
        (loaded.world.interpret? fuel program) (loaded.world.interpret? fuel program') := by
  have hs := Session.settled_of_performAll? hpast
  obtain ⟨hprogram, -, found, hsurvey, hworld⟩ := Session.load_some hload
  have hrecorded : ρ.distances = s.world.distances.record found :=
    hdistances.trans (congrArg World.distances hworld)
  obtain ⟨hentries, ⟨hnodup, hrange⟩, -⟩ := program_sites hnew hprogram hsurvey
  have hsites : ∀ site ∈ Stmt.sitesAll [] program,
      ρ.distances.get? site.reference = site.distance? := by
    intro site hsite
    have hfresh := hs.fresh site.reference (hrange _ (mem_siteIds hsite)).1
    rw [hrecorded, hentries]
    exact Distances.get?_record_sites hnodup hsite hfresh
  have hsurvey' := survey_renamed hrenamed (program_good hnew hprogram).1 hsurvey hsites
  refine ⟨⟨found, hsurvey, hsurvey', hworld⟩, fun fuel => ?_⟩
  obtain ⟨M, hself⟩ := hs.renamed_self hrecorded
  have hstart : (loaded.world.program program).Renamed ρ (loaded.world.program program') := by
    rw [hworld]
    exact ⟨M, [false], hself, .execAll hrenamed, .nil⟩
  have hrun := Machine.run_renamed fuel hstart
  refine ⟨?_, World.interpret?_renamed hrun⟩
  obtain ⟨N, marks, hend, -, -⟩ := hrun
  exact hend.sink

/-- A parameter and three local variables get another name than the global `a`. A function stands before
the second variable and keeps to the first, which is also read in the initializer of the second; the third
is assigned to before it is there. -/
theorem local_names_hygienic_of_shadowing :
    let earlier := "var a = nil;"
    let source := "fun id(a) \x7b return a; \x7d print id(a);\n\x7b\n var a = true;\n \x7b\n" ++
      "  fun show() \x7b print a; \x7d\n  var a = a;\n  a = false; print a; show();\n" ++
      "  \x7b var a = (a = nil); \x7d\n \x7d\n\x7d"
    let past : List Request := [.run 50 earlier.toUTF8.toList]
    ∃ s loaded program program' ρ,
      (Session.fresh (.ofRoom none) (.standing 0)).performAll? past = some s ∧
      s.load source.toUTF8.toList = (loaded, some program) ∧
      ρ.old = "a" ∧ ρ.new = "b" ∧ ρ.distances = loaded.world.distances ∧
      (∀ t ∈ (tokenize source.toUTF8.toList).1, t.lexeme ≠ ρ.new) ∧
      Stmt.RenamedAll ρ [false] program program' ∧ survey program' = survey program ∧
      ∃ f f' w w',
        loaded.world.interpret? 100 program = some (some f, w) ∧
        f = ⟨.undefinedVariable "a", 8⟩ ∧ w.sink.lines.toList = ["nil", "false", "true"] ∧
        loaded.world.interpret? 100 program' = some (some f', w') ∧
        f.Renamed ρ f' ∧ w'.sink = w.sink := by
  intro earlier source past
  have hends : (((Session.fresh (.ofRoom none) (.standing 0)).performAll? past).any fun s =>
      (s.load source.toUTF8.toList).2.any fun program =>
        ((s.load source.toUTF8.toList).1.world.interpret? 100 program).any fun result =>
          result.1 == some ⟨.undefinedVariable "a", 8⟩ &&
            result.2.sink.lines.toList == ["nil", "false", "true"]) = true := by
    decide +kernel
  obtain ⟨s, hs, hends⟩ := (Option.any_eq_true _ _).mp hends
  obtain ⟨program, hprogram, hends⟩ := (Option.any_eq_true _ _).mp hends
  obtain ⟨⟨fault, w⟩, hrun, hends⟩ := (Option.any_eq_true _ _).mp hends
  obtain ⟨hfault, hlines⟩ := Bool.and_eq_true_iff.mp hends
  obtain rfl : fault = some ⟨.undefinedVariable "a", 8⟩ := eq_of_beq hfault
  let ρ : Renaming := ⟨"a", "b", (s.load source.toUTF8.toList).1.world.distances, by decide, by decide⟩
  let program' := Stmt.renameAll ρ (Region.hasVariable "a") [false] program
  have hload : s.load source.toUTF8.toList = ((s.load source.toUTF8.toList).1, some program) :=
    Prod.ext rfl hprogram
  have hnew : ∀ t ∈ (tokenize source.toUTF8.toList).1, t.lexeme ≠ "b" := by decide +kernel
  obtain ⟨hread, -, found, hsurvey, -⟩ := Session.load_some hload
  have hrenamed : Stmt.RenamedAll ρ [false] program program' :=
    program_renamed (fun t ht => ⟨Token.Scanned.spelled ⟨_, ht⟩, hnew t ht⟩) hread hsurvey
      fun _ hchosen => hchosen
  obtain ⟨⟨found', hfound, hfound', -⟩, hruns⟩ :=
    local_names_hygienic hs hload rfl hnew hrenamed
  obtain ⟨-, hresults⟩ := hruns 100
  rw [hrun] at hresults
  generalize hrun' : (s.load source.toUTF8.toList).1.world.interpret? 100 program' = ended at hresults
  cases hresults with
  | @some _ result hresult =>
    obtain ⟨fault', w'⟩ := result
    obtain ⟨hfaults, hsink⟩ := hresult
    cases hfaults with
    | @some _ f' hf =>
      exact ⟨s, _, program, program', ρ, hs, hload, rfl, rfl, rfl, hnew, hrenamed,
        hfound'.trans hfound.symm, _, f', w, w', hrun, rfl, eq_of_beq hlines, hrun', hf, hsink⟩

end LoxLang
