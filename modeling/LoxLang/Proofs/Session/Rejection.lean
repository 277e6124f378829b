import LoxLang.Proofs.Session.Comparison

/-!
Sources that are not taken. A source with a static error in it, or one that comes while a static error
is pending, changes nothing but the log and the identity of the next reference; once the log is reset
nothing that comes later shows that it was there (`rejected_source_forgotten`).
-/
namespace LoxLang
set_option autoImplicit false

/-- Identities up to a bound are taken for themselves, and those from the bound on for those from a
later one on. -/
def Comparison.renumbered (bound bound' : Nat) (hle : bound ≤ bound') : Comparison :=
  .same (fun i j => (i < bound ∧ j = i) ∨ (bound ≤ i ∧ j + bound = i + bound')) (by
    intro i j i' j' h h'
    omega)

namespace Session

/-- Only what is to come is numbered otherwise after identities have been passed over. -/
theorem Settled.alike_renumbered {s s' : Session} (hs : s.Settled) (hworld : s'.world = s.world)
    (hle : s.nextId ≤ s'.nextId) :
    s.reset.Alike (.renumbered s.nextId s'.nextId hle) s'.reset := by
  refine ⟨?_, rfl, fun n => ?_⟩
  · change s.world.Alike _ s'.world
    rw [hworld]
    have hmore : (Likeness.between 0 s.nextId).Le (Comparison.renumbered _ _ hle).likeness :=
      ⟨id, fun hij => .inl hij.2⟩
    refine hs.world.mono hmore ?_
    rintro r r' (⟨-, heq⟩ | ⟨hlow, hsum⟩)
    · rw [Distances.get?, Distances.get?, heq]
    · have hlow' : s.nextId ≤ r'.id := by omega
      rw [hs.fresh r hlow, hs.fresh r' hlow']
  · refine .inr ⟨Nat.le_add_right s.nextId n, ?_⟩
    change s'.nextId + n + s.nextId = s.nextId + n + s'.nextId
    omega

/-- A source with a static error, or after one that is pending, is not run: the world stays as it is,
nothing being printed. After a reset all requests show what they show without the source. -/
theorem rejected_source_forgotten {sink : Sink} {clock : Clock} {past : List Request} {s : Session}
    (hpast : (fresh sink clock).performAll? past = some s) {source : List UInt8}
    (hrejected : s.log.hadError = true ∨ staticDiagnostics source ≠ []) :
    ∃ s', (∀ fuel, s.run? fuel source = some s') ∧ s'.world = s.world ∧
      ∀ later, s'.reset.observe later = s.reset.observe later := by
  obtain ⟨s', hload, hworld, hle⟩ := load_of_faulty hrejected
  have hsettled := settled_of_performAll? hpast
  refine ⟨s', fun fuel => ?_, hworld, fun later => ?_⟩
  · rw [run?, hload]
  · exact (hsettled.alike_renumbered hworld hle).observe_eq rfl (fun _ => trivial) later

/-- After `var a = nil;` the source `{ var a = a; }` is refused by the survey of its names. -/
theorem rejected_source_forgotten_in_initializer :
    let past : List Request :=
      [.run 100 [118, 97, 114, 32, 97, 32, 61, 32, 110, 105, 108, 59]]
    let source : List UInt8 := [123, 32, 118, 97, 114, 32, 97, 32, 61, 32, 97, 59, 32, 125]
    ∃ s, (fresh (.ofRoom none) (.standing 0)).performAll? past = some s ∧
      s.log.hadError = false ∧ staticDiagnostics source ≠ [] ∧
      ∃ s', (∀ fuel, s.run? fuel source = some s') ∧ s'.world = s.world ∧
        ∀ later, s'.reset.observe later = s.reset.observe later := by
  intro past source
  have hreached : ((fresh (.ofRoom none) (.standing 0)).performAll? past).any
      (!·.log.hadError) = true := by
    decide +kernel
  have hfaulty : (staticDiagnostics source).isEmpty = false := by
    decide +kernel
  have hrejected : staticDiagnostics source ≠ [] := by
    intro hnil
    rw [hnil] at hfaulty
    cases hfaulty
  obtain ⟨s, hs, hclean⟩ := (Option.any_eq_true _ _).mp hreached
  rw [Bool.not_eq_true'] at hclean
  exact ⟨s, hs, hclean, hrejected, rejected_source_forgotten hs (.inr hrejected)⟩

end Session

end LoxLang
