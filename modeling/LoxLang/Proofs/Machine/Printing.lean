import LoxLang.Proofs.Machine.Graph

/-!
Printed lines. A step leaves the sink alone unless it hands a value to a `print` that waits for it, and
then it adds one line (`Move.sink`). So the lines that have been printed stay at the beginning of those
printed later (`lines_run`); and nothing is printed where no code holds a `print` (`sink_run_of_silent`),
in an expression on its own for one (`silent_expression`).
-/
namespace LoxLang
set_option autoImplicit false

theorem Sink.lines_print (sink : Sink) (line : String) :
    (sink.print line).lines.toList = sink.lines.toList ++ [line] :=
  Array.toList_push

namespace Machine

/-- Only a `print` that waits for the value prints, and that one line. -/
theorem Move.sink {m m' : Machine} (h : Move m m') :
    m'.world.sink = m.world.sink ∨ ∃ v keyword frames, m.control = .value v ∧
      m.frames = .print keyword :: frames ∧ m'.world.sink = m.world.sink.print v.text := by
  cases h with
  | @prints w keyword v frames => exact .inr ⟨v, keyword, frames, rfl, rfl, rfl⟩
  | unwinds w f frame frames => cases frame <;> exact .inl rfl
  | _ => exact .inl rfl

theorem Move.lines {m m' : Machine} (h : Move m m') :
    m.world.sink.lines.toList <+: m'.world.sink.lines.toList := by
  rcases h.sink with hsame | ⟨v, -, -, -, -, hprint⟩
  · exact hsame ▸ List.prefix_rfl
  · rw [hprint, Sink.lines_print]
    exact List.prefix_append _ _

/-- What has been printed before a run is still there after it, before everything else. -/
theorem lines_run (n : Nat) (m : Machine) :
    m.world.sink.lines.toList <+: (run n m).world.sink.lines.toList :=
  run_preserves (P := fun m' => m.world.sink.lines.toList <+: m'.world.sink.lines.toList)
    (fun _ hactive h => h.trans (move_step hactive).lines) List.prefix_rfl n

theorem Move.refusal {m m' : Machine} (h : Move m m') :
    m'.world.sink.refusal = m.world.sink.refusal := by
  rcases h.sink with hsame | ⟨v, -, -, -, -, hprint⟩
  · rw [hsame]
  · rw [hprint]
    rfl

/-- A sink goes on refusing lines with the same text. -/
theorem refusal_run (n : Nat) (m : Machine) :
    (run n m).world.sink.refusal = m.world.sink.refusal :=
  run_preserves (P := fun m' => m'.world.sink.refusal = m.world.sink.refusal)
    (fun _ hactive h => (move_step hactive).refusal.trans h) rfl n

/-! ## Machines that print nothing -/

/-- No code of a machine holds a `print`, and none waits for its value. -/
structure Silent (m : Machine) : Prop where
  fits : ∃ L : Layout, m.Fits L fun s => ∀ keyword value, s ≠ .print keyword value
  frames : ∀ frame ∈ m.frames, ∀ keyword, frame ≠ .print keyword

/-- Only a `print` that is executed comes to wait for its value. -/
theorem Move.frames_of_silent {m m' : Machine} (h : Move m m') (hm : m.Silent) :
    ∀ frame ∈ m'.frames, ∀ keyword, frame ≠ .print keyword := by
  obtain ⟨⟨L, hfits⟩, hnone⟩ := hm
  have hbelow : ∀ {frame : Frame} {frames : List Frame}, m.frames = frame :: frames →
      ∀ f ∈ frames, ∀ keyword, f ≠ .print keyword :=
    fun hframes => (List.forall_mem_cons.mp (hframes ▸ hnone)).2
  cases h with
  | defers h =>
    refine List.forall_mem_cons.mpr ⟨fun keyword => ?_, hnone⟩
    cases h with
    | print word value => exact absurd rfl (hfits.control _ (Stmt.mem_parts_self _) word value)
    | _ => exact Frame.noConfusion
  | passes h =>
    refine List.forall_mem_append.mpr ⟨?_, hbelow rfl⟩
    cases h with
    | binaryLeft | callee | argument | setObject | loopOn | loopAgain =>
      exact List.forall_mem_singleton.mpr fun _ => Frame.noConfusion
    | _ => exact List.forall_mem_nil _
  | becomes | faults | reads | declares | function | root | super => exact hnone
  | completes | voids => exact hnone
  | enters => exact List.forall_mem_cons.mpr ⟨fun _ => Frame.noConfusion, hnone⟩
  | calls => exact List.forall_mem_cons.mpr ⟨fun _ => Frame.noConfusion, hbelow rfl⟩
  | initializes =>
    refine List.forall_mem_cons.mpr ⟨fun _ => Frame.noConfusion, ?_⟩
    exact List.forall_mem_cons.mpr ⟨fun _ => Frame.noConfusion, hbelow rfl⟩
  | _ => exact hbelow rfl

theorem Silent.step {m : Machine} (h : m.Silent) (hactive : m.halted = false) : m.step.Silent := by
  obtain ⟨L, hfits⟩ := h.fits
  obtain ⟨L', -, hfits', -⟩ := move_fits (move_step hactive) rfl hfits
  exact ⟨⟨L', hfits'⟩, (move_step hactive).frames_of_silent h⟩

/-- A machine that holds no `print` leaves the sink alone. -/
theorem sink_run_of_silent {m : Machine} (h : m.Silent) (n : Nat) :
    (run n m).world.sink = m.world.sink := by
  have hboth : (run n m).Silent ∧ (run n m).world.sink = m.world.sink := by
    refine run_preserves (P := fun m' => m'.Silent ∧ m'.world.sink = m.world.sink)
      (fun m' hactive hm' => ⟨hm'.1.step hactive, ?_⟩) ⟨h, rfl⟩ n
    rcases (move_step hactive).sink with hsame | ⟨v, keyword, frames, -, hframes, -⟩
    · exact hsame.trans hm'.2
    · exact absurd rfl (hm'.1.frames (.print keyword) (hframes ▸ List.mem_cons_self) keyword)
  exact hboth.2

/-- An expression that is evaluated before any program has run. -/
theorem silent_expression (sink : Sink) (clock : Clock) (e : Expr) :
    Silent ⟨.fresh sink clock, .eval e, []⟩ := by
  obtain ⟨L, hfits, -⟩ := ((Reachable.fresh sink clock).expression .empty e rfl).fits
  exact ⟨⟨L, hfits⟩, List.forall_mem_nil _⟩

end Machine

end LoxLang
