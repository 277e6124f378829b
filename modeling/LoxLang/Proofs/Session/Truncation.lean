import LoxLang.Proofs.Machine.Capacity
import LoxLang.Proofs.Session.Requests

/-!
A sink that refuses lines only cuts the output short. A source is run in a session whose sink takes
everything, and in the same session with a sink that takes so many lines more and refuses the next
(`Session.within`). If the lines fit, the runs are the same at every step; otherwise the second ends
with a fault at the keyword of the print whose line was refused, having printed what the first had
printed by then (`refused_line_truncates`).
-/
namespace LoxLang
set_option autoImplicit false

/-! ## Worlds -/

theorem Machine.outcome?_within (capacity : Nat) (m : Machine) :
    (m.within capacity).outcome? = m.outcome? := by
  obtain ⟨w, c, frames⟩ := m
  cases c <;> cases frames <;> rfl

/-- A program comes to the same with a limited sink if its machine does. -/
theorem World.interpret?_within {capacity fuel : Nat} {w : World} {program : List Stmt}
    (h : Machine.run fuel ((w.program program).within capacity) =
      (Machine.run fuel (w.program program)).within capacity) :
    (w.within capacity).interpret? fuel program =
      (w.interpret? fuel program).map (Prod.map id (within capacity)) := by
  have hprogram : (w.within capacity).program program = (w.program program).within capacity := rfl
  unfold interpret?
  dsimp only
  rw [hprogram, h, Machine.outcome?_within]
  cases (Machine.run fuel (w.program program)).outcome? with
  | none => rfl
  | some outcome => cases outcome <;> rfl

theorem World.interpret?_of_fault {fuel : Nat} {w w' : World} {program : List Stmt} {f : RuntimeFault}
    (h : Machine.run fuel (w.program program) = ⟨w', .fault f, []⟩) :
    w.interpret? fuel program = some (some f, w') := by
  unfold interpret?
  rw [h]
  rfl

namespace Session

/-- The session with a sink that takes lines up to a number in all. -/
def within (capacity : Nat) (s : Session) : Session :=
  { s with world := s.world.within capacity }

theorem room_within (s : Session) (more : Nat) :
    (s.within (s.world.sink.lines.size + more)).world.sink.room = some more :=
  congrArg some (Nat.add_sub_cancel_left _ _)

/-! ## Loading -/

theorem loadTokens_within (capacity : Nat) (s : Session) (tokens : List Token) :
    (s.within capacity).loadTokens tokens =
      ((s.loadTokens tokens).1.within capacity, (s.loadTokens tokens).2) := by
  obtain ⟨world, log, nextId⟩ := s
  simp only [loadTokens, within]
  cases programOfItems (programItems tokens nextId).1 with
  | error faults => rfl
  | ok program =>
    dsimp only
    by_cases hpending : log.hadError = true
    · simp only [hpending, if_true]
    · simp only [hpending, Bool.false_eq_true, if_false]
      cases survey program <;> rfl

theorem load_within (capacity : Nat) (s : Session) (source : List UInt8) :
    (s.within capacity).load source = ((s.load source).1.within capacity, (s.load source).2) :=
  loadTokens_within capacity (s.reportAll ((tokenize source).2.map .ofLexical)) (tokenize source).1

variable {s loaded : Session} {source : List UInt8} {program : List Stmt}

/-- A source that is taken leaves the log and the sink as they were. -/
theorem log_of_load (h : s.load source = (loaded, some program)) :
    loaded.log = s.log ∧ loaded.world.sink = s.world.sink := by
  obtain ⟨hlog, hclean⟩ := clean_of_load h
  obtain ⟨hread, -, entries, hsurvey, -⟩ := load_some h
  obtain ⟨hlexical, -⟩ := (staticDiagnostics_eq_nil_iff s.nextId source).mp hclean
  cases h.symm.trans (load_of_clean hlog hlexical hread hsurvey)
  exact ⟨rfl, rfl⟩

/-! ## Runs -/

theorem run?_of_load (h : s.load source = (loaded, some program)) (fuel : Nat) :
    s.run? fuel source = (loaded.world.interpret? fuel program).map fun result =>
      concluded loaded.log loaded.nextId result.1 result.2 := by
  unfold run?
  rw [h]

theorem partway_of_load (h : s.load source = (loaded, some program)) (fuel : Nat) :
    s.partway fuel source =
      .of (Machine.run fuel (loaded.world.program program)).world.sink loaded.log false := by
  unfold partway
  rw [h]

/-- A run whose machine takes the same steps with a limited sink comes to the same, but for the room
that is left. -/
theorem run?_within {capacity fuel : Nat} (h : s.load source = (loaded, some program))
    (hrun : Machine.run fuel ((loaded.world.program program).within capacity) =
      (Machine.run fuel (loaded.world.program program)).within capacity) :
    (s.within capacity).run? fuel source = (s.run? fuel source).map (within capacity) ∧
      (s.within capacity).partway fuel source = s.partway fuel source := by
  have hload : (s.within capacity).load source = (loaded.within capacity, some program) := by
    rw [load_within, h]
  constructor
  · rw [run?_of_load hload, run?_of_load h, Option.map_map]
    change ((loaded.world.within capacity).interpret? fuel program).map _ = _
    rw [World.interpret?_within hrun, Option.map_map]
    rfl
  · rw [partway_of_load hload, partway_of_load h]
    change View.of (Machine.run fuel ((loaded.world.program program).within capacity)).world.sink _ _ =
      _
    rw [hrun]
    rfl

/-- What a machine that comes to a print beyond the capacity does in a limited sink: the line is
refused, and the fault ends the run. -/
theorem run?_refused {capacity n : Nat} {w : World} {v : Value} {keyword : Token}
    {frames : List Frame} (h : s.load source = (loaded, some program))
    (hrun : Machine.run n ((loaded.world.program program).within capacity) =
      ⟨w.within capacity, .value v, .print keyword :: frames⟩)
    (hfull : capacity ≤ w.sink.lines.size) :
    ∃ last, (∀ more, (s.within capacity).run? (n + 1 + frames.length + more) source = some last) ∧
      last.log = loaded.log.report (.runtime ⟨.outputFailed w.sink.refusal, keyword.line⟩) ∧
      last.world.sink.lines = w.sink.lines := by
  let fault : RuntimeFault := ⟨.outputFailed w.sink.refusal, keyword.line⟩
  have hload : (s.within capacity).load source = (loaded.within capacity, some program) := by
    rw [load_within, h]
  have hrefused : Machine.run (n + 1) ((loaded.world.program program).within capacity) =
      ⟨w.within capacity, .fault fault, frames⟩ := by
    rw [Machine.run_succ_last, hrun]
    have hrefuses : (w.within capacity).sink.isFull = true :=
      (Sink.isFull_within capacity w.sink).mpr hfull
    change (if (w.within capacity).sink.isFull then _ else _) = _
    rw [if_pos hrefuses]
    rfl
  obtain ⟨w', hend⟩ := Machine.run_fault (w.within capacity) fault frames
  have hsink := Machine.sink_run_fault (w.within capacity) fault frames frames.length
  rw [hend] at hsink
  have hlines : w'.sink.lines = (w.within capacity).sink.lines := congrArg Sink.lines hsink
  refine ⟨concluded loaded.log loaded.nextId (some fault) w', fun more => ?_, rfl, hlines⟩
  have hlast : Machine.run (n + 1 + frames.length + more)
      ((loaded.world.program program).within capacity) = ⟨w', .fault fault, []⟩ := by
    rw [Machine.run_add, Machine.run_add, hrefused, hend, Machine.run_of_halted rfl]
  have hends : (loaded.within capacity).world.interpret? (n + 1 + frames.length + more) program =
      some (some fault, w') := World.interpret?_of_fault hlast
  rw [run?_of_load hload, hends]
  rfl

/-- What a run has printed when it has come to hold `capacity` lines is what is cut off there later. -/
theorem lines_eq_take {m : Machine} {capacity n fuel : Nat}
    (hsize : (Machine.run n m).world.sink.lines.size = capacity)
    (hfuel : capacity ≤ (Machine.run fuel m).world.sink.lines.size) :
    (Machine.run n m).world.sink.lines.toList =
      (Machine.run fuel m).world.sink.lines.toList.take capacity := by
  have hlength : (Machine.run n m).world.sink.lines.toList.length = capacity := hsize
  rcases Nat.le_total n fuel with hle | hle
  · obtain ⟨more, rfl⟩ := Nat.exists_eq_add_of_le hle
    have hprefix := Machine.lines_run more (Machine.run n m)
    rw [← Machine.run_add] at hprefix
    rw [← hlength]
    exact List.prefix_iff_eq_take.mp hprefix
  · obtain ⟨more, rfl⟩ := Nat.exists_eq_add_of_le hle
    have hprefix := Machine.lines_run more (Machine.run fuel m)
    rw [← Machine.run_add] at hprefix
    have hsame := hprefix.eq_of_length_le (hlength ▸ hfuel)
    rw [hsame, ← hlength, List.take_length]

/-- A source is run in a session whose sink takes every line, and in the same session with a sink that
takes `more` lines and refuses the next. If no more than these are printed, however long the source runs,
both runs show the same at every step and end in the same state. If more are, there is a print that comes
when just as many lines have been printed; then the second run ends with the refusal as its only
diagnostic, at the line of that print, and has printed the lines that the first had printed before it. -/
theorem refused_line_truncates (hroom : s.world.sink.room = none)
    (hload : s.load source = (loaded, some program)) (more : Nat) :
    let capacity := s.world.sink.lines.size + more
    let limited := s.within capacity
    let unlimited := fun n => Machine.run n (loaded.world.program program)
    limited.world.sink.room = some more ∧
    ((∀ n, (unlimited n).world.sink.lines.size ≤ capacity) → ∀ fuel,
      limited.run? fuel source = (s.run? fuel source).map (within capacity) ∧
        limited.partway fuel source = s.partway fuel source) ∧
    ((∃ n, capacity < (unlimited n).world.sink.lines.size) →
      ∃ n w v keyword frames, unlimited n = ⟨w, .value v, .print keyword :: frames⟩ ∧
        w.sink.lines.size = capacity ∧
        (unlimited (n + 1)).world.sink.lines = w.sink.lines.push v.text ∧
        ∃ last enough, (∀ fuel ≥ enough, limited.run? fuel source = some last) ∧
          last.log = s.log.report (.runtime ⟨.outputFailed s.world.sink.refusal, keyword.line⟩) ∧
          ∀ fuel, capacity ≤ (unlimited fuel).world.sink.lines.size →
            last.world.sink.lines.toList = (unlimited fuel).world.sink.lines.toList.take capacity) := by
  intro capacity limited unlimited
  obtain ⟨hlog, hsink⟩ := log_of_load hload
  have hfree : (loaded.world.program program).world.sink.room = none := by
    change loaded.world.sink.room = none
    rw [hsink, hroom]
  have hstart : (loaded.world.program program).world.sink.lines.size ≤ capacity := by
    change loaded.world.sink.lines.size ≤ capacity
    rw [hsink]
    exact Nat.le_add_right _ _
  refine ⟨room_within s more, fun hsize fuel => ?_, fun hsize => ?_⟩
  · exact run?_within hload (Machine.run_within_of_size hfree hsize fuel)
  · obtain ⟨n, w, v, keyword, frames, hrun, hfull, hbefore⟩ :=
      Machine.exists_refusal hfree hstart hsize
    have hlimited := Machine.run_within hfree n hbefore
    rw [hrun] at hlimited
    obtain ⟨last, hlast, hreport, hlines⟩ := run?_refused hload hlimited (Nat.le_of_eq hfull.symm)
    have hrefusal : w.sink.refusal = s.world.sink.refusal := by
      have hkept := Machine.refusal_run n (loaded.world.program program)
      rw [hrun] at hkept
      exact hkept.trans (congrArg Sink.refusal hsink)
    rw [hrefusal, hlog] at hreport
    have hopen : w.sink.isFull = false := by
      have hroomAt := Machine.room_run hfree n
      rw [hrun] at hroomAt
      exact Sink.isFull_of_room hroomAt
    refine ⟨n, w, v, keyword, frames, hrun, hfull, ?_, last, n + 1 + frames.length,
      fun fuel hfuel => ?_, hreport, fun fuel hfuel => ?_⟩
    · change (Machine.run (n + 1) _).world.sink.lines = _
      rw [Machine.run_succ_last, hrun]
      change (if w.sink.isFull then _ else _ : Machine).world.sink.lines = _
      rw [hopen]
      rfl
    · obtain ⟨rest, rfl⟩ := Nat.exists_eq_add_of_le hfuel
      exact hlast rest
    · have hsizeAt : (Machine.run n (loaded.world.program program)).world.sink.lines.size = capacity := by
        rw [hrun]
        exact hfull
      rw [hlines, ← lines_eq_take hsizeAt hfuel, hrun]

/-- A function that prints for ever, called in the value of another print; the sink takes two lines. -/
theorem refused_line_truncates_in_call :
    let source := "fun f() \x7b while (true) print nil; \x7d\nprint f();".toUTF8.toList
    let s := fresh (.ofRoom none) (.standing 0)
    s.world.sink.room = none ∧ ∃ loaded program, s.load source = (loaded, some program) ∧
      ∃ n w v keyword frames,
        Machine.run n (loaded.world.program program) = ⟨w, .value v, .print keyword :: frames⟩ ∧
        w.sink.lines.size = 2 ∧
        ∃ last enough, (∀ fuel ≥ enough, (s.within 2).run? fuel source = some last) ∧
          last.log.entries = [.runtime ⟨.outputFailed s.world.sink.refusal, keyword.line⟩] ∧
          last.world.sink.lines.toList = ["nil", "nil"] := by
  intro source s
  let m := (s.load source).1.world.program ((s.load source).2.getD [])
  have htaken : (s.load source).2.isSome = true := by decide +kernel
  have hload : s.load source = ((s.load source).1, some ((s.load source).2.getD [])) := by
    refine Prod.ext rfl ((Option.getD_eq_iff.mp rfl).resolve_right fun hnone => ?_)
    rw [hnone.1] at htaken
    cases htaken
  have hsize : (Machine.run 30 m).world.sink.lines.toList = ["nil", "nil", "nil"] := by
    decide +kernel
  have hmore : 2 < (Machine.run 30 m).world.sink.lines.size :=
    (congrArg (2 < List.length ·) hsize).mpr (by decide)
  obtain ⟨-, -, hrefused⟩ := refused_line_truncates rfl hload 2
  obtain ⟨n, w, v, keyword, frames, hrun, hfull, -, last, enough, hlast, hlog, hlines⟩ :=
    hrefused ⟨30, hmore⟩
  refine ⟨rfl, _, _, hload, n, w, v, keyword, frames, hrun, hfull, last, enough, hlast,
    congrArg Log.entries hlog, ?_⟩
  rw [hlines 30 (Nat.le_of_lt hmore)]
  exact congrArg (List.take 2) hsize

end Session

end LoxLang
