import LoxLang.Proofs.Grammar.Completeness
import LoxLang.Proofs.Grammar.Soundness
import LoxLang.Proofs.Machine.Moves
import LoxLang.Proofs.Machine.Returns
import LoxLang.Proofs.Machine.Sequencing
import LoxLang.Proofs.Session.Comparison

/-!
Two sources run one after the other, and their tokens run as one source. The program of the one source
is the two programs one after the other, its distances are those of both (`Successive.load_joined`), and
it comes to the second program in the world in which the first one leaves it (`Successive.run_joined`);
so nothing that shows later tells which way they were run (`observe_joined`).
-/
namespace LoxLang
set_option autoImplicit false

open Lexing

/-! ## Programs one after the other -/

/-- Tokens that hold one program after another hold both as one. -/
theorem programItems_append {first second joined : List Token} {lo : Nat} {p q : List Stmt}
    (hjoined : joined.takeWhile (!·.isEnd) =
      first.takeWhile (!·.isEnd) ++ second.takeWhile (!·.isEnd))
    (hp : programOfItems (programItems first lo).1 = .ok p)
    (hq : programOfItems (programItems second (programItems first lo).2).1 = .ok q) :
    programOfItems (programItems joined lo).1 = .ok (p ++ q) ∧
      (programItems joined lo).2 = (programItems second (programItems first lo).2).2 := by
  have htext := (program_text hp).append (program_text hq)
  rw [← hjoined] at htext
  rw [programItems_of_text htext]
  exact ⟨programOfItems_ok _, rfl⟩

theorem visitStmts_append (context : BindingContext) (p q : List Stmt) (s : Survey) :
    Survey.visitStmts context (p ++ q) s =
      Survey.visitStmts context q (Survey.visitStmts context p s) := by
  induction p generalizing s with
  | nil => rfl
  | cons stmt rest ih => exact ih (Survey.visitStmt context stmt s)

/-- At the end of a program that was surveyed no scope is open, and the distances are those found. -/
theorem survey_end {admits : Token → Prop} {p : List Stmt} {e : List DistanceEntry}
    (hwell : Stmt.AllWellFormed admits p) (h : survey p = .ok e) :
    Survey.visitStmts ⟨false, .outside⟩ p .start = ⟨[], [], e⟩ := by
  unfold survey at h
  dsimp only at h
  split at h
  · rename_i hclean
    have hnone := List.isEmpty_iff.mp hclean
    have hstart : Survey.At admits ⟨false, .outside⟩ none [] .start :=
      ⟨trivial, fun _ hx => absurd hx (Option.not_mem_none _), .globals, rfl⟩
    have hpass := Survey.visitStmts_passes p hstart hwell hnone
    have htracks := hpass.tracks
    rw [Stmt.afterAll_globals] at htracks
    cases h
    generalize Survey.visitStmts ⟨false, .outside⟩ p .start = last at hnone htracks
    obtain ⟨scopes, faults, distances⟩ := last
    obtain rfl : faults = [] := hnone
    cases scopes with
    | nil => rfl
    | cons scope scopes => exact htracks.elim
  · cases h

theorem survey_append {admits : Token → Prop} {p q : List Stmt} {e f : List DistanceEntry}
    (hwell : Stmt.AllWellFormed admits p) (hself : List.Forall₂ (Stmt.Alike .identity) q q)
    (hp : survey p = .ok e) (hq : survey q = .ok f) : survey (p ++ q) = .ok (e ++ f) := by
  -- The second program is surveyed after the distances of the first as it is on its own.
  have hstart : Survey.Alike .identity e .start ⟨[], [], e⟩ :=
    ⟨rfl, .nil, [], (List.append_nil e).symm, .nil⟩
  have hlast := Survey.visitStmts_alike ⟨false, .outside⟩ hself hstart
  have hfaults : (Survey.visitStmts ⟨false, .outside⟩ q .start).faults = [] ∧
      (Survey.visitStmts ⟨false, .outside⟩ q .start).distances = f := by
    unfold survey at hq
    dsimp only at hq
    split at hq
    · rename_i hclean
      cases hq
      exact ⟨List.isEmpty_iff.mp hclean, rfl⟩
    · cases hq
  obtain ⟨found, hfound, hentries⟩ := hlast.distances
  rw [hfaults.2] at hentries
  have hsame : found = f := eq_of_forall₂ hentries fun entry entry' h => by
    obtain ⟨id, distance⟩ := entry
    obtain ⟨id', distance'⟩ := entry'
    obtain rfl : id = id' := h.number
    obtain rfl : distance' = distance := h.distance
    rfl
  have hnone := hlast.faults
  rw [hfaults.1] at hnone
  unfold survey
  rw [visitStmts_append, survey_end hwell hp]
  dsimp only
  rw [List.forall₂_nil_left_iff.mp hnone, hfound, hsame]
  rfl

/-! ## Runs one after the other -/

/-- A program that ends without a fault ends its machine. -/
theorem World.done_of_interpret? {fuel : Nat} {w w' : World} {program : List Stmt}
    (h : w.interpret? fuel program = some (none, w')) :
    ∃ completion, (w.program program).run fuel = ⟨w', .done completion, []⟩ := by
  unfold World.interpret? at h
  generalize Machine.run fuel (w.program program) = m at h ⊢
  obtain ⟨world, c, frames⟩ := m
  cases c <;> cases frames <;> simp_all [Machine.outcome?]

theorem Machine.Alike.of_done_normal {L : Likeness} {w : World} {m : Machine}
    (h : Machine.Alike L ⟨w, .done .normal, []⟩ m) :
    ∃ w', m = ⟨w', .done .normal, []⟩ ∧ w.Alike L w' := by
  obtain ⟨w', c, frames⟩ := m
  obtain ⟨hw, hc, hf⟩ := h
  cases hf
  cases hc with
  | done hcompletion =>
    cases hcompletion
    exact ⟨w', rfl, hw⟩

theorem Log.eq_nil_of_reportAll {log : Log} {ds : List Diagnostic} (h : log.reportAll ds = log) :
    ds = [] :=
  List.append_right_eq_self.mp (congrArg Log.entries h)

theorem World.record_append (w : World) (found more : List DistanceEntry) :
    w.record (found ++ more) = (w.record found).record more :=
  congrArg (fun distances => { w with distances }) List.foldl_append

/-- Later distances of a program do not show in the identities before it. -/
theorem Distances.record_alike {lo mid hi : Nat} {q : List Stmt} {f : List DistanceEntry}
    (hq : List.Forall₂ (Stmt.Alike (.between mid hi)) q q) (hf : survey q = .ok f) (d : Distances) :
    d.Alike (.between lo mid) (d.record f) := by
  have hsurvey := survey_alike hq
  rw [hf] at hsurvey
  have hlow : ∀ entry ∈ f, mid ≤ entry.id := by
    cases hsurvey with
    | ok hentries => exact fun entry hentry => (List.forall₂_same.mp hentries entry hentry).number.1
  rintro r r' ⟨-, hlt, heq⟩
  rw [Distances.get?_record_of_not_mem, Distances.get?, Distances.get?, heq]
  intro entry hentry hid
  have hle := hlow entry hentry
  omega

namespace Session

/-- The programs of two sources of which the second is read after the first, and their distances. -/
structure Successive (s : Session) (first second : List UInt8) (p q : List Stmt)
    (e f : List DistanceEntry) : Prop where
  lexemes : (tokenize first).2 = []
  program : programOfItems (programItems (tokenize first).1 s.nextId).1 = .ok p
  names : survey p = .ok e
  nextLexemes : (tokenize second).2 = []
  nextProgram : programOfItems (programItems (tokenize second).1
    (programItems (tokenize first).1 s.nextId).2).1 = .ok q
  nextNames : survey q = .ok f

section Joined
variable {s t : Session} {first second joined : List UInt8} {p q : List Stmt}
  {e f : List DistanceEntry} {fuel : Nat}

theorem successive (s : Session) (hfirst : staticDiagnostics first = [])
    (hsecond : staticDiagnostics second = []) : ∃ p q e f, s.Successive first second p q e f := by
  obtain ⟨hlexical, p, e, hp, he⟩ := (staticDiagnostics_eq_nil_iff s.nextId first).mp hfirst
  obtain ⟨hlexical', q, f, hq, hf⟩ := (staticDiagnostics_eq_nil_iff
    (programItems (tokenize first).1 s.nextId).2 second).mp hsecond
  exact ⟨p, q, e, f, hlexical, hp, he, hlexical', hq, hf⟩

namespace Successive

theorem load (h : s.Successive first second p q e f) (hlog : s.log.hadError = false) :
    s.load first =
      (⟨s.world.record e, s.log, (programItems (tokenize first).1 s.nextId).2⟩, some p) :=
  load_of_clean hlog h.lexemes h.program h.names

/-- A source that holds the tokens of the first and then those of the second is taken for the program
of the one and then that of the other. -/
theorem load_joined (h : s.Successive first second p q e f) (hlog : s.log.hadError = false)
    (hjoined : tokenize joined = (words first ++ (tokenize second).1, [])) :
    s.load joined = (⟨(s.world.record e).record f, s.log, (programItems (tokenize second).1
      (programItems (tokenize first).1 s.nextId).2).2⟩, some (p ++ q)) := by
  have hwords : (tokenize joined).1.takeWhile (!·.isEnd) =
      (tokenize first).1.takeWhile (!·.isEnd) ++ (tokenize second).1.takeWhile (!·.isEnd) := by
    have hfirst : ∀ t ∈ words first, (!t.isEnd) = true := fun t ht => by
      rw [isEnd_of_mem_words ht]
      rfl
    rw [hjoined, takeWhile_tokenize, List.takeWhile_append_of_pos hfirst]
  obtain ⟨hread, hnext⟩ := programItems_append hwords h.program h.nextProgram
  have hadmits : ∀ t ∈ (tokenize first).1, (fun _ => True) t := fun _ _ => trivial
  obtain ⟨hwell, -⟩ := program_good hadmits h.program
  have hself := Stmt.Alike.monoAll (Likeness.between_le_identity _ _)
    (program_alike_self h.nextProgram)
  have hsurvey := survey_append hwell hself h.names h.nextNames
  rw [load_of_clean hlog (congrArg Prod.snd hjoined) hread hsurvey, hnext, World.record_append]

/-- The first program comes to its end if nothing is reported of it. -/
theorem run_first (h : s.Successive first second p q e f) (hlog : s.log.hadError = false)
    (hrun : s.run? fuel first = some t) (hclean : t.log = s.log) :
    Machine.run fuel ((s.world.record e).program p) = ⟨t.world, .done .normal, []⟩ ∧
      t.nextId = (programItems (tokenize first).1 s.nextId).2 := by
  unfold run? at hrun
  rw [h.load hlog] at hrun
  obtain ⟨⟨fault, world⟩, hinterpret, rfl⟩ := Option.map_eq_some_iff.mp hrun
  have hnone := Log.eq_nil_of_reportAll hclean
  cases fault with
  | some f => cases hnone
  | none =>
    obtain ⟨completion, hend⟩ := World.done_of_interpret? hinterpret
    obtain rfl := Machine.normal_of_done h.names hend
    exact ⟨hend, rfl⟩

/-- The two programs as one come to the second program after some steps, in the world in which it
starts after the first. -/
theorem run_joined (h : s.Successive first second p q e f) (hs : s.Settled)
    (hlog : s.log.hadError = false) (hrun : s.run? fuel first = some t) (hclean : t.log = s.log) :
    ∃ k, Machine.Alike .identity ((t.world.record f).program q)
      (Machine.run k (((s.world.record e).record f).program (p ++ q))) := by
  obtain ⟨hend, -⟩ := h.run_first hlog hrun hclean
  -- The first program comes to its end in the same way when the distances of the second are known.
  have hself := world_alike_load hs.world (h.load hlog)
  have hworld : (s.world.record e).Alike (.between 0 (programItems (tokenize first).1 s.nextId).2)
      ((s.world.record e).record f) :=
    ⟨hself.store, rfl, rfl, Distances.record_alike (program_alike_self h.nextProgram) h.nextNames _,
      rfl, rfl⟩
  have hbelow := Likeness.between_le (Nat.zero_le s.nextId)
    (Nat.le_refl (programItems (tokenize first).1 s.nextId).2)
  have hboth := Machine.run_alike fuel
    (hworld.program (Stmt.Alike.monoAll hbelow (program_alike_self h.program)))
  rw [hend] at hboth
  obtain ⟨last, hlast, hlike⟩ := hboth.of_done_normal
  obtain ⟨k, hk⟩ := Machine.run_append hlast
  refine ⟨k, ?_⟩
  -- No step changes the distances.
  have hdistances : last.distances = t.world.distances.record f := by
    have hbefore := Machine.distances_run fuel ((s.world.record e).program p)
    have hjoint := Machine.distances_run k (((s.world.record e).record f).program (p ++ q))
    rw [hend] at hbefore
    rw [World.program, hk] at hjoint
    rw [hjoint, hbefore]
    rfl
  rw [World.program, World.program, hk]
  refine ⟨⟨hlike.store.mono (Likeness.between_le_identity _ _), hlike.chain, hlike.depth, ?_,
    hlike.sink, hlike.clock⟩, .execAll ?_, .nil⟩
  · change Distances.Alike _ (t.world.distances.record f) last.distances
    rw [hdistances]
    exact Distances.alike_self (fun _ _ hij => Eq.symm hij) _
  · exact Stmt.Alike.monoAll (Likeness.between_le_identity _ _) (program_alike_self h.nextProgram)

end Successive

/-- Run as one, two sources show what the second shows after the first, and all that comes later does,
if the first came to its end without anything to report. -/
theorem observe_joined (hs : s.Settled) (hlog : s.log.hadError = false)
    (hfirst : staticDiagnostics first = []) (hsecond : staticDiagnostics second = [])
    (hjoined : tokenize joined = (words first ++ (tokenize second).1, []))
    (hrun : s.run? fuel first = some t) (hclean : t.log = s.log) :
    ∃ k, ∀ n later,
      s.observe (.run (k + n) joined :: later) = t.observe (.run n second :: later) := by
  obtain ⟨p, q, e, f, h⟩ := s.successive hfirst hsecond
  obtain ⟨-, hnext⟩ := h.run_first hlog hrun hclean
  obtain ⟨k, hk⟩ := h.run_joined hs hlog hrun hclean
  have hload : t.load second = (⟨t.world.record f, s.log, (programItems (tokenize second).1
      (programItems (tokenize first).1 s.nextId).2).2⟩, some q) := by
    have hlog' : t.log.hadError = false := by rw [hclean, hlog]
    have hprogram := h.nextProgram
    rw [← hnext] at hprogram
    rw [load_of_clean hlog' h.nextLexemes hprogram h.nextNames, hclean, hnext]
  have hloaded := h.load_joined hlog hjoined
  refine ⟨k, fun n later => ?_⟩
  have hboth := Machine.run_alike n hk
  rw [← Machine.run_add] at hboth
  have hsame : s.log = s.log.mapFaults Comparison.equal.move := (Log.mapFaults_id s.log).symm
  have hlater : ∀ t t' : Session, t.Alike .equal t' →
      t'.observe later = (t.observe later).map (View.mapFaults Comparison.equal.move) :=
    fun _ _ ht => ht.observe fun _ _ _ _ => trivial
  have hmapped := Session.Alike.observe_run
    (Session.Alike.run?_taken hload hloaded hsame (fun _ => rfl) hboth)
    (Session.Alike.partway_taken hload hloaded hsame hboth) hlater
  rw [show Comparison.equal.move = id from rfl, funext View.mapFaults_id, List.map_id'] at hmapped
  exact hmapped

end Joined

end Session

end LoxLang
