import LoxLang.Proofs.Session.Succession

/-!
Two sources run one after the other, and the same sources run as one with a line feed between them.
The second source stands on later lines then, and so do the runtime faults that are raised in it, also
those that its functions raise when later sources call them; nothing else tells one way of running them
from the other (`run_concatenated`).
-/
namespace LoxLang
set_option autoImplicit false

open Lexing

/-! ## Faults that move with a source -/

/-- Something reported while a source may stand lower or higher. -/
inductive Notice where
  | fixed (d : Diagnostic)
  /-- A runtime fault in the source, its line being that in the source itself. -/
  | moving (fault : RuntimeFault)

/-- What is reported where the source stands below some lines. -/
def Notice.below (lines : Nat) : Notice → Diagnostic
  | .fixed d => d
  | .moving f => .runtime { f with line := f.line + lines }

/-- What a session shows while a source may stand lower or higher. -/
structure Account where
  lines : List String
  notices : List Notice
  exitStatus : Option Nat
  finished : Bool

/-- The view where the source stands below some lines. -/
def Account.below (lines : Nat) (a : Account) : View :=
  ⟨a.lines, a.notices.map (Notice.below lines), a.exitStatus, a.finished⟩

/-- A fault on a line from `bound` on, moved to where the source stands below `lines` lines. -/
def RuntimeFault.moved (bound lines : Nat) (f : RuntimeFault) : RuntimeFault :=
  if f.line < bound then f else { f with line := f.line - bound + lines }

/-- What a diagnostic tells where the source stands below `bound` lines and nothing else does. -/
def Diagnostic.notice (bound : Nat) : Diagnostic → Notice
  | .runtime f =>
    if f.line < bound then .fixed (.runtime f) else .moving { f with line := f.line - bound }
  | d => .fixed d

/-- What a view tells where the source stands below `bound` lines and nothing else does. -/
def View.account (bound : Nat) (v : View) : Account :=
  ⟨v.lines, v.diagnostics.map (Diagnostic.notice bound), v.exitStatus, v.finished⟩

theorem Diagnostic.below_notice (bound lines : Nat) (d : Diagnostic) :
    (d.notice bound).below lines = d.mapFault (RuntimeFault.moved bound lines) := by
  cases d with
  | runtime f =>
    rw [Diagnostic.notice, Diagnostic.mapFault, RuntimeFault.moved]
    split <;> rfl
  | _ => rfl

theorem View.below_account (bound lines : Nat) (v : View) :
    (v.account bound).below lines = v.mapFaults (RuntimeFault.moved bound lines) := by
  rw [View.account, Account.below, View.mapFaults, List.map_map]
  exact congrArg (View.mk v.lines · v.exitStatus v.finished)
    (List.map_congr_left fun d _ => d.below_notice bound lines)

/-! ## A source that is moved -/

/-- Tokens on lines before `bound` are taken for themselves, and a token below that many lines for the
same token below `lines` lines. -/
def Likeness.moved (bound lines : Nat) : Likeness where
  token t u := (t.line < bound ∧ u = t) ∨ ∃ b : Token, t = b.later bound ∧ u = b.later lines
  number := Eq
  kind := by
    rintro t u (⟨-, rfl⟩ | ⟨b, rfl, rfl⟩) <;> rfl
  lexeme := by
    rintro t u (⟨-, rfl⟩ | ⟨b, rfl, rfl⟩) <;> rfl
  unique := @unique_of_eq

/-- A source stands lower in one session than in the other, and all others come before `bound`. -/
def Comparison.moved (bound lines : Nat) : Comparison where
  likeness := .moved bound lines
  admits t := t.line < bound
  move := RuntimeFault.moved bound lines
  self h := .inl ⟨h, rfl⟩
  fault := by
    rintro f f' ⟨cause, ⟨hlt, rfl⟩ | ⟨b, rfl, rfl⟩⟩
    · exact (if_pos hlt).symm
    · have hlow : ¬ b.line + bound < bound := Nat.not_lt.mpr (Nat.le_add_left _ _)
      change _ = RuntimeFault.moved bound lines ⟨cause, b.line + bound⟩
      rw [RuntimeFault.moved, if_neg hlow, Nat.add_sub_cancel]
      rfl

/-- A source is read alike below any number of lines. -/
theorem programItems_moved (bound lines nextId : Nat) (source : List UInt8) :
    List.Forall₂ (ProgramItem.Alike (.moved bound lines))
        (programItems (tokenize (blankLines bound ++ source)).1 nextId).1
        (programItems (tokenize (blankLines lines ++ source)).1 nextId).1 ∧
      (programItems (tokenize (blankLines bound ++ source)).1 nextId).2 =
        (programItems (tokenize (blankLines lines ++ source)).1 nextId).2 := by
  have htokens : List.Forall₂ (Likeness.moved bound lines).token
      (tokenize (blankLines bound ++ source)).1 (tokenize (blankLines lines ++ source)).1 := by
    rw [tokenize_blankLines, tokenize_blankLines, List.forall₂_map_left_iff,
      List.forall₂_map_right_iff]
    exact List.forall₂_same.mpr fun t _ => .inr ⟨t, rfl, rfl⟩
  have hstop : (Likeness.moved bound lines).token
      (.endOn (Cursor.start (tokenize (blankLines bound ++ source)).1 nextId).endLine)
      (.endOn (Cursor.start (tokenize (blankLines lines ++ source)).1 nextId).endLine) := by
    rw [endLine_tokenize, endLine_tokenize, lineFeeds_blankLines_append,
      lineFeeds_blankLines_append]
    refine .inr ⟨.endOn (1 + lineFeeds source), ?_, ?_⟩
    · rw [Token.endOn, Token.later, Token.endOn, Nat.add_assoc]
    · rw [Token.endOn, Token.later, Token.endOn, Nat.add_assoc]
  obtain ⟨hitems, hnext⟩ := programItems_alike htokens hstop fun _ => rfl
  exact ⟨hitems, hnext 0⟩

/-- So a source that is a program is one below any number of lines. -/
theorem programOfItems_moved (bound lines nextId : Nat) {source : List UInt8} {program : List Stmt}
    (h : programOfItems (programItems (tokenize (blankLines bound ++ source)).1 nextId).1 =
      .ok program) :
    ∃ program',
      programOfItems (programItems (tokenize (blankLines lines ++ source)).1 nextId).1 =
        .ok program' ∧
      List.Forall₂ (Stmt.Alike (.moved bound lines)) program program' := by
  have hmoved := programOfItems_alike (programItems_moved bound lines nextId source).1
  rw [h] at hmoved
  exact hmoved.of_ok

/-- Nothing stands against a source that is moved if nothing stands against it. -/
theorem staticDiagnostics_blankLines {source : List UInt8} (h : staticDiagnostics source = [])
    (lines : Nat) : staticDiagnostics (blankLines lines ++ source) = [] := by
  obtain ⟨hlexical, program, entries, hread, hsurvey⟩ :=
    (staticDiagnostics_eq_nil_iff 0 source).mp h
  obtain ⟨program', hread', hprogram⟩ := programOfItems_moved 0 lines 0 hread
  have hnames := survey_alike hprogram
  rw [hsurvey] at hnames
  obtain ⟨entries', hsurvey', -⟩ := hnames.of_ok
  refine (staticDiagnostics_eq_nil_iff 0 _).mpr ⟨?_, program', entries', hread', hsurvey'⟩
  rw [tokenize_blankLines, hlexical]
  rfl

namespace Session

/-- A session in which all lines come before `bound` is related to itself while a source moves. -/
theorem alike_moved {sink : Sink} {clock : Clock} {past : List Request} {s : Session}
    (hpast : (fresh sink clock).performAll? past = some s) {bound : Nat} (lines : Nat)
    (hbound : ∀ request ∈ past, ∀ t ∈ request.tokens, t.line < bound) :
    s.Alike (.moved bound lines) s := by
  have hstart : (fresh sink clock).Alike (.moved bound lines) (fresh sink clock) :=
    ⟨.fresh sink clock, rfl, fun _ => rfl⟩
  have hend := hstart.performAll? hbound
  rw [hpast] at hend
  cases hend with
  | some hs => exact hs

/-- A source that is run below `lines` lines shows what it shows below `bound` lines, where it stands
below everything else, but for the lines of the faults in it; so does all that comes later. -/
theorem observe_moved {s : Session} {bound : Nat} (lines : Nat) (hs : s.Alike (.moved bound lines) s)
    (hlog : s.log.hadError = false) {source : List UInt8} (hsource : staticDiagnostics source = [])
    (fuel : Nat) {later : List Request}
    (hbound : ∀ request ∈ later, ∀ t ∈ request.tokens, t.line < bound) :
    s.observe (.run fuel (blankLines lines ++ source) :: later) =
      (s.observe (.run fuel (blankLines bound ++ source) :: later)).map
        (View.mapFaults (RuntimeFault.moved bound lines)) := by
  obtain ⟨hlexical, program, entries, hread, hsurvey⟩ := (staticDiagnostics_eq_nil_iff s.nextId _).mp
    (staticDiagnostics_blankLines hsource bound)
  obtain ⟨hlexical', -⟩ := (staticDiagnostics_eq_nil_iff s.nextId _).mp
    (staticDiagnostics_blankLines hsource lines)
  obtain ⟨program', hread', hprogram⟩ := programOfItems_moved bound lines s.nextId hread
  have hnames := survey_alike hprogram
  rw [hsurvey] at hnames
  obtain ⟨entries', hsurvey', hentries⟩ := hnames.of_ok
  have hload := load_of_clean hlog hlexical hread hsurvey
  have hload' := load_of_clean hlog hlexical' hread' hsurvey'
  have hrun := Machine.run_alike fuel ((hs.world.record hentries).program hprogram)
  have hnext : ∀ n, (programItems (tokenize (blankLines bound ++ source)).1 s.nextId).2 + n =
      (programItems (tokenize (blankLines lines ++ source)).1 s.nextId).2 + n := fun n =>
    congrArg (· + n) (programItems_moved bound lines s.nextId source).2
  exact Alike.observe_run (K := .moved bound lines)
    (Alike.run?_taken hload hload' hs.log hnext hrun) (Alike.partway_taken hload hload' hs.log hrun)
    fun _ _ ht => ht.observe hbound

end Session

/-! ## Two sources as one -/

theorem exists_line_bound (tokens : List Token) : ∃ bound, ∀ t ∈ tokens, t.line < bound := by
  induction tokens with
  | nil => exact ⟨0, nofun⟩
  | cons t rest ih =>
    obtain ⟨bound, hbound⟩ := ih
    refine ⟨max (t.line + 1) bound, List.forall_mem_cons.mpr ⟨?_, fun u hu => ?_⟩⟩
    · exact Nat.lt_of_lt_of_le (Nat.lt_succ_self _) (Nat.le_max_left _ _)
    · exact Nat.lt_of_lt_of_le (hbound u hu) (Nat.le_max_right _ _)

theorem Log.eq_of_isEmpty {log log' : Log} (h : log.entries.isEmpty = true)
    (h' : log'.entries.isEmpty = true) : log = log' :=
  congrArg Log.mk ((List.isEmpty_iff.mp h).trans (List.isEmpty_iff.mp h').symm)

namespace Session

/-- Let two sources be free of static errors and the first come to its end with nothing to report. Then
the two sources with a line feed between them show what the second shows after the first, and so do all
later requests, except that the faults raised in the second source stand as many lines lower as it
does: these are the faults that move with the source when it is run below empty lines. -/
theorem run_concatenated {sink : Sink} {clock : Clock} {past : List Request} {s t : Session}
    (hpast : (fresh sink clock).performAll? past = some s) (hlog : s.log.hadError = false)
    {first second : List UInt8} (hfirst : staticDiagnostics first = [])
    (hsecond : staticDiagnostics second = []) {fuel : Nat} (hrun : s.run? fuel first = some t)
    (hclean : t.log = s.log) :
    ∃ k, ∀ n later, ∃ accounts : List Account,
      (∀ lines, t.observe (.run n (blankLines lines ++ second) :: later) =
        accounts.map (Account.below lines)) ∧
      s.observe (.run (k + n) (first ++ lineFeed :: second) :: later) =
        accounts.map (Account.below (lineFeeds first + 1)) := by
  obtain ⟨hlexical, -⟩ := (staticDiagnostics_eq_nil_iff 0 first).mp hfirst
  obtain ⟨hlexical', -⟩ := (staticDiagnostics_eq_nil_iff 0 second).mp hsecond
  have hjoined : tokenize (first ++ lineFeed :: second) =
      (words first ++ (tokenize (blankLines (lineFeeds first + 1) ++ second)).1, []) := by
    rw [tokenize_joined hlexical, tokenize_blankLines, hlexical']
    rfl
  obtain ⟨k, hk⟩ := observe_joined (settled_of_performAll? hpast) hlog hfirst
    (staticDiagnostics_blankLines hsecond _) hjoined hrun hclean
  refine ⟨k, fun n later => ?_⟩
  have hreached : (fresh sink clock).performAll? (past ++ [Request.run fuel first]) = some t := by
    rw [performAll?_append, hpast, Option.bind_some, performAll?, hrun]
    rfl
  -- Below all lines of the other sources the second source can be told from them.
  obtain ⟨bound, hbound⟩ :=
    exists_line_bound ((past ++ [Request.run fuel first] ++ later).flatMap Request.tokens)
  have hpastBound : ∀ request ∈ past ++ [Request.run fuel first], ∀ u ∈ request.tokens, u.line < bound :=
    fun request hrequest u hu =>
      hbound u (List.mem_flatMap.mpr ⟨request, List.mem_append_left _ hrequest, hu⟩)
  have hlaterBound : ∀ request ∈ later, ∀ u ∈ request.tokens, u.line < bound :=
    fun request hrequest u hu =>
      hbound u (List.mem_flatMap.mpr ⟨request, List.mem_append_right _ hrequest, hu⟩)
  have hmoved : ∀ lines, t.observe (.run n (blankLines lines ++ second) :: later) =
      ((t.observe (.run n (blankLines bound ++ second) :: later)).map (View.account bound)).map
        (Account.below lines) := by
    intro lines
    rw [observe_moved lines (alike_moved hreached lines hpastBound) (by rw [hclean, hlog]) hsecond n
      hlaterBound, List.map_map]
    exact List.map_congr_left fun v _ => (v.below_account bound lines).symm
  exact ⟨_, hmoved, (hk n later).trans (hmoved _)⟩

/-- After a failed run and a reset, `nil;` and then `nil();`, which raises a fault of its own. -/
theorem run_concatenated_after_reset :
    let start := fresh (.ofRoom none) (.standing 0)
    let first : List UInt8 := [110, 105, 108, 59]
    let second : List UInt8 := [110, 105, 108, 40, 41, 59]
    ∃ s t, start.performAll? [.run 100 second, .reset] = some s ∧ s.log.hadError = false ∧
      staticDiagnostics first = [] ∧ staticDiagnostics second = [] ∧
      s.run? 100 first = some t ∧ t.log = s.log ∧
      ∃ k, ∀ n later, ∃ accounts : List Account,
        (∀ lines, t.observe (.run n (blankLines lines ++ second) :: later) =
          accounts.map (Account.below lines)) ∧
        s.observe (.run (k + n) (first ++ lineFeed :: second) :: later) =
          accounts.map (Account.below (lineFeeds first + 1)) := by
  intro start first second
  have hreached : ((start.performAll? [.run 100 second, .reset]).any fun s =>
      s.log.entries.isEmpty && (s.run? 100 first).any (·.log.entries.isEmpty)) = true := by
    decide +kernel
  have hfirst : (staticDiagnostics first).isEmpty = true := by decide +kernel
  have hsecond : (staticDiagnostics second).isEmpty = true := by decide +kernel
  obtain ⟨s, hs, hclean⟩ := (Option.any_eq_true _ _).mp hreached
  obtain ⟨hlog, hnext⟩ := Bool.and_eq_true_iff.mp hclean
  obtain ⟨t, ht, hsame⟩ := (Option.any_eq_true _ _).mp hnext
  have hpending : s.log.hadError = false := by
    rw [Log.hadError, List.isEmpty_iff.mp hlog]
    rfl
  have hequal := Log.eq_of_isEmpty hsame hlog
  exact ⟨s, t, hs, hpending, List.isEmpty_iff.mp hfirst, List.isEmpty_iff.mp hsecond, ht, hequal,
    run_concatenated hs hpending (List.isEmpty_iff.mp hfirst) (List.isEmpty_iff.mp hsecond) ht hequal⟩

/-- After `nil;` and `fun f() { nil(); }`, run one after the other or as one, nothing is reported, but
what `f();` reports later does not stand on the same line. -/
theorem later_faults_differ :
    let start := fresh (.ofRoom none) (.standing 0)
    let first : List UInt8 := [110, 105, 108, 59]
    let second : List UInt8 := [102, 117, 110, 32, 102, 40, 41, 32, 123, 32, 110, 105, 108, 40, 41, 59,
      32, 125]
    let later : List Request := [.run 100 [102, 40, 41, 59]]
    staticDiagnostics first = [] ∧ staticDiagnostics second = [] ∧
      ∃ s t u, start.run? 100 first = some s ∧ s.log = start.log ∧ s.run? 100 second = some t ∧
        start.run? 100 (first ++ lineFeed :: second) = some u ∧ u.log = t.log ∧
        (t.observe later).map (fun v => v.diagnostics.map Diagnostic.line?) = [[some 1]] ∧
        (u.observe later).map (fun v => v.diagnostics.map Diagnostic.line?) = [[some 2]] ∧
        t.observe later ≠ u.observe later := by
  intro start first second later
  let reported (s : Session) : List (List (Option Nat)) :=
    (s.observe later).map fun v => v.diagnostics.map Diagnostic.line?
  have hfirst : (staticDiagnostics first).isEmpty = true := by decide +kernel
  have hsecond : (staticDiagnostics second).isEmpty = true := by decide +kernel
  have hapart : ((start.run? 100 first).any fun s => s.log.entries.isEmpty &&
      (s.run? 100 second).any fun t => t.log.entries.isEmpty && reported t == [[some 1]]) = true := by
    decide +kernel
  have hjoint : ((start.run? 100 (first ++ lineFeed :: second)).any fun u =>
      u.log.entries.isEmpty && reported u == [[some 2]]) = true := by
    decide +kernel
  obtain ⟨s, hs, hapart⟩ := (Option.any_eq_true _ _).mp hapart
  obtain ⟨hslog, hnext⟩ := Bool.and_eq_true_iff.mp hapart
  obtain ⟨t, ht, hapart⟩ := (Option.any_eq_true _ _).mp hnext
  obtain ⟨htlog, htlines⟩ := Bool.and_eq_true_iff.mp hapart
  obtain ⟨u, hu, hjoint⟩ := (Option.any_eq_true _ _).mp hjoint
  obtain ⟨hulog, hulines⟩ := Bool.and_eq_true_iff.mp hjoint
  have hlines : reported t = [[some 1]] := eq_of_beq htlines
  have hlines' : reported u = [[some 2]] := eq_of_beq hulines
  refine ⟨List.isEmpty_iff.mp hfirst, List.isEmpty_iff.mp hsecond, s, t, u, hs,
    Log.eq_of_isEmpty hslog rfl, ht, hu, Log.eq_of_isEmpty hulog htlog, hlines, hlines', fun heq => ?_⟩
  have hsame : reported t = reported u := congrArg (List.map _) heq
  rw [hlines, hlines'] at hsame
  cases hsame

end Session

end LoxLang
