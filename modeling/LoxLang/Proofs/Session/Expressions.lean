import LoxLang.Proofs.Grammar.Canonical
import LoxLang.Proofs.Machine.Printing
import LoxLang.Proofs.Machine.Termination
import LoxLang.Proofs.Session.Lines

/-!
Expressions on their own and in a `print`. Tokens are a single expression exactly if they are, between
the word `print` and a semicolon, a program of one statement; and then evaluating the expression, with all
names global and without a survey, comes to what the program prints or to the fault that it reports
(`expression_agrees_with_print`). The program records no distances, for outside of classes and blocks a
name is global (`Survey.visitExpr_global`); nothing else is printed and both come to their end, for an
expression holds no statements.
-/
namespace LoxLang
set_option autoImplicit false

/-! ## Reading -/

section Reading
variable {ts : List Token} {word stop last : Token} {lo hi : Nat} {e : Expr}

theorem takeWhile_print (hplain : NoEnd ts) (hword : word.kind = .keyword .printWord)
    (hstop : stop.kind = .symbol .semicolon) (hlast : last.isEnd = true) :
    (word :: (ts ++ [stop, last])).takeWhile (!·.isEnd) = word :: (ts ++ [stop]) := by
  have hnone : NoEnd (word :: (ts ++ [stop])) := by
    refine List.forall_mem_cons.mpr ⟨?_, List.forall_mem_append.mpr
      ⟨hplain, List.forall_mem_singleton.mpr ?_⟩⟩
    · rw [Token.isEnd, hword]
      rfl
    · rw [Token.isEnd, hstop]
      rfl
  have hsplit : word :: (ts ++ [stop, last]) = word :: (ts ++ [stop]) ++ last :: [] := by simp
  rw [hsplit, hnone.takeWhile hlast]

/-- The text of an expression between `print` and a semicolon is read as one statement. -/
theorem programItems_of_print (hplain : NoEnd ts) (hword : word.kind = .keyword .printWord)
    (hstop : stop.kind = .symbol .semicolon) (hlast : last.isEnd = true)
    (h : ExprText .expression lo ts e hi) :
    programItems (word :: (ts ++ [stop, last])) lo = ([.ok (.print word e)], hi) := by
  have htext : ListText DeclarationText lo (word :: (ts ++ [stop]) ++ []) [.print word e] hi :=
    .cons (.statement (.print hword h hstop)) .nil
  rw [List.append_nil, ← takeWhile_print hplain hword hstop hlast] at htext
  exact programItems_of_text htext

theorem forLoop_ne_print (initializer : Option Stmt) (test increment : Option Expr) (body : Stmt)
    (keyword : Token) (value : Expr) :
    Stmt.forLoop initializer test increment body ≠ .print keyword value := by
  cases initializer <;> exact Stmt.noConfusion

/-- What is printed by a program of one statement has the text between `print` and the semicolon. -/
theorem text_of_print (hplain : NoEnd ts) (hword : word.kind = .keyword .printWord)
    (hstop : stop.kind = .symbol .semicolon) (hlast : last.isEnd = true)
    (h : (programItems (word :: (ts ++ [stop, last])) lo).1 = [.ok (.print word e)]) :
    ∃ hi, ExprText .expression lo ts e hi := by
  have hprogram : programOfItems (programItems (word :: (ts ++ [stop, last])) lo).1 =
      .ok [.print word e] := by
    rw [h]
    rfl
  have htext := program_text hprogram
  rw [takeWhile_print hplain hword hstop hlast] at htext
  generalize hw : word :: (ts ++ [stop]) = w at htext
  generalize (programItems (word :: (ts ++ [stop, last])) lo).2 = hi at htext
  cases htext with
  | cons hdeclaration hrest =>
    cases hrest
    rw [List.append_nil] at hw
    generalize hprint : Stmt.print word e = s at hdeclaration
    cases hdeclaration with
    | statement hs =>
      cases hs with
      | print _ he _ =>
        cases hprint
        obtain ⟨-, hts⟩ := List.cons_eq_cons.mp hw
        obtain ⟨rfl, -⟩ := List.append_inj' hts rfl
        exact ⟨_, he⟩
      | forLoop => exact absurd hprint.symm (forLoop_ne_print _ _ _ _ word e)
      | expression hs =>
        cases hs
        cases hprint
      | _ => cases hprint
    | «variable» _ hs =>
      cases hs <;> cases hprint
    | _ => cases hprint

/-- Tokens are a single expression exactly if they are what a program of one statement prints. -/
theorem reads_iff_prints (hplain : NoEnd ts) (hword : word.kind = .keyword .printWord)
    (hstop : stop.kind = .symbol .semicolon) (hlast : last.isEnd = true) {final : Token}
    (hfinal : final.isEnd = true) (first second : Nat) :
    (∃ e', (expressionOfTokens (ts ++ [final]) first).1 = .ok e' ∧ e'.withoutIds = e.withoutIds) ↔
      ∃ e', (programItems (word :: (ts ++ [stop, last])) second).1 = [.ok (.print word e')] ∧
        e'.withoutIds = e.withoutIds := by
  have hall : (ts ++ [final]).takeWhile (!·.isEnd) = ts := hplain.takeWhile hfinal
  -- Which identity comes next does not matter to what is read.
  rw [reads_iff_written, ← reads_iff_written (ts ++ [final]) second]
  constructor
  · rintro ⟨e', hread, hsame⟩
    have htext := expression_text hread
    rw [hall] at htext
    exact ⟨e', congrArg Prod.fst (programItems_of_print hplain hword hstop hlast htext), hsame⟩
  · rintro ⟨e', hread, hsame⟩
    obtain ⟨hi, htext⟩ := text_of_print hplain hword hstop hlast hread
    rw [← hall] at htext
    exact ⟨e', congrArg Prod.fst (expressionOfTokens_of_text htext), hsame⟩

end Reading

/-! ## Surveys -/

/-- Neither of the words that need a class around them. -/
def Token.Classless (t : Token) : Prop :=
  t.kind ≠ .keyword .thisWord ∧ t.kind ≠ .keyword .superWord

namespace Survey
variable {context : BindingContext} {s : Survey}

theorem resolve_global (hs : s.scopes = []) (target : Reference) : s.resolve target = s := by
  rw [resolve, hs]
  rfl

theorem resolveRead_global (hs : s.scopes = []) (target : Reference) : s.resolveRead target = s := by
  rw [resolveRead, hs]
  exact resolve_global hs target

mutual

/-- Outside of local scopes nothing is found in an expression that needs no class. -/
theorem visitExpr_global (hs : s.scopes = []) (e : Expr) (h : e.WellFormed Token.Classless) :
    visitExpr context e s = s := by
  cases e with
  | literal value => rfl
  | unary operator operand => exact visitExpr_global hs operand h.2
  | binary left operator right =>
    rw [visitExpr, visitExpr_global hs left h.2.1, visitExpr_global hs right h.2.2]
  | logical left operator right =>
    rw [visitExpr, visitExpr_global hs left h.2.1, visitExpr_global hs right h.2.2]
  | grouping inner => exact visitExpr_global hs inner h
  | «variable» target => exact resolveRead_global hs target
  | assign target value =>
    rw [visitExpr, visitExpr_global hs value h.2]
    exact resolve_global hs target
  | call callee paren arguments =>
    rw [visitExpr, visitExpr_global hs callee h.1, visitExprs_global hs arguments h.2]
  | get object name => exact visitExpr_global hs object h.1
  | set object name value =>
    rw [visitExpr, visitExpr_global hs value h.2.2, visitExpr_global hs object h.1]
  | thisObject keyword => exact absurd ((Token.isKeyword_iff _ _).mp h.2) h.1.1
  | superMethod keyword method => exact absurd ((Token.isKeyword_iff _ _).mp h.1.2) h.1.1.2

theorem visitExprs_global (hs : s.scopes = []) (es : List Expr)
    (h : Expr.AllWellFormed Token.Classless es) : visitExprs context es s = s := by
  cases es with
  | nil => rfl
  | cons e rest => rw [visitExprs, visitExpr_global hs e h.1, visitExprs_global hs rest h.2]

end
end Survey

/-- The names in what a program prints are global. -/
theorem survey_print (word : Token) {e : Expr} (h : e.WellFormed Token.Classless) :
    survey [.print word e] = .ok [] := by
  have hvisit : Survey.visitStmts ⟨false, .outside⟩ [.print word e] .start = .start :=
    Survey.visitExpr_global rfl e h
  unfold survey
  rw [hvisit]
  rfl

/-! ## Evaluation -/

/-- What a program that prints a result comes to. -/
def World.printed (w : World) : Except RuntimeFault Value → Option RuntimeFault × World
  | .ok v => (none, w.print v.text)
  | .error f => (some f, w)

/-- An expression that is evaluated before any program has run comes to a value or a fault, and prints
nothing. -/
theorem exists_result (sink : Sink) (clock : Clock) (e : Expr) :
    ∃ n result w, Machine.run n ⟨.fresh sink clock, .eval e, []⟩ = .settle w [] result ∧
      w.sink = sink := by
  have hsorted : Machine.Sorted false ⟨.fresh sink clock, .eval e, []⟩ := ⟨false, rfl, rfl⟩
  obtain ⟨L, hfits, -⟩ := ((Machine.Reachable.fresh sink clock).expression .empty e rfl).fits
  obtain ⟨n, hhalted⟩ := Machine.halts_of_loopFree hsorted ⟨L, hfits⟩ (List.forall_mem_nil _)
  have hsilent := Machine.sink_run_of_silent (Machine.silent_expression sink clock e) n
  obtain ⟨w, ⟨v, hend⟩ | ⟨f, hend⟩⟩ := Machine.value_of_halted (Machine.sorted_run hsorted n) hhalted
  · rw [hend] at hsilent
    exact ⟨n, .ok v, w, hend, hsilent⟩
  · rw [hend] at hsilent
    exact ⟨n, .error f, w, hend, hsilent⟩

theorem Machine.halted_settle (w : World) (result : Except RuntimeFault Value) :
    (settle w [] result).halted = true := by
  cases result <;> rfl

theorem World.evaluate?_of_run {n : Nat} {w w' : World} {e : Expr} {result : Except RuntimeFault Value}
    (h : Machine.run n ⟨w, .eval e, []⟩ = .settle w' [] result) {fuel : Nat} (hfuel : n ≤ fuel) :
    w.evaluate? fuel e = some (result, w') := by
  obtain ⟨more, rfl⟩ := Nat.exists_eq_add_of_le hfuel
  unfold evaluate?
  rw [Machine.run_add, h, Machine.run_of_halted (Machine.halted_settle w' result)]
  cases result <;> rfl

/-- A program that prints an expression prints what the expression comes to, or ends with its fault. -/
theorem World.interpret?_print {n : Nat} {w w' : World} {e : Expr} {result : Except RuntimeFault Value}
    (h : Machine.run n ⟨w, .eval e, []⟩ = .settle w' [] result) (hopen : w'.sink.isFull = false)
    (word : Token) :
    ∃ enough, ∀ fuel ≥ enough, w.interpret? fuel [.print word e] = some (w'.printed result) := by
  obtain ⟨k, hk⟩ := Machine.exists_run_lift [.print word, .sequence []] h
    (Machine.halted_settle w' result)
  have hstart : Machine.run 2 (w.program [.print word e]) =
      .lift [.print word, .sequence []] ⟨w, .eval e, []⟩ := rfl
  refine ⟨2 + k + 3, fun fuel hfuel => ?_⟩
  obtain ⟨more, rfl⟩ := Nat.exists_eq_add_of_le hfuel
  unfold interpret?
  rw [Machine.run_add, Machine.run_add, Machine.run_add, hstart, hk]
  cases result with
  | error f =>
    have hend : Machine.run 3 (.lift [.print word, .sequence []] (.settle w' [] (.error f))) =
        ⟨w', .fault f, []⟩ := rfl
    rw [hend, Machine.run_of_halted rfl]
    rfl
  | ok v =>
    have hprint : Machine.step (.lift [.print word, .sequence []] (.settle w' [] (.ok v))) =
        ⟨w'.print v.text, .done .normal, [.sequence []]⟩ := by
      change (if w'.sink.isFull then _ else _) = _
      rw [if_neg (Bool.eq_false_iff.mp hopen)]
      rfl
    have hend : Machine.run 3 (.lift [.print word, .sequence []] (.settle w' [] (.ok v))) =
        ⟨w'.print v.text, .done .normal, []⟩ := by
      rw [Machine.run_succ, hprint]
      rfl
    rw [hend, Machine.run_of_halted rfl]
    rfl

/-! ## Both modes -/

/-- Identities that follow each other in the same order from two of them on. -/
def Likeness.apart (first second : Nat) : Likeness :=
  .same (fun _ => True) (fun i j => i + second = j + first) (by
    intro i j i' j' h h'
    omega)

/-- A session shows the result of an expression: the text of its value and no diagnostics, or no output
and its fault. -/
def Session.Shows (s : Session) : Except RuntimeFault Value → Prop
  | .ok v => s.world.sink.lines.toList = [v.text] ∧ s.log.entries = []
  | .error f => s.world.sink.lines.toList = [] ∧ s.log.entries = [.runtime f]

theorem Session.Shows.alike {L : Likeness} (htoken : ∀ t u, L.token t u → u = t) {s : Session}
    {result result' : Except RuntimeFault Value} (hresult : ResultAlike L result result')
    (h : s.Shows result') : s.Shows result := by
  cases hresult with
  | ok hv =>
    rw [Session.Shows, hv.text] at h
    exact h
  | error hf =>
    cases hf with
    | intro cause ht =>
      rw [htoken _ _ ht] at h
      exact h

/-- The same expression with other identities comes to a like result in as many steps. -/
theorem settle_alike_of_run {L : Likeness} {n : Nat} {w w' v : World} {e e' : Expr}
    {result : Except RuntimeFault Value} (hw : w.Alike L w') (he : e.Alike L e')
    (h : Machine.run n ⟨w, .eval e, []⟩ = .settle v [] result) :
    ∃ v' result', Machine.run n ⟨w', .eval e', []⟩ = .settle v' [] result' ∧
      ResultAlike L result result' ∧ v'.sink = v.sink := by
  have hstart : Machine.Alike L ⟨w, .eval e, []⟩ ⟨w', .eval e', []⟩ := ⟨hw, .eval he, .nil⟩
  have hrun := Machine.run_alike n hstart
  rw [h] at hrun
  generalize Machine.run n ⟨w', .eval e', []⟩ = m at hrun
  obtain ⟨v', c', frames'⟩ := m
  obtain ⟨hv, hc, hf⟩ := hrun
  cases result with
  | ok u =>
    cases hf
    cases hc with
    | value hu => exact ⟨v', .ok _, rfl, .ok hu, hv.sink⟩
  | error f =>
    cases hf
    cases hc with
    | fault hfault => exact ⟨v', .error _, rfl, .error hfault, hv.sink⟩

section Programs
variable {ts : List Token} {word stop last final : Token} {first second : Nat} {e : Expr}

/-- The same expression is printed, with identities that follow each other in the same order. -/
theorem print_alike (hplain : NoEnd ts) (hword : word.kind = .keyword .printWord)
    (hstop : stop.kind = .symbol .semicolon) (hlast : last.isEnd = true)
    (hfinal : final.isEnd = true)
    (h : (expressionOfTokens (ts ++ [final]) first).1 = .ok e) (second : Nat) :
    ∃ e', (programItems (word :: (ts ++ [stop, last])) second).1 = [.ok (.print word e')] ∧
      e.Alike (.apart first second) e' := by
  have htext := expression_text h
  rw [hplain.takeWhile hfinal] at htext
  let L := Likeness.apart first second
  have hsame : List.Forall₂ L.token (word :: (ts ++ [stop, last])) (word :: (ts ++ [stop, last])) :=
    List.forall₂_same.mpr fun t _ => ⟨trivial, rfl⟩
  have hnumber : ∀ n, L.number (first + n) (second + n) := fun n => by
    change first + n + second = second + n + first
    omega
  have hend : L.token (.endOn (Cursor.start (word :: (ts ++ [stop, last])) first).endLine)
      (.endOn (Cursor.start (word :: (ts ++ [stop, last])) second).endLine) := ⟨trivial, rfl⟩
  have hitems := (programItems_alike hsame hend hnumber).1
  rw [programItems_of_print hplain hword hstop hlast htext] at hitems
  generalize (programItems (word :: (ts ++ [stop, last])) second).1 = items at hitems ⊢
  cases hitems with
  | cons hitem hnone =>
    cases hnone
    cases hitem with
    | ok hs =>
      cases hs with
      | print hsameWord he =>
        obtain ⟨-, rfl⟩ := hsameWord
        exact ⟨_, rfl, he⟩

theorem wellFormed_of_print (hclassless : ∀ t ∈ ts, t.Classless)
    (hword : word.kind = .keyword .printWord) (hstop : stop.kind = .symbol .semicolon)
    (hlast : last.isEnd = true)
    (h : (programItems (word :: (ts ++ [stop, last])) second).1 = [.ok (.print word e)]) :
    e.WellFormed Token.Classless := by
  have hend : last.kind = .endOfInput := by
    unfold Token.isEnd at hlast
    cases hkind : last.kind with
    | endOfInput => rfl
    | _ =>
      rw [hkind] at hlast
      cases hlast
  have hother : ∀ {t : Token} {kind : TokenKind}, t.kind = kind → kind ≠ .keyword .thisWord →
      kind ≠ .keyword .superWord → t.Classless := fun hkind hthis hsuper => by
    rw [Token.Classless, hkind]
    exact ⟨hthis, hsuper⟩
  have hall : ∀ t ∈ word :: (ts ++ [stop, last]), t.Classless := by
    refine List.forall_mem_cons.mpr ⟨hother hword (by rintro ⟨⟩) (by rintro ⟨⟩),
      List.forall_mem_append.mpr ⟨hclassless, ?_⟩⟩
    refine List.forall_mem_cons.mpr ⟨hother hstop TokenKind.noConfusion TokenKind.noConfusion, ?_⟩
    exact List.forall_mem_singleton.mpr (hother hend TokenKind.noConfusion TokenKind.noConfusion)
  have hprogram : programOfItems (programItems (word :: (ts ++ [stop, last])) second).1 =
      .ok [.print word e] := by
    rw [h]
    rfl
  exact (program_good hall hprogram).1.1

/-- A session takes a program that prints an expression without classes, and its world stays as it is. -/
theorem loadTokens_print {tokens : List Token} (w : World)
    (h : (programItems tokens second).1 = [.ok (.print word e)])
    (hwords : e.WellFormed Token.Classless) :
    (Session.mk w .empty second).loadTokens tokens =
      (⟨w, .empty, (programItems tokens second).2⟩, some [.print word e]) := by
  have hprogram : programOfItems [.ok (.print word e)] = .ok [.print word e] := rfl
  have hclear : Log.empty.hadError = false := rfl
  unfold Session.loadTokens
  dsimp only
  rw [h, hprogram]
  dsimp only
  rw [hclear, survey_print word hwords]
  rfl

theorem lines_printed {w : World} {room : Option Nat} {refusal : String}
    (h : w.sink = .ofRoom room refusal) (v : Value) :
    (w.print v.text).sink.lines.toList = [v.text] := by
  rw [World.print_eq, h]
  rfl

end Programs

/-- Tokens without an end of input stand for a single expression exactly if `print` and a semicolon around
them make a program of one statement, and that prints the same expression but for the identities of its
references, which may begin anywhere. Then, if the tokens have neither `this` nor `super` among them, the
expression has a result: it is what evaluating the expression comes to before any program has run, and
what a new session shows that runs the program, the clock showing the same times. -/
theorem expression_agrees_with_print {ts : List Token} {word stop last final : Token}
    (hplain : NoEnd ts) (hclassless : ∀ t ∈ ts, t.Classless)
    (hword : word.kind = .keyword .printWord) (hstop : stop.kind = .symbol .semicolon)
    (hlast : last.isEnd = true) (hfinal : final.isEnd = true) (first second : Nat) :
    (∀ e : Expr, (∃ e', (expressionOfTokens (ts ++ [final]) first).1 = .ok e' ∧
        e'.withoutIds = e.withoutIds) ↔
      ∃ e', (programItems (word :: (ts ++ [stop, last])) second).1 = [.ok (.print word e')] ∧
        e'.withoutIds = e.withoutIds) ∧
    ∀ e, (expressionOfTokens (ts ++ [final]) first).1 = .ok e →
      ∀ (room : Option Nat) (refusal : String) (clock : Clock), room ≠ some 0 →
      ∃ result s enough, ∀ fuel ≥ enough,
        (∃ w, (World.fresh (.ofRoom room refusal) clock).evaluate? fuel e = some (result, w)) ∧
        (Session.mk (.fresh (.ofRoom room refusal) clock) .empty second).runTokens? fuel
          (word :: (ts ++ [stop, last])) = some s ∧
        s.Shows result := by
  refine ⟨fun e => reads_iff_prints hplain hword hstop hlast hfinal first second,
    fun e hread room refusal clock hroom => ?_⟩
  obtain ⟨e', hread', he⟩ := print_alike hplain hword hstop hlast hfinal hread second
  have hwords : e'.WellFormed Token.Classless :=
    wellFormed_of_print hclassless hword hstop hlast hread'
  have htaken := loadTokens_print (.fresh (.ofRoom room refusal) clock) hread' hwords
  obtain ⟨n, result, w, hrun, hsink⟩ := exists_result (.ofRoom room refusal) clock e
  obtain ⟨w', result', hrun', hresult, hsink'⟩ :=
    settle_alike_of_run (World.Alike.fresh (.ofRoom room refusal) clock) he hrun
  have hempty : w'.sink = .ofRoom room refusal := hsink'.trans hsink
  have hopen : w'.sink.isFull = false := by
    rw [hempty]
    exact beq_eq_false_iff_ne.mpr hroom
  obtain ⟨enough, hprints⟩ := World.interpret?_print hrun' hopen word
  let nextId := (programItems (word :: (ts ++ [stop, last])) second).2
  refine ⟨result, Session.concluded .empty nextId (w'.printed result').1 (w'.printed result').2,
    max n enough, fun fuel hfuel => ⟨⟨w, ?_⟩, ?_, ?_⟩⟩
  · exact World.evaluate?_of_run hrun (Nat.le_trans (Nat.le_max_left _ _) hfuel)
  · rw [Session.runTokens?, htaken]
    dsimp only
    rw [hprints fuel (Nat.le_trans (Nat.le_max_right _ _) hfuel)]
    rfl
  · refine Session.Shows.alike (L := .apart first second) (fun _ _ h => h.2) hresult ?_
    cases result' with
    | ok v => exact ⟨by rw [Session.concluded]; exact lines_printed hempty v, rfl⟩
    | error f => exact ⟨congrArg (·.lines.toList) hempty, rfl⟩

/-- An assignment to a variable that is not there, on another line than the operator around it. -/
theorem expression_agrees_with_print_of_assignment :
    let name (text : String) (line : Nat) : Token := ⟨.identifier, text, line⟩
    let sign (symbol : Symbol) (line : Nat) : Token := ⟨.symbol symbol, "", line⟩
    let word : Token := ⟨.keyword .printWord, "print", 1⟩
    let equals : Token := sign .equalEqual 1
    let ts : List Token := [name "clock" 1, equals, sign .leftParen 1, name "x" 2, sign .equal 2,
      ⟨.keyword .nilWord, "nil", 3⟩, sign .rightParen 3]
    let e : Expr := .binary (.variable ⟨0, name "clock" 1⟩) equals
      (.grouping (.assign ⟨2, name "x" 2⟩ (.literal .nil)))
    NoEnd ts ∧ (∀ t ∈ ts, t.Classless) ∧ (expressionOfTokens (ts ++ [.endOn 3]) 0).1 = .ok e ∧
      (∃ e', (programItems (word :: (ts ++ [sign .semicolon 3, .endOn 4])) 7).1 =
        [.ok (.print word e')] ∧ e'.withoutIds = e.withoutIds) ∧
      ∃ result s enough, ∀ fuel ≥ enough,
        (∃ w, (World.fresh (.ofRoom none) (.standing 0)).evaluate? fuel e = some (result, w)) ∧
        (Session.mk (.fresh (.ofRoom none) (.standing 0)) .empty 7).runTokens? fuel
          (word :: (ts ++ [sign .semicolon 3, .endOn 4])) = some s ∧ s.Shows result := by
  intro name sign word equals ts e
  have hplain : NoEnd ts := by
    unfold NoEnd
    decide
  have hclassless : ∀ t ∈ ts, t.Classless := by
    simp [ts, Token.Classless, name, sign, equals]
  have hread : (expressionOfTokens (ts ++ [.endOn 3]) 0).1 = .ok e := by cbv
  have hstop : (sign .semicolon 3).kind = .symbol .semicolon := rfl
  have hlast : (Token.endOn 4).isEnd = true := rfl
  have hfinal : (Token.endOn 3).isEnd = true := rfl
  obtain ⟨hreads, hruns⟩ := expression_agrees_with_print hplain hclassless
    (rfl : word.kind = .keyword .printWord) hstop hlast hfinal 0 7
  exact ⟨hplain, hclassless, hread, (hreads e).mp ⟨e, hread, rfl⟩,
    hruns e hread none "pipe closed" (.standing 0) (by decide)⟩

end LoxLang
