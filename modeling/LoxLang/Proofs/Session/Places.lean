import LoxLang.Proofs.Alike.Survey
import LoxLang.Proofs.Binding.Order
import LoxLang.Proofs.Session.Comparison
import LoxLang.Proofs.Syntax.Order

/-!
Where faults stand. `placed tokens` are the tokens of a source with their places as their lines. A
program is read and surveyed from them as from the tokens themselves (`programItems_placed`), so the
faults found in them are those of the source, each with the place of the token that it names, and
they come in the order of their places, a few aside (`faults_in_turn`).
-/
namespace LoxLang
set_option autoImplicit false

/-! ## Lines of a source -/

/-- The words of some lexemes stand on lines that do not go down. -/
theorem Lexing.wordsFrom_sorted (line : Nat) (ls : List Lexeme) :
    (∀ t ∈ (wordsFrom line ls).filterMap LexicalItem.token?,
        line ≤ t.line ∧ t.line ≤ line + lineFeeds (ls.flatMap Lexeme.bytes)) ∧
      ((wordsFrom line ls).filterMap LexicalItem.token?).Pairwise (·.line ≤ ·.line) := by
  induction ls generalizing line with
  | nil => exact ⟨nofun, List.Pairwise.nil⟩
  | cons lexeme rest ih =>
    obtain ⟨hbounds, hsorted⟩ := ih (line + lineFeeds lexeme.bytes)
    have hfeeds : lineFeeds ((lexeme :: rest).flatMap Lexeme.bytes) =
        lineFeeds lexeme.bytes + lineFeeds (rest.flatMap Lexeme.bytes) := by
      rw [List.flatMap_cons, lineFeeds, List.count_append, lineFeeds, lineFeeds]
    have hlater : ∀ t ∈ (wordsFrom (line + lineFeeds lexeme.bytes) rest).filterMap
        LexicalItem.token?, line ≤ t.line ∧
          t.line ≤ line + lineFeeds ((lexeme :: rest).flatMap Lexeme.bytes) := by
      intro t ht
      have := hbounds t ht
      omega
    rw [wordsFrom, List.filterMap_append]
    cases hmeaning : lexeme.meaning with
    | token kind =>
      have hfirst : ((lexeme.item? (line + lineFeeds lexeme.bytes)).toList.filterMap
          LexicalItem.token?) =
            [⟨kind, Utf8.decodeLossy lexeme.bytes, line + lineFeeds lexeme.bytes⟩] := by
        rw [Lexeme.item?, hmeaning]
        rfl
      rw [hfirst]
      refine ⟨List.forall_mem_cons.mpr ⟨?_, hlater⟩,
        List.pairwise_cons.mpr ⟨fun t ht => (hbounds t ht).1, hsorted⟩⟩
      dsimp only
      omega
    | blank =>
      have hfirst : ((lexeme.item? (line + lineFeeds lexeme.bytes)).toList.filterMap
          LexicalItem.token?) = [] := by
        rw [Lexeme.item?, hmeaning]
        rfl
      rw [hfirst]
      exact ⟨hlater, hsorted⟩
    | fault cause =>
      have hfirst : ((lexeme.item? (line + lineFeeds lexeme.bytes)).toList.filterMap
          LexicalItem.token?) = [] := by
        rw [Lexeme.item?, hmeaning]
        rfl
      rw [hfirst]
      exact ⟨hlater, hsorted⟩

/-- The tokens of a source stand on lines that do not go down. -/
theorem tokenize_sorted (source : List UInt8) :
    (tokenize source).1.Pairwise (·.line ≤ ·.line) := by
  obtain ⟨hbounds, hsorted⟩ := Lexing.wordsFrom_sorted 1 (Lexing.lexemes source)
  rw [Lexing.flatMap_lexemes] at hbounds
  rw [tokenize_tokens, List.pairwise_append]
  refine ⟨hsorted, List.pairwise_singleton _ _, fun t ht => List.forall_mem_singleton.mpr ?_⟩
  exact (hbounds t ht).2

/-! ## Places -/

/-- Tokens with their places as their lines. -/
def placed (tokens : List Token) : List Token :=
  tokens.mapIdx fun place t => { t with line := place }

/-- A token is taken for one that has its place among some tokens as its line. -/
def Likeness.placing (tokens : List Token) : Likeness where
  token t u := tokens[u.line]? = some t ∧ u.kind = t.kind ∧ u.lexeme = t.lexeme
  number := Eq
  kind h := h.2.1
  lexeme h := h.2.2
  unique := unique_of_eq

theorem placed_alike (tokens : List Token) :
    List.Forall₂ (Likeness.placing tokens).token tokens (placed tokens) := by
  refine List.forall₂_iff_get.mpr ⟨List.length_mapIdx.symm, fun place h _ => ?_⟩
  rw [List.get_eq_getElem, List.get_eq_getElem]
  unfold placed
  rw [List.getElem_mapIdx]
  exact ⟨List.getElem?_eq_getElem h, rfl, rfl⟩

theorem placed_sorted (tokens : List Token) : (placed tokens).Pairwise (·.line ≤ ·.line) := by
  refine List.pairwise_iff_getElem.mpr fun place place' h h' hlt => ?_
  have hline : ∀ i (hi : i < (placed tokens).length), (placed tokens)[i].line = i := by
    intro i hi
    simp [placed]
  rw [hline place h, hline place' h']
  exact Nat.le_of_lt hlt

theorem placed_concat (tokens : List Token) (stop : Token) :
    placed (tokens ++ [stop]) = placed tokens ++ [{ stop with line := tokens.length }] := by
  unfold placed
  rw [List.mapIdx_concat]

theorem isEnd_of_mem_placed {tokens : List Token} (h : ∀ t ∈ tokens, t.isEnd = false) :
    ∀ t ∈ placed tokens, t.isEnd = false := by
  intro t ht
  obtain ⟨place, hplace, rfl⟩ := List.mem_mapIdx.mp ht
  exact h tokens[place] (List.getElem_mem hplace)

/-- A source has its words, each with its place, before the place of its end. -/
theorem placed_tokenize (source : List UInt8) :
    placed (tokenize source).1 =
      placed (Lexing.words source) ++ [.endOn (Lexing.words source).length] := by
  rw [tokenize_tokens, placed_concat]
  rfl

theorem start_placed (source : List UInt8) (nextId : Nat) :
    Cursor.start (placed (tokenize source).1) nextId =
      ⟨placed (Lexing.words source), (Lexing.words source).length, [], nextId⟩ := by
  rw [placed_tokenize]
  exact start_of_words nextId (isEnd_of_mem_placed fun t => Lexing.isEnd_of_mem_words) rfl

/-- Placed tokens are read as the tokens themselves. -/
theorem programItems_placed (source : List UInt8) (nextId : Nat) :
    List.Forall₂ (ProgramItem.Alike (.placing (tokenize source).1))
      (programItems (tokenize source).1 nextId).1
      (programItems (placed (tokenize source).1) nextId).1 := by
  refine (programItems_alike (placed_alike _) ?_ fun _ => rfl).1
  rw [endLine_tokenize, start_placed, tokenize_tokens]
  exact ⟨List.getElem?_concat_length, rfl, rfl⟩

theorem itemFaults_alike {L : Likeness} {items items' : List ProgramItem}
    (h : List.Forall₂ (ProgramItem.Alike L) items items') :
    List.Forall₂ (SyntaxFault.Alike L) (itemFaults items) (itemFaults items') := by
  induction h with
  | nil => exact .nil
  | cons hitem _ ih =>
    cases hitem with
    | ok _ => exact ih
    | error hf => exact .cons hf ih

theorem ok_of_toOption {ε α : Type} {result : Except ε α} {a : α} (h : result.toOption = some a) :
    result = .ok a := by
  cases result with
  | error e => cases h
  | ok found =>
    cases h
    rfl

/-- The faults of every source name tokens in the order in which these stand in it, hence in that of
their lines, with three exceptions. The target of an assignment is blamed after what is wrong with the
value; and a survey comes to the value that is assigned to a property before the object, and to the
body of a `for` statement before the increment. -/
theorem faults_in_turn (source : List UInt8) (nextId : Nat) :
    let tokens := (tokenize source).1
    let text := (placed tokens).takeWhile (!·.isEnd)
    tokens.Pairwise (·.line ≤ ·.line) ∧
      List.Forall₂ (SyntaxFault.Alike (.placing tokens))
        (itemFaults (programItems tokens nextId).1)
        (itemFaults (programItems (placed tokens) nextId).1) ∧
      (itemFaults (programItems (placed tokens) nextId).1).Pairwise (InTurn text) ∧
      ∀ program, programOfItems (programItems tokens nextId).1 = .ok program →
        ∃ program', programOfItems (programItems (placed tokens) nextId).1 = .ok program' ∧
          List.Forall₂ (Stmt.Alike (.placing tokens)) program program' ∧
          ∀ faults, survey program = .error faults →
            ∃ faults', survey program' = .error faults' ∧
              List.Forall₂ (BindingFault.Alike (.placing tokens)) faults faults' ∧
              faults'.Pairwise fun f g =>
                f.token.line ≤ g.token.line ∨ Overtakes text f.token g.token := by
  intro tokens text
  have hitems : List.Forall₂ (ProgramItem.Alike (.placing tokens)) (programItems tokens nextId).1
      (programItems (placed tokens) nextId).1 := programItems_placed source nextId
  have hsorted : (placed tokens).Pairwise (·.line ≤ ·.line) := placed_sorted tokens
  have htext : text = placed (Lexing.words source) :=
    congrArg Cursor.rest (start_placed source nextId)
  have hturns : (itemFaults (programItems (placed tokens) nextId).1).Pairwise (InTurn text) := by
    have hplaced : placed tokens = text ++ [.endOn (Lexing.words source).length] := by
      rw [htext]
      exact placed_tokenize source
    rw [hplaced] at hsorted ⊢
    refine programItems_in_turn nextId ?_ rfl hsorted
    rw [htext]
    exact isEnd_of_mem_placed fun t => Lexing.isEnd_of_mem_words
  refine ⟨tokenize_sorted source, itemFaults_alike hitems, hturns, fun program hprogram => ?_⟩
  have hread := programOfItems_alike hitems
  rw [hprogram] at hread
  obtain ⟨program', hprogram', halike⟩ := hread.of_ok
  refine ⟨program', hprogram', halike, fun faults hfaults => ?_⟩
  have hsurvey := survey_alike halike
  rw [hfaults] at hsurvey
  obtain ⟨faults', hfaults', hsame⟩ : ∃ faults', survey program' = .error faults' ∧
      List.Forall₂ (BindingFault.Alike (.placing tokens)) faults faults' := by
    revert hsurvey
    generalize survey program' = result
    rintro (_ | hsame)
    exact ⟨_, rfl, hsame⟩
  refine ⟨faults', hfaults', hsame, ?_⟩
  rw [survey_of_error hprogram' hfaults']
  exact misuses_in_turn hprogram' (hsorted.sublist (List.takeWhile_prefix _).sublist)

/-- Whether a program is refused by its survey with faults on some lines. -/
def blamedOn (lines : List Nat) (program : List Stmt) : Bool :=
  match survey program with
  | .error faults => faults.map (·.token.line) == lines
  | .ok _ => false

theorem blamedOn_iff {lines : List Nat} {program : List Stmt} :
    blamedOn lines program = true ↔
      ∃ faults, survey program = .error faults ∧ faults.map (·.token.line) = lines := by
  unfold blamedOn
  cases survey program <;> simp

/-- In

    this
    .x = super
    .y;

the word `super` is blamed before the word `this`, and it overtakes it. -/
theorem faults_in_turn_in_assignment :
    let tokens := (tokenize "this\n.x = super\n.y;".toUTF8.toList).1
    let text := (placed tokens).takeWhile (!·.isEnd)
    ∃ program faults faults', programOfItems (programItems tokens 0).1 = .ok program ∧
      survey program = .error faults ∧ faults.map (·.token.line) = [2, 1] ∧
      List.Forall₂ (BindingFault.Alike (.placing tokens)) faults faults' ∧
      faults'.Pairwise fun f g =>
        f.token.line ≤ g.token.line ∨ Overtakes text f.token g.token := by
  intro tokens text
  have hread : ((programOfItems (programItems tokens 0).1).toOption.any (blamedOn [2, 1])) = true := by
    decide +kernel
  obtain ⟨program, hprogram, hsurvey⟩ := (Option.any_eq_true _ _).mp hread
  have hok := ok_of_toOption hprogram
  obtain ⟨faults, hfaults, hlines⟩ := blamedOn_iff.mp hsurvey
  obtain ⟨-, -, -, hprograms⟩ := faults_in_turn "this\n.x = super\n.y;".toUTF8.toList 0
  obtain ⟨program', -, -, hplaced⟩ := hprograms program hok
  obtain ⟨faults', -, hsame, hturns⟩ := hplaced faults hfaults
  exact ⟨program, faults, faults', hok, hfaults, hlines, hsame, hturns⟩

/-- Faults do not always come in the order of their lines. In

    nil =
    nil =
    nil;

the second target is blamed before the first, and in

    for (;;
    this)
    return;

the word `return` before the word `this`. -/
theorem faults_out_of_turn :
    (¬ ∀ (source : List UInt8) (nextId : Nat),
      (itemFaults (programItems (tokenize source).1 nextId).1).Pairwise
        (·.token.line ≤ ·.token.line)) ∧
    ¬ ∀ (source : List UInt8) (nextId : Nat) (program : List Stmt) (faults : List BindingFault),
      programOfItems (programItems (tokenize source).1 nextId).1 = .ok program →
        survey program = .error faults → faults.Pairwise (·.token.line ≤ ·.token.line) := by
  constructor
  · intro hsorted
    have hlines := List.pairwise_map.mpr (hsorted "nil =\nnil =\nnil;".toUTF8.toList 0)
    have hfound : (itemFaults (programItems (tokenize "nil =\nnil =\nnil;".toUTF8.toList).1 0).1).map
        (·.token.line) = [2, 1] := by decide +kernel
    rw [hfound] at hlines
    revert hlines
    decide
  · intro hsorted
    have hread : ((programOfItems (programItems (tokenize
        "for (;;\nthis)\nreturn;".toUTF8.toList).1 0).1).toOption.any (blamedOn [3, 2])) = true := by
      decide +kernel
    obtain ⟨program, hprogram, hsurvey⟩ := (Option.any_eq_true _ _).mp hread
    obtain ⟨faults, hfaults, hfound⟩ := blamedOn_iff.mp hsurvey
    have hlines := List.pairwise_map.mpr
      (hsorted _ 0 program faults (ok_of_toOption hprogram) hfaults)
    rw [hfound] at hlines
    revert hlines
    decide

end LoxLang
