import LoxLang.Syntax.Basic

/-!
Reading a token list from left to right. A `Cursor` is what is left to read together with the faults
noted so far; a `Reading` moves it forward and yields a result or stops. A fault that stops a
reading is thrown; one that leaves the place intact is noted with `note`. `Reading.recovering` and
`resume` find the place from which to go on after a fault.
-/
namespace LoxLang

/-- Why a token list is no program. -/
inductive SyntaxCause where
  /-- Something else has to stand here. -/
  | expected (what : String)
  | invalidAssignmentTarget
  | tooManyArguments
  | tooManyParameters
  /-- The bound on the depth of reading is used up, which `depthBound` rules out. -/
  | nestedTooDeeply
  deriving DecidableEq, Repr

def SyntaxCause.message : SyntaxCause → String
  | .expected what => "Expected " ++ what
  | .invalidAssignmentTarget => "Invalid assignment target"
  | .tooManyArguments => "Can't have more than 255 arguments"
  | .tooManyParameters => "Can't have more than 255 parameters"
  | .nestedTooDeeply => "Nested too deeply"

structure SyntaxFault where
  cause : SyntaxCause
  token : Token

/-- A place in a token list: the tokens still to read, none of them an end of input, the line of the
end, the faults noted before this place, and the identity of the next reference. -/
structure Cursor where
  rest : List Token
  endLine : Nat
  noted : List SyntaxFault
  nextId : Nat

/-- The place at the start of a token list. Reading stops at the first end of input; one is
understood on the line of the last token where the last token is none. -/
def Cursor.start (tokens : List Token) (nextId : Nat) : Cursor :=
  let rest := tokens.takeWhile (!·.isEnd)
  let endLine := match tokens.drop rest.length with
    | stop :: _ => stop.line
    | [] => (tokens.getLast?.map Token.line).getD 1
  ⟨rest, endLine, [], nextId⟩

/-- The next token, which is the end of input where none is left. -/
def Cursor.peek (c : Cursor) : Token :=
  c.rest.head?.getD (.endOn c.endLine)

/-- Why a reading stops before its end. -/
inductive Stop where
  | fault (fault : SyntaxFault)
  /-- The bound on the depth of the reading is used up. -/
  | tooDeep

/-- The fault with which a reading that stopped at a place is reported. -/
def Stop.report (place : Cursor) : Stop → SyntaxFault
  | .fault f => f
  | .tooDeep => ⟨.nestedTooDeeply, place.peek⟩

/-- A bound on the depth of reading that some tokens never reach. -/
def depthBound (tokens : List Token) : Nat :=
  tokens.length + 4

abbrev Reading := EStateM Stop Cursor

namespace Reading

/-- Gives up because the bound on the depth is used up. -/
def tooDeep {α : Type} : Reading α :=
  throw .tooDeep

/-- The next token, left in place. -/
def peek : Reading Token :=
  fun c => .ok c.peek c

def atEnd : Reading Bool :=
  fun c => .ok c.rest.isEmpty c

/-- Stops at the next token. -/
def failHere {α : Type} (cause : SyntaxCause) : Reading α :=
  fun c => .error (.fault ⟨cause, c.peek⟩) c

def note (cause : SyntaxCause) (token : Token) : Reading Unit :=
  fun c => .ok () { c with noted := c.noted ++ [⟨cause, token⟩] }

/-- Whether there is a next token and it passes a test. -/
def nextIs (test : Token → Bool) : Reading Bool :=
  fun c => .ok (c.rest.head?.any test) c

/-- Takes the next token if there is one and it passes a test. -/
def takeIf (test : Token → Bool) : Reading (Option Token) :=
  fun c =>
    match c.rest with
    | t :: rest => if test t then .ok (some t) { c with rest } else .ok none c
    | [] => .ok none c

def skip : Reading Unit :=
  fun c => .ok () { c with rest := c.rest.tail }

/-- A reference to a name, with an identity that no other reference has. -/
def reference (name : Token) : Reading Reference :=
  fun c => .ok ⟨c.nextId, name⟩ { c with nextId := c.nextId + 1 }

end Reading

/-- Whether a token can only be the first of a declaration or statement. -/
def Token.startsStatement (t : Token) : Bool :=
  [.classWord, .funWord, .varWord, .forWord, .ifWord, .whileWord, .printWord, .returnWord].any
    t.isKeyword

/-- The tokens after a statement boundary, `previous` being the last token passed over. -/
def resumeAfter (previous : Token) : List Token → List Token
  | [] => []
  | t :: rest =>
    if previous.isSymbol .semicolon || t.startsStatement then t :: rest else resumeAfter t rest

/-- Where reading goes on after a fault at the first of the tokens. That token is passed over, and
then all up to a semicolon or the start of a statement. -/
def resume : List Token → List Token
  | [] => []
  | t :: rest => resumeAfter t rest

namespace Reading

/-- A reading that passes over the rest of a faulty statement before it stops. -/
def recovering {α : Type} (reading : Reading α) : Reading α :=
  fun c =>
    match reading c with
    | .error (.fault f) c => .error (.fault f) { c with rest := resume c.rest }
    | result => result

/-- A reading that goes on after a fault, which is noted; nothing comes of what was read then. -/
def attempt {α : Type} (reading : Reading α) : Reading (Option α) :=
  fun c =>
    match reading c with
    | .ok a c => .ok (some a) c
    | .error (.fault f) c => .ok none { c with noted := c.noted ++ [f] }
    | .error .tooDeep c => .error .tooDeep c

end Reading

/-- The steps that the rules of the grammar are made of. A rule is written for all of their
interpretations, the first of which is to read tokens. -/
class Steps (m : Type → Type) where
  tooDeep {α : Type} : m α
  peek : m Token
  atEnd : m Bool
  failHere {α : Type} (cause : SyntaxCause) : m α
  note (cause : SyntaxCause) (token : Token) : m Unit
  nextIs (test : Token → Bool) : m Bool
  takeIf (test : Token → Bool) : m (Option Token)
  skip : m Unit
  reference (name : Token) : m Reference
  recovering {α : Type} (rule : m α) : m α
  attempt {α : Type} (rule : m α) : m (Option α)

instance : Steps Reading where
  tooDeep := Reading.tooDeep
  peek := Reading.peek
  atEnd := Reading.atEnd
  failHere := Reading.failHere
  note := Reading.note
  nextIs := Reading.nextIs
  takeIf := Reading.takeIf
  skip := Reading.skip
  reference := Reading.reference
  recovering := Reading.recovering
  attempt := Reading.attempt

namespace Reading
variable {m : Type → Type} [Monad m] [Steps m]

/-- Takes the next token if it passes a test, and tells whether it did. -/
def accept (test : Token → Bool) : m Bool :=
  return (← Steps.takeIf test).isSome

/-- Takes the next token, which has to pass a test. -/
def expect (test : Token → Bool) (what : String) : m Token := do
  match ← Steps.takeIf test with
  | some t => return t
  | none => Steps.failHere (.expected what)

def expectSymbol (s : Symbol) (what : String) : m Token :=
  expect (·.isSymbol s) what

def expectName (what : String) : m Token :=
  expect (·.kind.same .identifier) what

end Reading

end LoxLang
