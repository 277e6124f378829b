import LoxLang.Diagnostic
import LoxLang.Machine.Step
import LoxLang.Syntax.Statement

/-!
Sessions. A session runs one source after the other in the same world: globals, functions and
distances stay, and diagnostics stay until they are reset. `Session.load` takes a source as far as
it can be taken without running it, and `Session.run?` runs what was loaded. A source with a static
error, or one that comes after a static error that was not reset, is not run.
-/
namespace LoxLang

/-- A session: its world, its log and the identity of the next reference. -/
structure Session where
  world : World
  log : Log
  nextId : Nat

namespace Session

def fresh (sink : Sink) (clock : Clock) : Session :=
  ⟨.fresh sink clock, .empty, 0⟩

def reset (s : Session) : Session :=
  { s with log := .empty }

/-- Reports faults of one stage. -/
def reportAll (s : Session) (ds : List Diagnostic) : Session :=
  { s with log := s.log.reportAll ds }

/-- Reads the tokens of a source and surveys its names; the program is given only if nothing stands
against running it, and its distances are recorded then. -/
def loadTokens (s : Session) (tokens : List Token) : Session × Option (List Stmt) :=
  let (items, nextId) := programItems tokens s.nextId
  let s := { s with nextId }
  match programOfItems items with
  | .error faults => (s.reportAll (faults.map .ofSyntax), none)
  | .ok program =>
    if s.log.hadError then (s, none)
    else match survey program with
      | .error faults => (s.reportAll (faults.map .binding), none)
      | .ok found => ({ s with world := s.world.record found }, some program)

/-- Takes a source as far as it can be taken without running it. -/
def load (s : Session) (source : List UInt8) : Session × Option (List Stmt) :=
  let (tokens, faults) := tokenize source
  (s.reportAll (faults.map .ofLexical)).loadTokens tokens

/-- The session after a program has come to its end in a world. -/
def concluded (log : Log) (nextId : Nat) (fault : Option RuntimeFault) (world : World) : Session :=
  ⟨world, log.reportAll (fault.toList.map .runtime), nextId⟩

/-- Runs a source, its program within some steps. -/
def run? (fuel : Nat) (s : Session) (source : List UInt8) : Option Session :=
  match s.load source with
  | (s, none) => some s
  | (⟨world, log, nextId⟩, some program) =>
    (world.interpret? fuel program).map fun (fault, world) => concluded log nextId fault world

end Session

/-- Evaluates a source that holds a single expression, all names in it being global. Only the first
lexical fault is reported. -/
def evaluateSource? (fuel : Nat) (w : World) (source : List UInt8) :
    Option (Except Diagnostic Value) :=
  match tokenize source with
  | (_, fault :: _) => some (.error (.ofLexical fault))
  | (tokens, []) =>
    match (expressionOfTokens tokens 0).1 with
    | .error fault => some (.error (.ofSyntax fault))
    | .ok e => (w.evaluate? fuel e).map fun (result, _) => result.mapError .runtime

end LoxLang
