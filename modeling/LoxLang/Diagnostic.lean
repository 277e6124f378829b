import LoxLang.Binding.Survey
import LoxLang.Machine.Fault
import LoxLang.Syntax.Cursor
import LoxLang.Text.Utf8
import LoxLang.Token.Lexing

/-!
Diagnostics: everything that can be reported, its text and its line. A `Log` keeps what has been
reported in order, tells static errors from runtime errors, and gives the exit status, in which a
runtime error outranks a static one.
-/
namespace LoxLang

/-- Something to report. -/
inductive Diagnostic where
  | lexical (line : Nat) (message : String)
  | grammar (token : Token) (message : String)
  | binding (fault : BindingFault)
  | runtime (fault : RuntimeFault)
  | file (message : String)
  | encoding (fault : Utf8.Fault)

/-- The words for the place of a token. -/
def Token.place (t : Token) : String :=
  if t.isEnd then " at end" else " at '" ++ t.lexeme ++ "'"

namespace Diagnostic

def ofLexical (f : LexicalFault) : Diagnostic :=
  .lexical f.line f.cause.message

def ofSyntax (f : SyntaxFault) : Diagnostic :=
  .grammar f.token f.cause.message

/-- The text of an error at a place of the source. -/
def located (line : Nat) (place message : String) : String :=
  "[line " ++ toString line ++ "] Error" ++ place ++ ": " ++ message

def text : Diagnostic → String
  | .lexical line message => located line "" message
  | .grammar token message => located token.line token.place message
  | .binding f => located f.token.line f.token.place f.cause.message
  | .runtime f => f.cause.message ++ "\n[line " ++ toString f.line ++ "]"
  | .file message => message
  | .encoding f => f.message

/-- The line of a diagnostic that has one. -/
def line? : Diagnostic → Option Nat
  | .lexical line _ => some line
  | .grammar token _ => some token.line
  | .binding f => some f.token.line
  | .runtime f => some f.line
  | .file _ => none
  | .encoding _ => none

/-- Whether it was found before anything ran. -/
def isStatic : Diagnostic → Bool
  | .lexical _ _ => true
  | .grammar _ _ => true
  | .binding _ => true
  | _ => false

/-- Whether it ended a running program. -/
def isRuntime : Diagnostic → Bool
  | .runtime _ => true
  | _ => false

end Diagnostic

/-- The diagnostics since the last reset, in order. -/
structure Log where
  entries : List Diagnostic

namespace Log

def empty : Log := ⟨[]⟩

def report (log : Log) (d : Diagnostic) : Log :=
  ⟨log.entries ++ [d]⟩

def reportAll (log : Log) (ds : List Diagnostic) : Log :=
  ⟨log.entries ++ ds⟩

def hadError (log : Log) : Bool :=
  log.entries.any Diagnostic.isStatic

def hadRuntimeError (log : Log) : Bool :=
  log.entries.any Diagnostic.isRuntime

/-- The exit status that the diagnostics ask for. -/
def exitStatus? (log : Log) : Option Nat :=
  if log.hadRuntimeError then some 70 else if log.hadError then some 65 else none

end Log

end LoxLang
