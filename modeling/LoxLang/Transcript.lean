import LoxLang.Command
import LoxLang.Session
import LoxLang.Syntax.Outline
import LoxLang.Text.Quoted
import LoxLang.Token.Listing

/-!
What commands write. Each command is a function from a source to a `Transcript`: what goes to the
two output streams, and the exit status. The prompt runs every line of the input in one session and
forgets its diagnostics after showing them.
-/
namespace LoxLang

/-- What a command writes, and the exit status that it ends with. -/
structure Transcript where
  stdout : String
  stderr : String
  exitStatus : Nat
  deriving DecidableEq, Repr

def unlines (lines : List String) : String :=
  String.join (lines.map (· ++ "\n"))

/-- Diagnostics, one after the other, each with a line feed after it. -/
def showDiagnostics (ds : List Diagnostic) : String :=
  unlines (ds.map Diagnostic.text)

/-- The transcript of an action that failed for an outer cause. -/
def Transcript.failure (action cause : String) : Transcript :=
  ⟨"", "Error: " ++ action ++ "\n\nCaused by:\n    " ++ cause ++ "\n", 1⟩

/-! ## Commands on one source -/

/-- Lists the tokens of a source, as lines or as data. -/
def tokenizeTranscript (asData : Bool) (source : List UInt8) : Transcript :=
  let (tokens, faults) := tokenize source
  let lines := if asData then [Token.listing tokens] else tokens.map Token.display
  ⟨unlines lines, showDiagnostics (faults.map .ofLexical), if faults.isEmpty then 0 else 65⟩

/-- Shows the outlines of the declarations of a source. -/
def outlineTranscript (source : List UInt8) : Transcript :=
  let (tokens, faults) := tokenize source
  let items := (programItems tokens 0).1
  let errors :=
    faults.map Diagnostic.ofLexical
      ++ (items.filterMap ProgramItem.fault?).map Diagnostic.ofSyntax
  ⟨unlines ((items.filterMap ProgramItem.declaration?).map Stmt.outline), showDiagnostics errors,
    if errors.isEmpty then 0 else 65⟩

/-- Shows the value of a source that holds a single expression. -/
def evaluateTranscript? (fuel : Nat) (clock : Clock) (source : List UInt8) : Option Transcript :=
  (evaluateSource? fuel (.fresh (.ofRoom none) clock) source).map fun
    | .ok v => ⟨unlines [v.text], "", 0⟩
    | .error d => ⟨"", showDiagnostics [d], if d.isRuntime then 70 else 65⟩

/-- What a session has printed and reported since it was fresh. -/
def Session.transcript (s : Session) : Transcript :=
  ⟨unlines s.world.sink.lines.toList, showDiagnostics s.log.entries, s.log.exitStatus?.getD 0⟩

def runTranscript? (fuel : Nat) (clock : Clock) (source : List UInt8) : Option Transcript :=
  ((Session.fresh (.ofRoom none) clock).run? fuel source).map Session.transcript

/-! ## The prompt -/

/-- What is shown before a line is read. -/
def promptText : String := "> "

/-- The failure of the prompt on input that is not text. -/
def promptFailure : Transcript :=
  .failure "Failed to read from stdin" "stream did not contain valid UTF-8"

/-- The session that goes on after a line: nothing printed and nothing reported. -/
def Session.nextLine (s : Session) : Session :=
  { s.reset with world := { s.world with sink := .ofRoom none } }

/-- Puts a byte in front of the first of some lines. -/
def consLine (b : UInt8) : List (List UInt8) → List (List UInt8)
  | [] => [[b]]
  | line :: rest => (b :: line) :: rest

/-- The lines of an input, each with its line feed; the last one may lack it. -/
def inputLines : List UInt8 → List (List UInt8)
  | [] => []
  | b :: rest =>
    if b == Lexing.lineFeed then [b] :: inputLines rest else consLine b (inputLines rest)

/-- Runs lines in a session, with a prompt before each and before the end. -/
def promptTranscript? (fuel : Nat) (s : Session) : List (List UInt8) → Option Transcript
  | [] => some ⟨promptText, "", 0⟩
  | line :: rest =>
    match Utf8.decode line with
    | .error _ => some { promptFailure with stdout := promptText }
    | .ok _ => do
      let s ← s.run? fuel line
      let later ← promptTranscript? fuel s.nextLine rest
      return ⟨promptText ++ s.transcript.stdout ++ later.stdout,
        s.transcript.stderr ++ later.stderr, later.exitStatus⟩

/-! ## All commands -/

/-- Why the contents of a file cannot be had. -/
inductive FileFault where
  | missing
  | forbidden
  /-- A name before a slash is not that of a directory. -/
  | notDirectory
  | nameTooLong
  /-- It can be opened, but it is a directory. -/
  | directory
  | other (cause : String)
  deriving DecidableEq, Repr

/-- What failed, of a file fault. -/
def FileFault.action : FileFault → String
  | .directory => "Failed to map file "
  | _ => "Failed to open file "

/-- The outer cause of a file fault. -/
def FileFault.cause : FileFault → String
  | .missing => "No such file or directory (os error 2)"
  | .forbidden => "Permission denied (os error 13)"
  | .notDirectory => "Not a directory (os error 20)"
  | .nameTooLong => "File name too long (os error 36)"
  | .directory => "No such device (os error 19)"
  | .other cause => cause

/-- The transcript of a command that needs the contents of a file. -/
def onFile (files : String → Except FileFault (List UInt8)) (file : String)
    (transcript? : List UInt8 → Option Transcript) : Option Transcript :=
  match files file with
  | .ok source => transcript? source
  | .error fault => some (.failure (fault.action ++ Quoted.encode file) fault.cause)

/-- The transcript of a command, `files` giving the contents of a file or the reason why they cannot
be had. -/
def Command.transcript? (fuel : Nat) (clock : Clock)
    (files : String → Except FileFault (List UInt8)) (stdin : List UInt8) :
    Command → Option Transcript
  | .tokenize file asData => onFile files file fun source => some (tokenizeTranscript asData source)
  | .outline file => onFile files file fun source => some (outlineTranscript source)
  | .evaluate file => onFile files file (evaluateTranscript? fuel clock)
  | .run file => onFile files file (runTranscript? fuel clock)
  | .prompt => promptTranscript? fuel (.fresh (.ofRoom none) clock) (inputLines stdin)
  | .version => some ⟨"rox 0.1.0\n", "", 0⟩
  | .misuse => some ⟨"", "error: unrecognized arguments\n", 2⟩

end LoxLang
