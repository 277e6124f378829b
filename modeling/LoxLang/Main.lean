import Std.Time.DateTime.Timestamp
import LoxLang.Transcript

/-!
The program at the terminal: it reads the arguments, files and input lines, and writes what the
commands of the library yield. A program's lines are written while it runs.
-/
namespace LoxLang.Terminal

/-- The most steps taken between two looks at the printed lines. -/
def stride : Nat := 4096

/-- More steps than a program takes that ends. -/
def fuel : Nat := 1000000000000000000

/-- The code of a directory that is read like a file. -/
def directoryCode : UInt32 := 21

/-- The fault that an error of the system stands for. -/
def fileFault : IO.Error → FileFault
  | .noFileOrDirectory _ _ _ => .missing
  | .permissionDenied _ _ _ => .forbidden
  | .inappropriateType _ code _ => if code == directoryCode then .directory else .notDirectory
  | .invalidArgument _ _ _ => .nameTooLong
  | error => .other (toString error)

/-- The contents of a file, or the reason why they cannot be had. -/
def readFile (file : String) : IO (Except FileFault (List UInt8)) := do
  try
    return .ok (← IO.FS.readBinFile file).toList
  catch error =>
    return .error (fileFault error)

def now : IO Float := do
  return Float.ofInt (← Std.Time.Timestamp.now).toMillisecondsSinceUnixEpoch.val / 1000

/-- Writes the lines that a sink has taken, and empties it. -/
def flushSink (m : Machine) : IO Machine := do
  let stdout ← IO.getStdout
  for line in m.world.sink.lines do
    stdout.putStr (line ++ "\n")
  stdout.flush
  return { m with world := { m.world with sink := .ofRoom none } }

partial def drive (m : Machine) : IO Machine := do
  let clock := Clock.standing (← now)
  let m := Machine.run stride { m with world := { m.world with clock } }
  let finished := m.outcome?.isSome
  let m ← flushSink m
  if finished then return m else drive m

def runSource (s : Session) (source : List UInt8) : IO Session := do
  match s.load source with
  | (s, none) => return s
  | (s, some program) =>
    let m ← drive (s.world.program program)
    let fault := match m.outcome? with
      | some (.fault f) => some f
      | _ => none
    return .concluded s.log s.nextId fault m.world

/-- A line of the input with its line feed; empty at the end. -/
partial def readLine (stdin : IO.FS.Stream) (before : List UInt8) : IO (List UInt8) := do
  let chunk ← stdin.read 1
  match chunk.toList with
  | [] => return before.reverse
  | b :: _ =>
    if b == Lexing.lineFeed then return (b :: before).reverse
    else readLine stdin (b :: before)

def write (t : Transcript) : IO UInt32 := do
  let stdout ← IO.getStdout
  stdout.putStr t.stdout
  stdout.flush
  (← IO.getStderr).putStr t.stderr
  return t.exitStatus.toUInt32

/-- Runs input lines in a session until the input ends. -/
partial def prompt (s : Session) : IO UInt32 := do
  discard (write ⟨promptText, "", 0⟩)
  let line ← readLine (← IO.getStdin) []
  if line.isEmpty then return 0
  match Utf8.decode line with
  | .error _ => write promptFailure
  | .ok _ =>
    let s ← runSource s line
    discard (write s.transcript)
    prompt s.nextLine

def perform (command : Command) : IO UInt32 := do
  let clock := Clock.standing (← now)
  match command with
  | .prompt => prompt (.fresh (.ofRoom none) clock)
  | .run file =>
    match ← readFile file with
    | .error _ => finish command file
    | .ok source => write (← runSource (.fresh (.ofRoom none) clock) source).transcript
  | .tokenize file _ => finish command file
  | .outline file => finish command file
  | .evaluate file => finish command file
  | .version => finish command ""
  | .misuse => finish command ""
where
  /-- Carries out a command that writes only at its end. -/
  finish (command : Command) (file : String) : IO UInt32 := do
    let contents ← if file.isEmpty then pure (.ok []) else readFile file
    let clock := Clock.standing (← now)
    match command.transcript? fuel clock (fun _ => contents) [] with
    | some t => write t
    | none => return 1

end LoxLang.Terminal

def main (arguments : List String) : IO UInt32 :=
  LoxLang.Terminal.perform (LoxLang.Command.ofArguments arguments)
