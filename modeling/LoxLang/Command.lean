/-!
Commands, and how arguments ask for them. A request for a log may stand in front of a command's name
and once among the arguments after it. What follows `--` is never an option.
-/
namespace LoxLang

inductive Command where
  | tokenize (file : String) (asData : Bool)
  | outline (file : String)
  | evaluate (file : String)
  | run (file : String)
  | prompt
  | version
  | misuse
  deriving DecidableEq, Repr

/-- Whether an argument is an option; a hyphen alone is an operand. -/
def isOption (argument : String) : Bool :=
  argument.toList.head? == some '-' && argument != "-"

/-- The options and the operands among arguments. A known option may be given once, an unknown one
never. -/
def sortArguments? (known : List String) : List String → Option (List String × List String)
  | [] => some ([], [])
  | "--" :: rest => some ([], rest)
  | argument :: rest =>
    if isOption argument then
      if known.contains argument then
        (sortArguments? (known.erase argument) rest).map fun (options, operands) =>
          (argument :: options, operands)
      else none
    else
      (sortArguments? known rest).map fun (options, operands) => (options, argument :: operands)

namespace Command

/-- The command of a name and the arguments after it. A file's name is not empty. -/
def named (name : String) (rest : List String) : Command :=
  let known := if name == "tokenize" then ["--log", "--json"] else ["--log"]
  match sortArguments? known rest with
  | none => .misuse
  | some (options, operands) =>
    if operands.contains "" then .misuse
    else match name, operands with
      | "tokenize", [file] => .tokenize file (options.contains "--json")
      | "parse", [file] => .outline file
      | "evaluate", [file] => .evaluate file
      | "run", [file] => .run file
      | "repl", [] => .prompt
      | _, _ => .misuse

/-- Whether an argument asks for the version; letters after the short form do not count. -/
def asksVersion (argument : String) : Bool :=
  argument == "--version" || argument.toList.take 2 == ['-', 'V']

/-- The command of arguments that do not begin with a request for a log. -/
def ofUnlogged : List String → Command
  | [] => .prompt
  | ["--"] => .prompt
  | first :: rest => if asksVersion first then .version else named first rest

def ofArguments : List String → Command
  | "--log" :: rest => ofUnlogged rest
  | arguments => ofUnlogged arguments

end Command

end LoxLang
