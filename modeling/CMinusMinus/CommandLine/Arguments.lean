import CMinusMinus.Text.Numeral

/-!
# Arguments of the command line

A command line names a command or only a file. Options may stand anywhere, in a short form that may be
joined to others and to its value, or in a long form; after two dashes nothing is an option. An option
is given at most once. Where a command stands first, the rest belongs to it, so a file with the name of a
command can be named only behind one.

What the reader of arguments prints of its own is left out: the text of its help, the options that ask for
that or for the version, and the wording of errors in the usage.
-/

namespace CMinusMinus.CommandLine

/-! ## Commands -/

/-- How a program is run. -/
structure RunFlags where
  /-- The selection of passes. -/
  optimizations : String
  info : Bool
  trace : Bool
  interval : Option Nat
  depth : Option Nat
deriving DecidableEq, Repr

/-- What the command line asks for. -/
inductive Command where
  | compile (file : String) (output : Option String) (info : Bool)
  | run (file : String) (flags : RunFlags)
  | ast (file : String)
  | dump (file : String) (optimizations : String)
  /-- Compiles a file and runs the result. -/
  | compileAndRun (file : String) (flags : RunFlags)
  /-- Asks how the program is used. -/
  | help
  /-- Nothing was asked for. -/
  | nothing
deriving DecidableEq, Repr

/-- The words that are commands where they stand first. -/
def Command.words : List String :=
  ["compile", "run", "ast", "dump", "help"]

/-- Why a command line asks for nothing that could be done. -/
inductive UsageError where
  | unknownCommand (word : String)
  | unexpectedArgument (argument : String)
  | missingValue (option : String)
  | unexpectedValue (option : String)
  | repeatedOption (option : String)
  | invalidValue (option value : String)
  | missingFile
deriving DecidableEq, Repr

def UsageError.message : UsageError → String
  | unknownCommand word => s!"unrecognized subcommand '{word}'"
  | unexpectedArgument argument => s!"unexpected argument '{argument}' found"
  | missingValue option => s!"a value is required for '{option}' but none was supplied"
  | unexpectedValue option => s!"unexpected value for '{option}' found; no more were expected"
  | repeatedOption option => s!"the argument '{option}' cannot be used multiple times"
  | invalidValue option value => s!"invalid value '{value}' for '{option}'"
  | missingFile => "the following required arguments were not provided: FILE"

/-! ## Options -/

/-- The options of all commands. -/
inductive Key where
  | output | optimizations | info | trace | interval | depth
deriving DecidableEq, Repr

namespace Key

def long : Key → String
  | output => "--output"
  | optimizations => "--optimizations"
  | info => "--info"
  | trace => "--trace"
  | interval => "--gc-interval"
  | depth => "--max-depth"

/-- The letter of the short form. -/
def short? : Key → Option Char
  | output => some 'O'
  | optimizations => some 'o'
  | info => some 'i'
  | trace | interval | depth => none

/-- Whether the option has a value. -/
def hasValue : Key → Bool
  | info | trace => false
  | output | optimizations | interval | depth => true

end Key

/-- The options of running a program. -/
def runKeys : List Key := [.optimizations, .info, .trace, .interval, .depth]

/-- Options with their values, and what is not an option, in the order in which they were given. -/
structure Given where
  options : List (Key × String)
  operands : List String

namespace Given

def empty : Given := ⟨[], []⟩

def add (given : Given) (key : Key) (value : String) : Except UsageError Given :=
  if (given.options.lookup key).isSome then .error (.repeatedOption key.long)
  else .ok { given with options := given.options ++ [(key, value)] }

def addOperand (given : Given) (operand : String) : Given :=
  { given with operands := given.operands ++ [operand] }

end Given

/-- Whether an argument looks like an option. -/
def isOption (argument : String) : Bool :=
  match argument.toList with
  | '-' :: _ :: _ => true
  | _ => false

/-! ## Reading -/

section Reading

variable (keys : List Key)

/-- What an argument in the short form gives: the options, or an option whose value is the next
argument after those before it. -/
def readShort (argument : String) (given : Given) :
    List Char → Except UsageError (Given × Option Key)
  | [] => .ok (given, none)
  | c :: cs =>
    match keys.find? (·.short? == some c) with
    | none => .error (.unexpectedArgument argument)
    | some key =>
      if key.hasValue then
        match cs with
        | [] => .ok (given, some key)
        | '=' :: value => do return (← given.add key (String.ofList value), none)
        | value => do return (← given.add key (String.ofList value), none)
      else
        match cs with
        | '=' :: _ => .error (.unexpectedValue key.long)
        | cs => do readShort argument (← given.add key "") cs

/-- What an argument in the long form gives. -/
def readLong (argument : String) (given : Given) : Except UsageError (Given × Option Key) :=
  let name := String.ofList (argument.toList.takeWhile (· ≠ '='))
  let value := argument.toList.dropWhile (· ≠ '=')
  match keys.find? (·.long == name) with
  | none => .error (.unexpectedArgument argument)
  | some key =>
    match key.hasValue, value with
    | true, [] => .ok (given, some key)
    | true, _ :: value => do return (← given.add key (String.ofList value), none)
    | false, [] => do return (← given.add key "", none)
    | false, _ => .error (.unexpectedValue key.long)

/-- What one argument that looks like an option gives. -/
def readOption (argument : String) (given : Given) : Except UsageError (Given × Option Key) :=
  match argument.toList with
  | '-' :: '-' :: _ => readLong keys argument given
  | _ => readShort keys argument given (argument.toList.drop 1)

/-- Reads arguments; an option may wait for its value. -/
def readArguments (given : Given) (waiting : Option Key) : List String → Except UsageError Given
  | [] =>
    match waiting with
    | some key => .error (.missingValue key.long)
    | none => .ok given
  | argument :: rest =>
    match waiting with
    | some key =>
      if isOption argument then .error (.missingValue key.long)
      else do readArguments (← given.add key argument) none rest
    | none =>
      if argument = "--" then .ok (rest.foldl Given.addOperand given)
      else if isOption argument then do
        let (given, waiting) ← readOption keys argument given
        readArguments given waiting rest
      else
        readArguments (given.addOperand argument) none rest

end Reading

/-! ## Commands from what is given -/

namespace Given

def value? (given : Given) (key : Key) : Option String :=
  given.options.lookup key

def count? (given : Given) (key : Key) : Except UsageError (Option Nat) :=
  match given.value? key with
  | none => .ok none
  | some value =>
    match Text.readCount? value with
    | some count => .ok (some count)
    | none => .error (.invalidValue key.long value)

def path? (given : Given) (key : Key) : Except UsageError (Option String) :=
  match given.value? key with
  | some "" => .error (.invalidValue key.long "")
  | value => .ok value

/-- The only operand, if there is one. -/
def file? (given : Given) : Except UsageError (Option String) :=
  match given.operands with
  | [] => .ok none
  | [""] => .error (.invalidValue "FILE" "")
  | [file] => .ok (some file)
  | _ :: other :: _ => .error (.unexpectedArgument other)

/-- The only operand, which must be there. -/
def file (given : Given) : Except UsageError String := do
  match ← given.file? with
  | some file => return file
  | none => throw .missingFile

/-- How a program is to be run. -/
def runFlags (given : Given) : Except UsageError RunFlags := do
  return {
    optimizations := (given.value? .optimizations).getD ""
    info := (given.value? .info).isSome
    trace := (given.value? .trace).isSome
    interval := ← given.count? .interval
    depth := ← given.count? .depth }

end Given

def Command.ofArguments (arguments : List String) : Except UsageError Command := do
  match arguments with
  | "compile" :: rest =>
    let given ← readArguments [.output, .info] .empty none rest
    return .compile (← given.file) (← given.path? .output) (given.value? .info).isSome
  | "run" :: rest =>
    let given ← readArguments runKeys .empty none rest
    return .run (← given.file) (← given.runFlags)
  | "ast" :: rest =>
    let given ← readArguments [] .empty none rest
    return .ast (← given.file)
  | "dump" :: rest =>
    let given ← readArguments [.optimizations] .empty none rest
    return .dump (← given.file) ((given.value? .optimizations).getD "")
  | ["help"] => return .help
  | ["help", word] => if word ∈ words then return .help else throw (.unknownCommand word)
  | "help" :: _ :: word :: _ => throw (.unknownCommand word)
  | arguments =>
    let given ← readArguments runKeys .empty none arguments
    let flags ← given.runFlags
    match ← given.file? with
    | some file => return .compileAndRun file flags
    | none => return .nothing

end CMinusMinus.CommandLine
