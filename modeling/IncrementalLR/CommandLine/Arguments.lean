import IncrementalLR.Automaton.Conflict

/-!
# Arguments of the command line
-/

namespace IncrementalLR.CommandLine

/-- The grammar that a command is about. -/
structure GrammarChoice where
  path : String
  policy : ConflictPolicy

inductive Command where
  /-- compile a grammar and report how its conflicts were settled -/
  | check (grammar : GrammarChoice)
  /-- print the compiled table -/
  | dump (grammar : GrammarChoice)
  /-- write the package of a grammar -/
  | generate (grammar : GrammarChoice) (directory name : String)
  /-- parse a file and print its tree -/
  | parse (grammar : GrammarChoice) (input : String)
  /-- parse files in TTCN-3; quietly, only those with errors are named -/
  | ttcn3 (quiet : Bool) (inputs : List String)

inductive UsageError where
  | noCommand
  | unknownCommand (name : String)
  | unknownOption (name : String)
  | missingValue (option : String)
  | missingArgument (name : String)
  | unexpectedArgument (argument : String)
  deriving DecidableEq, Repr, Inhabited

def UsageError.message : UsageError → String
  | noCommand => "a subcommand is required: check, dump, generate, parse or ttcn3"
  | unknownCommand name => "unrecognized subcommand '" ++ name ++ "'"
  | unknownOption name => "unexpected argument '" ++ name ++ "' found"
  | missingValue option => "a value is required for '" ++ option ++ "' but none was supplied"
  | missingArgument name => "the required argument " ++ name ++ " was not provided"
  | unexpectedArgument argument => "unexpected argument '" ++ argument ++ "' found"

/-- The arguments behind a command, sorted. -/
structure Options where
  grammar : Option String := none
  preferShift : Bool := false
  directory : Option String := none
  name : Option String := none
  quiet : Bool := false
  inputs : List String := []
  deriving DecidableEq, Repr, Inhabited

namespace Options

/-- Sorts arguments. An option with a value takes the next argument. -/
def read (options : Options) : List String → Except UsageError Options
  | [] => .ok options
  | "--prefer-shift" :: rest => read { options with preferShift := true } rest
  | "-q" :: rest => read { options with quiet := true } rest
  | "--quiet" :: rest => read { options with quiet := true } rest
  | [option] =>
    if valued option then .error (.missingValue option)
    else if option.startsWith "-" then .error (.unknownOption option)
    else .ok { options with inputs := options.inputs ++ [option] }
  | option :: value :: rest =>
    if option = "-g" ∨ option = "--grammar" then read { options with grammar := some value } rest
    else if option = "-o" ∨ option = "--output-dir" then
      read { options with directory := some value } rest
    else if option = "-n" ∨ option = "--name" then read { options with name := some value } rest
    else if option.startsWith "-" then .error (.unknownOption option)
    else read { options with inputs := options.inputs ++ [option] } (value :: rest)
where
  valued (option : String) : Bool :=
    ["-g", "--grammar", "-o", "--output-dir", "-n", "--name"].contains option

def required {α : Type} (name : String) (value : Option α) : Except UsageError α :=
  match value with
  | some a => .ok a
  | none => .error (.missingArgument name)

def choice (options : Options) : Except UsageError GrammarChoice := do
  let path ← required "--grammar" options.grammar
  return ⟨path, if options.preferShift then .preferShift else .strict⟩

def noInputs (options : Options) : Except UsageError Unit :=
  match options.inputs with
  | [] => .ok ()
  | argument :: _ => .error (.unexpectedArgument argument)

end Options

/-- The command that arguments stand for. -/
def Command.read (arguments : List String) : Except UsageError Command := do
  match arguments with
  | [] => .error .noCommand
  | command :: rest =>
    let options ← ({} : Options).read rest
    match command with
    | "check" =>
      options.noInputs
      return .check (← options.choice)
    | "dump" =>
      options.noInputs
      return .dump (← options.choice)
    | "generate" =>
      options.noInputs
      return .generate (← options.choice) (← Options.required "--output-dir" options.directory)
        (← Options.required "--name" options.name)
    | "parse" =>
      match options.inputs with
      | [] => .error (.missingArgument "INPUT")
      | [input] => return .parse (← options.choice) input
      | _ :: argument :: _ => .error (.unexpectedArgument argument)
    | "ttcn3" =>
      if options.inputs.isEmpty then .error (.missingArgument "INPUTS")
      else return .ttcn3 options.quiet options.inputs
    | name => .error (.unknownCommand name)

end IncrementalLR.CommandLine
