import IncrementalLR.CommandLine.Arguments
import IncrementalLR.CommandLine.Report
import IncrementalLR.Package.Basic
import IncrementalLR.Ttcn3.Scanner

/-!
# The command line

Commands to check grammars, to list and store their tables, and to parse files.
-/

namespace IncrementalLR.CommandLine

/-- Reads a file. A file that is not there is told apart from other failures. -/
def readFile (path : String) : IO (Except FileFailure ByteArray) := do
  try
    return .ok (← IO.FS.readBinFile path)
  catch e =>
    match e with
    | .noFileOrDirectory .. => return .error .notFound
    | e => return .error (.other (toString e))

/-- Fails with a message. -/
def orFail {ε α : Type} (message : ε → String) : Except ε α → IO α
  | .ok a => pure a
  | .error e => throw (IO.userError (message e))

def loadLanguage (choice : GrammarChoice) : IO Language := do
  let file : GrammarFile := ⟨choice.path, ← readFile choice.path⟩
  let l ← orFail PackageError.message (file.language choice.policy)
  for warning in l.warnings do
    IO.eprintln (choice.path ++ ": " ++ warning.message)
  return l

def parseFile (p : Parser) (path : String) : IO Outcome := do
  let text ← orFail (fun failure => "cannot read " ++ path ++ ": " ++ failure.message)
    (← readFile path)
  let parsed := p.parse text none 0
  if parsed.tree.status ≠ .complete then
    IO.eprintln (path ++ ": parse ended early: " ++ parsed.tree.status.name)
  return ⟨path, parsed.tree⟩

def failWith : Option String → IO Unit
  | none => pure ()
  | some message => throw (IO.userError message)

def Command.run : Command → IO Unit
  | .check grammar => do
    for line in checkReport (← loadLanguage grammar) do
      IO.println line
  | .dump grammar => do
    IO.print (Package.unlines (Table.Listing.all (← loadLanguage grammar).table))
  | .generate grammar directory name => do
    let package := Package.ofLanguage (← loadLanguage grammar) name
    IO.FS.createDirAll directory
    IO.FS.writeBinFile (directory ++ "/" ++ package.tableFile) ⟨package.table.toArray⟩
    IO.FS.writeFile (directory ++ "/" ++ package.moduleFile) package.source
  | .parse grammar input => do
    let outcome ← parseFile (Parser.ofLanguage (← loadLanguage grammar)) input
    IO.println outcome.sexp
    failWith outcome.failure?
  | .ttcn3 quiet inputs => do
    let l ← orFail LanguageError.message Ttcn3.language
    let parser := Parser.ofLanguage l
    let mut outcomes := []
    for input in inputs do
      let outcome ← parseFile parser input
      for line in outcome.lines quiet do
        IO.println line
      outcomes := outcomes ++ [outcome]
    failWith (Outcome.failureOf? outcomes)

end IncrementalLR.CommandLine

open IncrementalLR.CommandLine in
/-- Runs the command that the arguments stand for. Usage errors end with 2, all others with 1. -/
def main (arguments : List String) : IO UInt32 := do
  match Command.read arguments with
  | .error e =>
    IO.eprintln ("error: " ++ e.message)
    return 2
  | .ok command =>
    try
      command.run
      return 0
    catch e =>
      IO.eprintln ("Error: " ++ toString e)
      return 1
