import IncrementalLR.GrammarText.Reader
import IncrementalLR.Language
import IncrementalLR.Package.Module
import IncrementalLR.Text.Utf8

/-!
# Grammar packages

A package is the stored table of a grammar file and the module that embeds it.
-/

namespace IncrementalLR

/-- Why the text of a file can not be had. -/
inductive FileFailure where
  | notFound
  | notUtf8
  /-- anything else, in the words of the system -/
  | other (reason : String)
  deriving DecidableEq, Repr, Inhabited

def FileFailure.message : FileFailure → String
  | notFound => "No such file or directory (os error 2)"
  | notUtf8 => "stream did not contain valid UTF-8"
  | other reason => reason

/-- Why a grammar file makes no package. -/
inductive PackageError where
  | unreadable (path : String) (failure : FileFailure)
  | illFormed (path : String) (cause : GrammarText.ReadError)
  | rejected (path : String) (cause : LanguageError)
  deriving Inhabited

/-- The message and its causes, separated by colons. A malformed grammar is the cause of the error
that it leads to, so its message comes twice. -/
def PackageError.message : PackageError → String
  | unreadable path failure => "cannot read grammar " ++ path ++ ": " ++ failure.message
  | illFormed path cause => "in " ++ path ++ ": " ++ cause.message
  | rejected path cause =>
    "in " ++ path ++ ": " ++ cause.message ++
      match cause with
      | .malformed reason => ": " ++ reason.message
      | .ambiguous _ | .invalidTable _ => ""

/-- A file with a grammar: its path, and its bytes unless they can not be read. -/
structure GrammarFile where
  path : String
  content : Except FileFailure ByteArray

namespace GrammarFile

/-- The last part of a path, if that is a name. -/
def fileName? (path : String) : Option String :=
  match ((path.splitOn "/").filter fun part => part ≠ "" ∧ part ≠ ".").getLast? with
  | none => none
  | some name => if name = ".." then none else some name

/-- The part of a file name in front of its last dot. A dot in front does not count. -/
def stem (name : String) : String :=
  let parts := name.splitOn "."
  let stem := ".".intercalate parts.dropLast
  if stem.isEmpty then name else stem

/-- The name of a grammar that does not give one. -/
def defaultName (path : String) : String := ((fileName? path).map stem).getD "grammar"

def text (file : GrammarFile) : Except PackageError String := do
  let bytes ← file.content.mapError (PackageError.unreadable file.path)
  (Text.ofUtf8 bytes).mapError fun _ => .unreadable file.path .notUtf8

def definition (file : GrammarFile) : Except PackageError GrammarDef := do
  (GrammarText.read (← file.text) (defaultName file.path)).mapError
    (PackageError.illFormed file.path)

def language (file : GrammarFile) (policy : ConflictPolicy) : Except PackageError Language := do
  (Language.load (← file.definition) policy).mapError (PackageError.rejected file.path)

end GrammarFile

/-- The two files of a package. -/
structure Package where
  tableFile : String
  table : List UInt8
  moduleFile : String
  source : String
  deriving Inhabited

namespace Package

/-- The package of a language; both files have the same name and their own endings. -/
def ofLanguage (l : Language) (name : String) : Package :=
  let tableFile := name ++ ".bin"
  { tableFile := tableFile
    table := l.toBytes
    moduleFile := name ++ ".rs"
    source := moduleText l.table tableFile }

end Package

end IncrementalLR
