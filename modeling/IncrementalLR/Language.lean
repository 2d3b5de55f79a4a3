import IncrementalLR.Grammar.Load
import IncrementalLR.Lexer.Streaming
import IncrementalLR.Table.Compile
import IncrementalLR.Table.Decode

/-!
# Languages

A language is a table with the lexer made from it, and an external scanner if it has one.
-/

namespace IncrementalLR

structure Language where
  table : Table
  lexer : Lexer
  scanner : Option ExternalScanner := none
  /-- findings from loading the grammar; a stored table keeps none -/
  warnings : List GrammarWarning := []
  /-- tells languages apart that are in use together -/
  id : Nat := 0

namespace Language

def ofTable (t : Table) (warnings : List GrammarWarning) : Except LanguageError Language := do
  let lexer ← (Lexer.ofTable t).mapError LanguageError.invalidTable
  return { table := t, lexer := lexer, warnings := warnings }

/-- The language of a loaded grammar. -/
def ofGrammar (g : Grammar) (policy : ConflictPolicy) : Except LanguageError Language := do
  let t ← (Table.compile g policy).mapError LanguageError.ambiguous
  ofTable t g.warnings

/-- Loads and compiles a definition. -/
def load (g : GrammarDef) (policy : ConflictPolicy) : Except LanguageError Language := do
  ofGrammar (← (Grammar.load g).mapError LanguageError.malformed) policy

/-- The language of a stored table. -/
def ofBytes (bytes : List UInt8) : Except LanguageError Language := do
  ofTable (← (Table.decode bytes).mapError LanguageError.invalidTable) []

/-- Whether two languages in use together are one; equal tables do not make them so. -/
def isSame (a b : Language) : Bool := a.id == b.id

def toBytes (l : Language) : List UInt8 := l.table.encode

def withScanner (l : Language) (scanner : ExternalScanner) : Language :=
  { l with scanner := some scanner }

def lex (l : Language) (text : ByteArray) (position : Nat) (mode : LexMode) : Lexed :=
  l.lexer.lex text position mode l.scanner

def lexFrom (l : Language) (input : Text.Input) (position : Nat) (mode : LexMode) :
    Lexed × Text.Input :=
  l.lexer.lexFrom input position mode l.scanner

/-- A summary of a language. -/
def describe (l : Language) : String :=
  "Language \x7b name: " ++ Text.quoted l.table.name ++
    ", symbols: " ++ toString l.table.symbolCount ++ ", states: " ++ toString l.table.stateCount ++
    ", external_scanner: " ++ (if l.scanner.isSome then "true" else "false") ++ " \x7d"

end Language

end IncrementalLR
