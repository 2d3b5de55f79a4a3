import IncrementalLR.Grammar.Error
import IncrementalLR.Table.Basic

/-!
# Errors of tables

Parsing never fails; what fails is loading a grammar, compiling it, or reading the stored form of a
table.
-/

namespace IncrementalLR

/-- Why the stored form of a table is refused. -/
inductive TableError where
  | endOfData
  | badMagic
  | version (found : UInt32)
  | symbolKind (found : UInt8)
  | symbolOutOfRange (found : UInt16)
  | fieldOutOfRange (found : UInt16)
  | lexModeOutOfRange (found : UInt16)
  | actionTag (found : UInt8)
  | resolutionReason (found : UInt8)
  | nameNotUtf8
  | trailingBytes
  | terminalCount
  | emptyAutomaton
  | danglingAction (action : Action)
  | nestedAmbig
  | kernelItem
  /-- a token pattern of the table is no pattern -/
  | tokenPatterns
  deriving DecidableEq, Repr, Inhabited

/-- The version of the stored form. -/
def formatVersion : UInt32 := 1

def TableError.message : TableError → String
  | endOfData => "unexpected end of data"
  | badMagic => "bad magic"
  | version found =>
    "format version " ++ toString found.toNat ++ ", expected " ++ toString formatVersion.toNat
  | symbolKind found => "symbol kind " ++ toString found.toNat
  | symbolOutOfRange found => "symbol " ++ toString found.toNat ++ " out of range"
  | fieldOutOfRange found => "field " ++ toString found.toNat ++ " out of range"
  | lexModeOutOfRange found => "lex mode " ++ toString found.toNat ++ " out of range"
  | actionTag found => "action tag " ++ toString found.toNat
  | resolutionReason found => "resolution reason " ++ toString found.toNat
  | nameNotUtf8 => "name is not UTF-8"
  | trailingBytes => "trailing bytes"
  | terminalCount => "terminal count out of range"
  | emptyAutomaton => "empty automaton"
  | danglingAction action => "dangling action `" ++ action.render ++ "`"
  | nestedAmbig => "nested ambig entry"
  | kernelItem => "kernel item out of range"
  | tokenPatterns => "token patterns: error building NFA"

/-- Why there is no language. -/
inductive LanguageError where
  | malformed (cause : Malformed)
  | ambiguous (conflict : Conflict)
  | invalidTable (cause : TableError)
  deriving DecidableEq, Repr, Inhabited

def LanguageError.message : LanguageError → String
  | malformed cause => "malformed grammar: " ++ cause.message
  | ambiguous conflict => "ambiguous grammar: " ++ conflict.message
  | invalidTable cause => "invalid parse table: " ++ cause.message

end IncrementalLR
