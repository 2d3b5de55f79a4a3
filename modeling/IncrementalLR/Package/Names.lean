import IncrementalLR.Table.Basic

/-!
# Names of variants

The symbols and fields of a table become variants of enumerations. A rule gets its name in capitals
and lower case, a keyword the same behind `Kw`, and punctuation is spelled out. A name that is taken
already gets the number of its symbol.
-/

namespace IncrementalLR.Package

/-- The spellings of punctuation. -/
def punctuation : List (Char × String) := [
  ('.', "Dot"), ('-', "Minus"), ('~', "Tilde"), ('\x60', "Backtick"), ('!', "Exclamation"),
  ('@', "At"), ('#', "Hash"), ('$', "Dollar"), ('%', "Percent"), ('^', "Caret"),
  ('&', "Ampersand"), ('*', "Asterisk"), ('+', "Plus"), ('=', "Equals"), ('|', "Pipe"),
  ('\x5c', "Backslash"), ('<', "LessThan"), ('>', "GreaterThan"), ('?', "Question"),
  ('/', "Slash"), (';', "Semicolon"), ('(', "LeftParen"), (')', "RightParen"),
  ('[', "LeftBrack"), (']', "RightBrack"), ('\x7b', "LeftBrace"), ('\x7d', "RightBrace"),
  (',', "Comma"), ('\x27', "SingleQuote"), ('\x22', "DoubleQuote"), (':', "Colon")]

/-- The ASCII letters and digits, with a capital at the start of each run of them. -/
def pascalChars (atStart : Bool) : List Char → List Char
  | [] => []
  | c :: rest =>
    if c.isAlphanum then (if atStart then c.toUpper else c) :: pascalChars false rest
    else pascalChars true rest

def pascalCase (name : String) : String := String.ofList (pascalChars true name.toList)

/-- A code point in at least four capital hexadecimal digits. -/
def codePoint (c : Char) : String :=
  let digits := (Nat.toDigits 16 c.toNat).map Char.toUpper
  String.ofList (List.replicate (4 - digits.length) '0' ++ digits)

/-- How one character of a literal is spelled. -/
def spellChar (c : Char) : String :=
  match punctuation.lookup c with
  | some name => name
  | none => if c.isAlphanum then c.toUpper.toString else "U" ++ codePoint c

/-- The name for a literal. -/
def literalName (text : String) : String :=
  if !text.isEmpty && text.toList.all (fun c => c.isAlphanum || c = '_') then
    "Kw" ++ pascalCase text
  else String.join (text.toList.map spellChar)

/-- A name that may stand as an identifier. -/
def identifierOf (name : String) : String :=
  if name.isEmpty || (name.toList.head?).any Char.isDigit || name == "Self" then "T" ++ name else name

/-- The name of a symbol before clashes are settled. -/
def proposedName (i : Nat) (info : SymbolInfo) : String :=
  identifierOf <|
    if i = 0 then "End"
    else if !info.named && info.visible then literalName info.name
    else pascalCase info.name

/-- A variant of an enumeration. -/
structure Variant where
  number : Nat
  name : String
  /-- what the variant stands for -/
  label : String
  deriving DecidableEq, Repr, Inhabited

/-- Names symbols in order. A name that is used already is followed by the number of the symbol. -/
def nameSymbols (used : List String) : List (SymbolInfo × Nat) → List Variant
  | [] => []
  | (info, i) :: rest =>
    if info.kind = .auxiliary then nameSymbols used rest
    else
      let proposed := proposedName i info
      let name := if used.contains proposed then proposed ++ toString i else proposed
      ⟨i, name, info.name⟩ :: nameSymbols (name :: used) rest

/-- The variants for the symbols of a table; auxiliary symbols have none. -/
def kindVariants (t : Table) : List Variant := nameSymbols [] t.symbols.toList.zipIdx

/-- The variants for the fields of a table. -/
def fieldVariants (t : Table) : List Variant :=
  t.fields.toList.zipIdx.map fun (field, i) => ⟨i, pascalCase field, field⟩

end IncrementalLR.Package
