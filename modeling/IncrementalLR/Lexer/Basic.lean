import IncrementalLR.Lexer.Scanner
import IncrementalLR.Pattern.Automaton
import IncrementalLR.Table.Error
import IncrementalLR.Text.Position
import Std.Data.HashMap

/-!
# The lexer

All patterns of a language are one automaton, run from the place of the token. The longest match of
a pattern that is valid in the lex mode wins; what skips match goes into the padding of the token.
When no pattern matches, the external scanner is asked, then the mode of errors is tried, and at
last one byte is taken as an error.
-/

namespace IncrementalLR

/-- One token. -/
structure Lexed where
  /-- `Symbol.eof` at the end of input, `Symbol.error` for a byte that fits nowhere -/
  symbol : Symbol
  /-- what was passed over in front of the token -/
  padding : Length
  size : Length
  /-- how far behind the token the text was looked at -/
  lookaheadBytes : Nat
  mode : LexMode
  deriving DecidableEq, Repr, Inhabited

inductive PatternKind where
  | token (symbol : Symbol) (literal : Bool)
  | skip
  deriving DecidableEq, Repr, Inhabited

/-- A match of a pattern. -/
structure Candidate where
  kind : PatternKind
  size : Nat
  deriving DecidableEq, Repr, Inhabited

namespace Candidate

/-- Longer matches come first, then tokens before skips, literals before patterns, and lower symbols
before higher ones. -/
def beats (a b : Candidate) : Bool :=
  if a.size ≠ b.size then a.size > b.size
  else
    match a.kind, b.kind with
    | .skip, _ => false
    | .token _ _, .skip => true
    | .token s literal, .token s' literal' =>
      if literal ≠ literal' then literal else s.id < s'.id

end Candidate

structure Lexer where
  automaton : Pattern.Automaton
  /-- the kind of each pattern of the automaton -/
  patterns : Array PatternKind
  terminalCount : Nat
  /-- for each lex mode the valid terminals -/
  valid : Array SymbolSet
  /-- the word token and the number of its pattern -/
  word : Option (Symbol × Nat)
  keywords : Std.HashMap (List UInt8) Symbol
  externals : Array Symbol

namespace Lexer

/-- The last token with the symbol of words, and the number of its pattern. -/
def wordPattern (spec : LexicalSpec) : Option (Symbol × Nat) :=
  spec.word.bind fun w =>
    ((spec.tokens.toList.zipIdx.filter fun (t, _) => t.symbol = w).getLast?).map fun (_, i) => (w, i)

/-- The lexer of a table. Fails if a pattern of the table is no pattern. -/
def ofTable (t : Table) : Except TableError Lexer :=
  let spec := t.lexical
  let sources := spec.tokens.toList.map (·.pattern) ++ spec.skips.toList
  match sources.mapM Pattern.read? with
  | none => .error .tokenPatterns
  | some exprs => .ok {
      automaton := Pattern.Automaton.ofExprs exprs
      patterns := spec.tokens.map (fun token => .token token.symbol token.literal) ++
        spec.skips.map fun _ => PatternKind.skip
      terminalCount := t.terminalCount
      valid := t.lexModes.map fun mode => SymbolSet.ofList mode.toList
      word := wordPattern spec
      keywords := spec.keywords.foldl
        (fun map (text, s) => map.insert text.toUTF8.data.toList s) {}
      externals := t.externals }

def validSymbols (lexer : Lexer) (mode : LexMode) : ValidSymbols :=
  ⟨lexer.valid.getD mode.toNat SymbolSet.empty, lexer.terminalCount, mode = LexMode.error⟩

/-- What a run of the automaton has found. -/
structure Found where
  best : Option Candidate := none
  /-- the length of the longest match of the word pattern -/
  wordSize : Nat := 0
  deriving DecidableEq, Repr, Inhabited

/-- Takes account of a match of a pattern. -/
def Found.add (lexer : Lexer) (valid : SymbolSet) (size : Nat) (found : Found) (pattern : Nat) :
    Found :=
  let found :=
    if lexer.word.any (·.2 == pattern) then { found with wordSize := size } else found
  match lexer.patterns[pattern]? with
  | none => found
  | some kind =>
    let eligible := match kind with
      | .token s _ => valid.contains s
      | .skip => true
    let candidate : Candidate := ⟨kind, size⟩
    if eligible && found.best.all candidate.beats then { found with best := some candidate }
    else found

/-- Takes account of matches of a length; empty matches do not count. -/
def Found.addAll (lexer : Lexer) (valid : SymbolSet) (size : Nat) (found : Found)
    (patterns : List Nat) : Found :=
  if size = 0 then found else patterns.foldl (Found.add lexer valid size) found

/-- Runs the automaton over the text from `start + i` on. Gives what was found, and the number of
bytes looked at from `start` on; the end of input counts as one. -/
def runFrom (lexer : Lexer) (text : ByteArray) (valid : SymbolSet) (start i : Nat)
    (state : Pattern.Automaton.Run) (found : Found) : Found × Nat :=
  if h : start + i < text.size then
    let next := lexer.automaton.step state text[start + i]
    if next.isDead then
      if !state.matched.isEmpty && lexer.automaton.diesOnAnyByte state then (found, i)
      else (found, i + 1)
    else runFrom lexer text valid start (i + 1) next (found.addAll lexer valid i next.matched)
  else (found.addAll lexer valid i (lexer.automaton.finish state), i + 1)
  termination_by text.size - (start + i)

/-- When the longest word is no shorter than the best match, it is the keyword it spells if that is
valid, or else a word. -/
def preferWord (lexer : Lexer) (text : ByteArray) (valid : SymbolSet) (start : Nat) (found : Found) :
    Option Candidate :=
  match lexer.word with
  | none => found.best
  | some (word, _) =>
    let contested := match found.best with
      | some ⟨.skip, _⟩ => false
      | some best => found.wordSize ≥ best.size
      | none => true
    if found.wordSize > 0 && contested then
      let spelled := (text.extract start (start + found.wordSize)).data.toList
      let keyword := lexer.keywords[spelled]?
      let symbol :=
        if keyword.any valid.contains then keyword.getD word
        else if valid.contains word then word
        else keyword.getD word
      some ⟨.token symbol (keyword == some symbol), found.wordSize⟩
    else found.best

/-- The best match at a place in a lex mode, and the number of bytes looked at. -/
def run (lexer : Lexer) (text : ByteArray) (start : Nat) (mode : LexMode) : Option Candidate × Nat :=
  let valid := (lexer.validSymbols mode).set
  let (found, examined) :=
    lexer.runFrom text valid start 0 (lexer.automaton.begin none) {}
  (lexer.preferWord text valid start found, examined)

/-- Passes over skips from a place on. Gives the place behind them, the token that starts there if
there is one, and how far the text was looked at. The fuel is the text that is left. -/
def skipFrom (lexer : Lexer) (text : ByteArray) (mode : LexMode) :
    Nat → Nat → Nat → Nat × Option (Symbol × Nat) × Nat
  | 0, start, examined => (start, none, examined)
  | fuel + 1, start, examined =>
    let (best, seen) := lexer.run text start mode
    let examined := max examined (start + seen)
    match best with
    | some ⟨.skip, size⟩ => skipFrom lexer text mode fuel (start + size) examined
    | some ⟨.token s _, size⟩ => (start, some (s, size), examined)
    | none => (start, none, examined)

/-- A token that the external scanner finds at a cursor: its symbol, its size and the number of bytes
that the scanner looked at. A token that is not valid or empty does not count. -/
def scanExternal (lexer : Lexer) (c : ScanCursor) (mode : LexMode)
    (scanner : Option ExternalScanner) : Option (Symbol × Nat × Nat) := do
  let scanner ← scanner
  let valid := lexer.validSymbols mode
  if !lexer.externals.any valid.contains then none
  let (s, c) ← scanner.scan c valid
  if c.tokenSize = 0 ∨ !lexer.externals.contains s ∨ !valid.contains s then none
  return (s, c.tokenSize, c.position + 1)

/-- The length of a part of a text. -/
def lengthBetween (text : ByteArray) (start stop : Nat) : Length :=
  Length.ofBytes (text.extract start stop)

/-- The token at a place in a lex mode. -/
def lex (lexer : Lexer) (text : ByteArray) (position : Nat) (mode : LexMode)
    (scanner : Option ExternalScanner) : Lexed :=
  let (start, found, examined) :=
    lexer.skipFrom text mode (text.size - position + 1) position position
  let token (s : Symbol) (size examined : Nat) (mode : LexMode) : Lexed :=
    { symbol := s
      padding := lengthBetween text position start
      size := lengthBetween text start (start + size)
      lookaheadBytes := max (examined - (start + size)) 1
      mode := mode }
  match found with
  | some (s, size) => token s size examined mode
  | none =>
    if start ≥ text.size then token Symbol.eof 0 (start + 1) mode
    else
      match lexer.scanExternal (.ofText text start) mode scanner with
      | some (s, size, seen) => token s size (max examined (start + seen)) mode
      | none =>
        if mode = LexMode.error then token Symbol.error 1 examined LexMode.error
        else
          let (best, seen) := lexer.run text start LexMode.error
          let examined := max examined (start + seen)
          match best with
          | some ⟨.token s _, size⟩ => token s size examined LexMode.error
          | _ =>
            match lexer.scanExternal (.ofText text start) LexMode.error scanner with
            | some (s, size, seen) => token s size (max examined (start + seen)) LexMode.error
            | none => token Symbol.error 1 examined LexMode.error

end Lexer

end IncrementalLR
