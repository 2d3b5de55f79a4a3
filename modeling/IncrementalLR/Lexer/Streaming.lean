import IncrementalLR.Lexer.Basic
import IncrementalLR.Text.Source

/-!
# Lexing an input

The lexer over an input. The automaton and the scanner both look at the text through a source, one
byte after the other.
-/

namespace IncrementalLR

open Text (Input Source)

/-- The start of a token in a source. Every byte is asked of the source as it is at the start of the
token, which by `Text.Source.byte_byte` is no different from asking what the bytes in front of it left. -/
def ScanCursor.ofSource (source : Source) (start : Nat) : ScanCursor where
  pull i := (source.byte (start + i)).1
  ends := by
    refine ⟨source.input.text.size, fun i hi => Option.eq_none_iff_forall_ne_some.2 fun b hb => ?_⟩
    have hlt := source.lt_size_of_byte hb
    omega

namespace Lexer

/-- Runs the automaton over the bytes of a source from `start + i` on. -/
def runThrough (lexer : Lexer) (valid : SymbolSet) (start i : Nat) (state : Pattern.Automaton.Run)
    (found : Found) (source : Source) : (Found × Nat) × Source :=
  match _h : source.byte (start + i) with
  | (some b, source') =>
    let next := lexer.automaton.step state b
    if next.isDead then
      if !state.matched.isEmpty && lexer.automaton.diesOnAnyByte state then ((found, i), source')
      else ((found, i + 1), source')
    else
      lexer.runThrough valid start (i + 1) next (found.addAll lexer valid i next.matched) source'
  | (none, source') =>
    ((found.addAll lexer valid i (lexer.automaton.finish state), i + 1), source')
  termination_by source.input.text.size - (start + i)
  decreasing_by
    have hlt := source.lt_size_of_byte (congrArg Prod.fst _h)
    have htext := (source.extends_byte (start + i)).text
    rw [_h] at htext
    rw [htext]
    omega

/-- The best match at a place in a lex mode, and the number of bytes looked at. -/
def runOn (lexer : Lexer) (start : Nat) (mode : LexMode) (source : Source) :
    (Option Candidate × Nat) × Source :=
  let valid := (lexer.validSymbols mode).set
  let ((found, examined), source) :=
    lexer.runThrough valid start 0 (lexer.automaton.begin none) {} source
  ((lexer.preferWord source.bytes valid (start - source.start) found, examined), source)

/-- Passes over skips from a place on. Gives the place behind them, the token that starts there if
there is one, and how far the text was looked at. The fuel is the text that is left. -/
def skipThrough (lexer : Lexer) (mode : LexMode) :
    Nat → Nat → Nat → Source → (Nat × Option (Symbol × Nat) × Nat) × Source
  | 0, start, examined, source => ((start, none, examined), source)
  | fuel + 1, start, examined, source =>
    let ((best, seen), source) := lexer.runOn start mode source
    let examined := max examined (start + seen)
    match best with
    | some ⟨.skip, size⟩ => lexer.skipThrough mode fuel (start + size) examined source
    | some ⟨.token s _, size⟩ => ((start, some (s, size), examined), source)
    | none => ((start, none, examined), source)

/-- A token that the external scanner finds. Its bytes have then been looked at, and so has the byte
that the scanner stopped in front of. -/
def scanThrough (lexer : Lexer) (start : Nat) (mode : LexMode) (scanner : Option ExternalScanner)
    (source : Source) : Option (Symbol × Nat × Nat) × Source :=
  match lexer.scanExternal (.ofSource source start) mode scanner with
  | some (s, size, seen) => (some (s, size, seen), source.fillTo (start + max size (seen - 1)))
  | none => (none, source)

/-- The symbol, the size and the mode of a token, and how far the lexer looked for it, where the mode
has no token of its own. -/
def fallThrough (lexer : Lexer) (start examined : Nat) (mode : LexMode)
    (scanner : Option ExternalScanner) (source : Source) : (Symbol × Nat × Nat × LexMode) × Source :=
  match source.byte start with
  | (none, source) => ((Symbol.eof, 0, start + 1, mode), source)
  | (some _, source) =>
    match lexer.scanThrough start mode scanner source with
    | (some (s, size, seen), source) => ((s, size, max examined (start + seen), mode), source)
    | (none, source) =>
      if mode = LexMode.error then ((Symbol.error, 1, examined, LexMode.error), source)
      else
        let ((best, seen), source) := lexer.runOn start LexMode.error source
        let examined := max examined (start + seen)
        match best with
        | some ⟨.token s _, size⟩ => ((s, size, examined, LexMode.error), source)
        | _ =>
          match lexer.scanThrough start LexMode.error scanner source with
          | (some (s, size, seen), source) =>
            ((s, size, max examined (start + seen), LexMode.error), source)
          | (none, source) => ((Symbol.error, 1, examined, LexMode.error), source)

/-- The token at a place of an input in a lex mode. -/
def lexFrom (lexer : Lexer) (input : Input) (position : Nat) (mode : LexMode)
    (scanner : Option ExternalScanner) : Lexed × Input :=
  let ((start, found, examined), source) :=
    lexer.skipThrough mode (input.text.size - position + 1) position position
      (.ofInput input position)
  let ((s, size, examined, mode), source) := match found with
    | some (s, size) => ((s, size, examined, mode), source)
    | none => lexer.fallThrough start examined mode scanner source
  ({ symbol := s
     padding := Length.ofBytes (source.slice position start)
     size := Length.ofBytes (source.slice start (start + size))
     lookaheadBytes := max (examined - (start + size)) 1
     mode := mode },
    source.input)

end Lexer

end IncrementalLR
