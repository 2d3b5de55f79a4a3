import IncrementalLR.Language
import IncrementalLR.Ttcn3.Grammar

/-!
# Character strings of TTCN-3

A character string stands in double quotes. Two quotes in it stand for one, and a backslash takes
the next byte with it. A string without an end is no token.
-/

namespace IncrementalLR.Ttcn3

/-- Looks for the end of a character string behind its first quote. -/
def scanString (c : ScanCursor) : Option ScanCursor :=
  match _h : c.lookahead with
  | none => none
  | some b =>
    if b = 34 then
      if c.advance.lookahead = some 34 then scanString c.advance.advance else some c.advance.markEnd
    else if b = 92 then
      if c.advance.atEnd then none else scanString c.advance.advance
    else scanString c.advance
  termination_by c.left
  decreasing_by
    · exact Nat.lt_of_le_of_lt c.advance.left_advance_le (ScanCursor.left_advance_lt _h)
    · exact Nat.lt_of_le_of_lt c.advance.left_advance_le (ScanCursor.left_advance_lt _h)
    · exact ScanCursor.left_advance_lt _h

/-- The scanner that finds character strings and gives them a symbol. -/
def charstringScanner (charstring : Symbol) : ExternalScanner :=
  ⟨fun c valid =>
    if !valid.contains charstring ∨ c.lookahead ≠ some 34 then none
    else (scanString c.advance).map fun c => (charstring, c)⟩

/-- The language TTCN-3. Conflicts outside the declared ones come from optional semicolons, and are
settled in favour of shifting. -/
def language : Except LanguageError Language := do
  let l ← Language.load grammar .preferShift
  let charstring := (l.table.symbolForName? "charstring" true).getD Symbol.error
  return l.withScanner (charstringScanner charstring)

end IncrementalLR.Ttcn3
