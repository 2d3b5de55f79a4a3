import IncrementalLR.Symbol.Set

/-!
# External scanners

A language can find some of its tokens with a scanner of its own. A scanner looks at a text through
a cursor, moves it forward and may mark the end of the token on the way.
-/

namespace IncrementalLR

/-- The terminals that may come next. -/
structure ValidSymbols where
  set : SymbolSet
  /-- the number of terminals of the language -/
  terminalCount : Nat
  /-- everything is valid, as the parser recovers from an error -/
  isErrorMode : Bool
  deriving DecidableEq, Repr, Inhabited

namespace ValidSymbols

def contains (v : ValidSymbols) (s : Symbol) : Bool := v.set.contains s

def toList (v : ValidSymbols) : List Symbol := v.set.toListBelow v.terminalCount

end ValidSymbols

/-- A place in a text, reached from the start of a token. The bytes from that start on are pulled one
by one, by their distance from it. -/
structure ScanCursor where
  pull : Nat → Option UInt8
  /-- the number of bytes since the start of the token -/
  position : Nat := 0
  /-- the size of the token, if its end has been marked -/
  mark : Option Nat := none
  ends : ∃ n, ∀ i, n ≤ i → pull i = none

namespace ScanCursor

/-- The start of a token in a text that is at hand. -/
def ofText (text : ByteArray) (start : Nat) : ScanCursor where
  pull i := text[start + i]?
  ends := ⟨text.size, fun _ h => getElem?_neg text _ (by omega)⟩

/-- The byte under the cursor. -/
def lookahead (c : ScanCursor) : Option UInt8 := c.pull c.position

def atEnd (c : ScanCursor) : Bool := c.lookahead.isNone

/-- Moves past the byte under the cursor. -/
def advance (c : ScanCursor) : ScanCursor :=
  if c.lookahead.isSome then { c with position := c.position + 1 } else c

/-- Ends the token at the cursor. A token without a mark ends where the cursor stops. -/
def markEnd (c : ScanCursor) : ScanCursor := { c with mark := some c.position }

def tokenSize (c : ScanCursor) : Nat := c.mark.getD c.position

/-- A bound on the bytes from the cursor on. -/
noncomputable def left (c : ScanCursor) : Nat := Classical.choose c.ends - c.position

theorem left_advance_le (c : ScanCursor) : c.advance.left ≤ c.left := by
  unfold advance
  split
  · exact Nat.sub_le_sub_left (Nat.le_succ c.position) _
  · exact Nat.le_refl _

theorem left_advance_lt {c : ScanCursor} {b : UInt8} (h : c.lookahead = some b) :
    c.advance.left < c.left := by
  have hlt : c.position < Classical.choose c.ends := by
    refine Nat.lt_of_not_le fun hle => ?_
    have hnone : c.lookahead = none := Classical.choose_spec c.ends c.position hle
    rw [h] at hnone
    cases hnone
  unfold advance
  rw [h]
  exact Nat.sub_lt_sub_left hlt (Nat.lt_succ_self c.position)

end ScanCursor

/-- Finds a token at a cursor, and leaves the cursor behind what it looked at. -/
structure ExternalScanner where
  scan : ScanCursor → ValidSymbols → Option (Symbol × ScanCursor)

end IncrementalLR
