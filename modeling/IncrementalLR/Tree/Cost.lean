import IncrementalLR.Text.Position

/-!
# Costs of errors

What missing tokens and skipped text cost. Costs have 32 bits; a sum that does not fit is the
largest cost.
-/

namespace IncrementalLR

abbrev Cost := UInt32

namespace Cost

/-- The nearest cost to a number. -/
def ofNat (n : Nat) : Cost := if n < UInt32.size then n.toUInt32 else 4294967295

/-- For a token that is put in. -/
def missingTree : Nat := 110

/-- For a subtree that is skipped. -/
def skippedTree : Nat := 100

def skippedByte : Nat := 1

def skippedLine : Nat := 30

/-- For each stretch of skipped text. -/
def recovery : Nat := 500

/-- For skipped text of a length. -/
def skipped (size : Length) : Cost :=
  ofNat (skippedByte * size.bytes + skippedLine * size.extent.row)

end Cost

end IncrementalLR
