import IncrementalLR.Tree.Cost

/-!
# Limits and counters of a parse
-/

namespace IncrementalLR

structure ParseOptions where
  /-- how many parses run side by side at most -/
  maxVersions : Nat := 6
  /-- how many missing tokens one recovery puts in at most -/
  maxMissingTokens : Nat := 2
  /-- how many tokens one recovery skips at most -/
  maxSkippedTokens : Nat := 8
  /-- recoveries that cost more are not considered -/
  maxRecoveryCost : Cost := 3000
  /-- after so many recoveries the rest of the text is skipped -/
  maxRecoveryAttempts : Nat := 10000
  /-- after so many operations the parse is stopped -/
  maxOperations : Option Nat := none
  deriving DecidableEq, Repr, Inhabited

namespace ParseOptions

/-- At least one parse runs. -/
def withMaxVersions (o : ParseOptions) (n : Nat) : ParseOptions := { o with maxVersions := max n 1 }

/-- More operations than any parse comes to. -/
def unlimited : Nat := 1 <<< 62

/-- The number of operations after which a parse is stopped. -/
def operationLimit (o : ParseOptions) : Nat := o.maxOperations.getD unlimited

def describe (o : ParseOptions) : String :=
  let operations := match o.maxOperations with
    | some n => s!"Some({n})"
    | none => "None"
  "ParseOptions \x7b max_versions: " ++ toString o.maxVersions ++
    ", max_missing_tokens: " ++ toString o.maxMissingTokens ++
    ", max_skipped_tokens: " ++ toString o.maxSkippedTokens ++
    ", max_recovery_cost: " ++ toString o.maxRecoveryCost.toNat ++
    ", max_recovery_attempts: " ++ toString o.maxRecoveryAttempts ++
    ", max_operations: " ++ operations ++ " \x7d"

end ParseOptions

structure ParseStats where
  /-- tokens that the lexer was asked for -/
  tokens : Nat := 0
  shifts : Nat := 0
  reductions : Nat := 0
  /-- entries with several actions that were met -/
  ambigs : Nat := 0
  /-- subtrees taken over from the old tree -/
  reused : Nat := 0
  recoveries : Nat := 0
  deriving DecidableEq, Repr, Inhabited

end IncrementalLR
