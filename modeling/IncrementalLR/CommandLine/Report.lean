import IncrementalLR.Parse.Parser
import IncrementalLR.Tree.Outline

/-!
# What the commands print
-/

namespace IncrementalLR.CommandLine

/-- How each conflict was settled, and the size of the table. -/
def checkReport (l : Language) : List String :=
  let t := l.table
  (t.resolutions.toList.map fun r =>
    "state " ++ toString r.state.toNat ++ " on " ++ t.displaySymbol r.lookahead ++ ": kept " ++
      r.kept.render ++ " (" ++ r.reason.name ++ ")") ++
  [t.name ++ ": " ++ toString t.symbolCount ++ " symbols, " ++ toString t.productions.size ++
    " productions, " ++ toString t.stateCount ++ " states, " ++ toString t.resolutions.size ++
    " conflict resolutions"]

/-- A parsed file. -/
structure Outcome where
  path : String
  tree : Tree

namespace Outcome

def hasError (o : Outcome) : Bool := o.tree.rootNode.hasError

def sexp (o : Outcome) : String := o.tree.rootNode.sexp

/-- The lines for one of several files. -/
def lines (o : Outcome) (quiet : Bool) : List String :=
  (if o.hasError then [o.path ++ ": syntax errors"] else []) ++ (if quiet then [] else [o.sexp])

/-- The error for one file. -/
def failure? (o : Outcome) : Option String :=
  if o.hasError then some (o.path ++ " has syntax errors") else none

/-- The error for several files. -/
def failureOf? (outcomes : List Outcome) : Option String :=
  let failed := outcomes.countP (·.hasError)
  if failed > 0 then
    some (toString failed ++ " of " ++ toString outcomes.length ++ " files have syntax errors")
  else none

end Outcome

end IncrementalLR.CommandLine
