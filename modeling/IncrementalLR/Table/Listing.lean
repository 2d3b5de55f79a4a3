import IncrementalLR.Table.Basic

/-!
# Listings of a table

The lines of a readable listing: symbols, productions, states with their items and actions, and the
record of conflicts. Each part starts with a line that counts its entries.
-/

namespace IncrementalLR.Table.Listing

def kindName : SymbolKind → String
  | .terminal => "terminal"
  | .external => "external"
  | .nonterminal => "nonterminal"
  | .auxiliary => "auxiliary"

def allSymbols (t : Table) : List Symbol := (List.range t.symbolCount).map Symbol.ofIndex

def symbols (t : Table) : List String :=
  ("SYMBOLS," ++ toString t.symbolCount) ::
    t.symbols.toList.zipIdx.map fun (info, i) =>
      "S," ++ toString i ++ "," ++ t.displaySymbol (Symbol.ofIndex i) ++ "," ++ kindName info.kind ++
        "," ++ (if info.visible then "visible" else "hidden") ++ (if info.extra then ",extra" else "")

def production (t : Table) (i : Nat) (p : ProductionInfo) : String :=
  let steps := (p.rhs.toList.zip p.fields.toList).map fun (s, field) =>
    match field with
    | some f => " " ++ t.fieldName f ++ ":" ++ t.displaySymbol s
    | none => " " ++ t.displaySymbol s
  "P," ++ toString i ++ "," ++ t.symbolName p.lhs ++ " ->" ++ String.join steps ++
    (if p.dynamicPrecedence = 0 then ""
      else " [dynamic " ++ toString p.dynamicPrecedence.toInt ++ "]")

def productions (t : Table) : List String :=
  ("PRODUCTIONS," ++ toString t.productions.size) ::
    t.productions.toList.zipIdx.map fun (p, i) => production t i p

/-- The line of an action, if there is one. -/
def cell? (t : Table) (state : StateId) (s : Symbol) : Option String :=
  let line (rest : String) := some ("  " ++ t.displaySymbol s ++ " " ++ rest)
  match t.action state s with
  | .error => none
  | .ambig entry =>
    line ((Action.ambig entry).render ++ " \x7b" ++
      ", ".intercalate ((t.ambig entry).toList.map Action.render) ++ "\x7d")
  | action => line action.render

def state (t : Table) (i : Nat) : List String :=
  let id := i.toUInt32
  ("STATE," ++ toString i ++ ",mode " ++ toString (t.lexMode id).toNat) ::
    ((t.kernel id).toList.map fun item => "  " ++ t.displayItem item) ++
    (allSymbols t).filterMap (cell? t id)

def states (t : Table) : List String :=
  ("STATES," ++ toString t.stateCount) :: (List.range t.stateCount).flatMap (state t)

def resolutions (t : Table) : List String :=
  ("RESOLUTIONS," ++ toString t.resolutions.size) ::
    t.resolutions.toList.map fun r =>
      "R," ++ toString r.state.toNat ++ "," ++ t.displaySymbol r.lookahead ++ "," ++ r.kept.render ++
        ",[" ++ ", ".intercalate (r.discarded.map Action.render) ++ "]," ++ r.reason.name

/-- All parts with a blank line between each two. -/
def all (t : Table) : List String :=
  symbols t ++ [""] ++ productions t ++ [""] ++ states t ++ [""] ++ resolutions t

end IncrementalLR.Table.Listing
