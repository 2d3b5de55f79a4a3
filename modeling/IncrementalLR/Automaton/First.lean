import IncrementalLR.Automaton.Item

/-!
# First sets

For each symbol, the terminals with which a string derived from it can start, and whether it derives
the empty string: the least solution of what the productions require.
-/

namespace IncrementalLR

structure FirstSets where
  first : Array SymbolSet
  nullable : SymbolSet
  deriving DecidableEq, Inhabited

namespace FirstSets

def firstOf (f : FirstSets) (s : Symbol) : SymbolSet := f.first.getD s.index SymbolSet.empty

/-- The first terminals of a sequence of symbols, and whether it derives the empty string. -/
def ofSeq (f : FirstSets) : List Symbol → SymbolSet × Bool
  | [] => (SymbolSet.empty, true)
  | s :: rest =>
    if f.nullable.contains s then
      let (set, nullable) := f.ofSeq rest
      ((f.firstOf s).union set, nullable)
    else (f.firstOf s, false)

/-- Only terminals are known to derive something. -/
def initial (g : Grammar) : FirstSets :=
  { first := (Array.range g.symbols.size).map fun i =>
      if i < g.terminalCount then SymbolSet.singleton (Symbol.ofIndex i) else SymbolSet.empty
    nullable := SymbolSet.empty }

/-- What one production adds. -/
def addProduction (f : FirstSets) (p : Production) : FirstSets :=
  let (set, nullable) := f.ofSeq p.rhs
  { first := f.first.modify p.lhs.index fun old => old.union set
    nullable := if nullable then f.nullable.insert p.lhs else f.nullable }

def addAll (g : Grammar) (f : FirstSets) : FirstSets := g.productions.foldl addProduction f

/-- Adds what the productions require until nothing is added. -/
def close (g : Grammar) : Nat → FirstSets → FirstSets
  | 0, f => f
  | fuel + 1, f =>
    let next := addAll g f
    if next = f then f else close g fuel next

/-- Every round but the last adds a terminal to a set, or a nullable symbol. -/
def ofGrammar (g : Grammar) : FirstSets :=
  close g (g.symbols.size * (g.terminalCount + 1) + 1) (initial g)

end FirstSets

end IncrementalLR
