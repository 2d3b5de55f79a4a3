import IncrementalLR.Grammar.Basic
import IncrementalLR.Symbol.Set

/-!
# Items

An item is a production with a dot in its right-hand side. Sets of items are lists in ascending
order. The closure of a set adds, for every nonterminal behind a dot, its productions with the dot
in front.
-/

namespace IncrementalLR

structure Item where
  prod : Nat
  dot : Nat
  deriving DecidableEq, Repr, Inhabited, Hashable

namespace Item

/-- Items are ordered by production and then by dot. -/
def before (a b : Item) : Bool := a.prod < b.prod || (a.prod == b.prod && a.dot < b.dot)

def advance (item : Item) : Item := ⟨item.prod, item.dot + 1⟩

end Item

/-- Adds an item to an ascending list. -/
def insertItem (item : Item) : List Item → List Item
  | [] => [item]
  | other :: items =>
    if item.before other then item :: other :: items
    else if item = other then other :: items
    else other :: insertItem item items

namespace Grammar

/-- The symbol behind the dot. -/
def nextSymbol? (g : Grammar) (item : Item) : Option Symbol :=
  (g.productions[item.prod]?).bind fun p => (p.steps[item.dot]?).map (·.symbol)

/-- The nonterminal behind the dot. -/
def nextNonterminal? (g : Grammar) (item : Item) : Option Symbol :=
  (g.nextSymbol? item).filter fun s => !g.isTerminal s

/-- The production of an item ends at its dot. -/
def isComplete (g : Grammar) (item : Item) : Bool :=
  match g.productions[item.prod]? with
  | some p => item.dot == p.steps.size
  | none => false

def itemLhs (g : Grammar) (item : Item) : Symbol :=
  match g.productions[item.prod]? with
  | some p => p.lhs
  | none => Symbol.error

/-- For each symbol the numbers of its productions, ascending. -/
def productionsByLhs (g : Grammar) : Array (List Nat) :=
  (g.productions.toList.zipIdx.foldr (fun (p, i) by_ => by_.modify p.lhs.index (i :: ·)))
    (Array.replicate g.symbols.size [])

/-- The symbols that productions of the symbols to do start with, and so on; `found` are those
done before. The fuel bounds the number of visits. -/
def leftCornersFrom (g : Grammar) (byLhs : Array (List Nat)) : Nat → List Symbol → SymbolSet → SymbolSet
  | 0, _, found => found
  | _, [], found => found
  | fuel + 1, s :: todo, found =>
    if g.isTerminal s || found.contains s then leftCornersFrom g byLhs fuel todo found
    else
      let firsts := (byLhs.getD s.index []).filterMap fun p => g.nextSymbol? ⟨p, 0⟩
      leftCornersFrom g byLhs fuel (firsts ++ todo) (found.insert s)

/-- The nonterminals whose productions the closure of a set of items adds. -/
def closureSymbols (g : Grammar) (byLhs : Array (List Nat)) (kernel : List Item) : SymbolSet :=
  let nexts := kernel.filterMap g.nextNonterminal?
  leftCornersFrom g byLhs (g.productions.size + nexts.length + 1) nexts SymbolSet.empty

/-- The productions that the closure adds, ascending. -/
def closureProductions (g : Grammar) (found : SymbolSet) : List Nat :=
  (List.range g.productions.size).filter fun p => found.contains (g.itemLhs ⟨p, 0⟩)

/-- The closure of a set of items. -/
def closure (g : Grammar) (byLhs : Array (List Nat)) (kernel : List Item) : List Item :=
  kernel.foldr insertItem
    ((g.closureProductions (g.closureSymbols byLhs kernel)).map fun p => ⟨p, 0⟩)

/-- An item with a dot at its place. -/
def displayItem (g : Grammar) (item : Item) : String :=
  let mark (i : Nat) : String := if i = item.dot then " •" else ""
  match g.productions[item.prod]? with
  | none => ""
  | some p =>
    p.rhs.zipIdx.foldl (fun out (s, i) => out ++ mark i ++ " " ++ g.displaySymbol s)
      (g.symbolName p.lhs ++ " ->") ++ mark p.steps.size

end Grammar

end IncrementalLR
