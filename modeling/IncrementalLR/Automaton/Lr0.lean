import IncrementalLR.Automaton.Item
import Std.Data.HashMap

/-!
# The canonical collection of item sets

A state is a set of kernel items. Reading a symbol moves the dot over it in every item of the
closure that has it behind the dot. States are numbered breadth first from the start state, with
symbols in ascending order.
-/

namespace IncrementalLR

/-- The automaton whose states are the sets of items that the start state leads to. -/
structure Lr0 where
  kernels : Array (List Item)
  /-- for each state its successors, by ascending symbol -/
  transitions : Array (List (Symbol × Nat))
  deriving Inhabited

namespace Lr0

/-- The kernels of the successors of a state, by ascending symbol. -/
def moves (g : Grammar) (byLhs : Array (List Nat)) (kernel : List Item) : List (Symbol × List Item) :=
  let bySymbol := (g.closure byLhs kernel).foldr
    (fun item (by_ : Array (List Item)) =>
      match g.nextSymbol? item with
      | some s => by_.modify s.index (item.advance :: ·)
      | none => by_)
    (Array.replicate g.symbols.size [])
  bySymbol.toList.zipIdx.filterMap fun (items, i) =>
    if items.isEmpty then none else some (Symbol.ofIndex i, items)

/-- The states found so far, and the number of each. -/
structure Builder where
  kernels : Array (List Item)
  index : Std.HashMap (List Item) Nat
  transitions : Array (List (Symbol × Nat)) := #[]
  deriving Inhabited

namespace Builder

/-- Numbers a state unless it has a number. -/
def addState (b : Builder) (kernel : List Item) : Nat × Builder :=
  match b.index[kernel]? with
  | some state => (state, b)
  | none =>
    (b.kernels.size,
      { b with kernels := b.kernels.push kernel, index := b.index.insert kernel b.kernels.size })

/-- Adds the successors of the next state that has none yet. -/
def addTransitions (b : Builder) (moves : List (Symbol × List Item)) : Builder :=
  let (edges, b) := moves.foldl
    (fun ((edges, b) : List (Symbol × Nat) × Builder) (s, kernel) =>
      let (target, b) := b.addState kernel
      ((s, target) :: edges, b))
    ([], b)
  { b with transitions := b.transitions.push edges.reverse }

/-- Adds successors until every state has them. -/
def run (g : Grammar) (byLhs : Array (List Nat)) : Nat → Builder → Builder
  | 0, b => b
  | fuel + 1, b =>
    match b.kernels[b.transitions.size]? with
    | none => b
    | some kernel => run g byLhs fuel (b.addTransitions (moves g byLhs kernel))

end Builder

/-- The number of items of a grammar. -/
def itemCount (g : Grammar) : Nat := g.productions.foldl (fun n p => n + p.steps.size + 1) 0

/-- The kernel of the start state. -/
def startKernel : List Item := [⟨0, 0⟩]

/-- The collection of a grammar. No more states exist than sets of items. -/
def ofGrammar (g : Grammar) : Lr0 :=
  let start : Builder := { kernels := #[startKernel], index := Std.HashMap.ofList [(startKernel, 0)] }
  let b := Builder.run g g.productionsByLhs (1 <<< itemCount g) start
  ⟨b.kernels, b.transitions⟩

def kernel (a : Lr0) (state : Nat) : List Item := a.kernels.getD state []

def edges (a : Lr0) (state : Nat) : List (Symbol × Nat) := a.transitions.getD state []

/-- The successor of a state on a symbol. -/
def step? (a : Lr0) (state : Nat) (s : Symbol) : Option Nat := (a.edges state).lookup s

end Lr0

end IncrementalLR
