import IncrementalLR.Automaton.Conflict
import IncrementalLR.Automaton.Lookahead

/-!
# Compiling a grammar

The cells of the table are filled from the collection of item sets and the lookaheads of the items.
Every conflict is recorded with its reason; reductions in it are fragile, and the target of a shift
that lost is kept for breaking nodes down.
-/

namespace IncrementalLR

namespace Compile

/-- What the closure of one state offers. -/
structure StateOffer where
  state : Nat
  kernel : List Item
  edges : List (Symbol × Nat)
  /-- the complete items by ascending production, with their lookaheads -/
  completes : List (Nat × SymbolSet)
  /-- the items with a symbol behind the dot, with that symbol and the precedence of the step -/
  shifting : List (Symbol × Option Precedence)
  deriving Inhabited

/-- The precedence with which an item shifts: that of its step, else that declared of the token. -/
def shiftPrecedence (g : Grammar) (item : Item) : Option (Symbol × Option Precedence) :=
  (g.productions[item.prod]?).bind fun p => (p.steps[item.dot]?).map fun step =>
    (step.symbol, step.precedence.or (g.tokenPrecedence.lookup step.symbol))

/-- Adds a complete item to a list by ascending production. -/
def insertComplete (prod : Nat) (set : SymbolSet) : List (Nat × SymbolSet) → List (Nat × SymbolSet)
  | [] => [(prod, set)]
  | (p, s) :: rest =>
    if prod < p then (prod, set) :: (p, s) :: rest
    else if prod = p then (p, s.union set) :: rest
    else (p, s) :: insertComplete prod set rest

def offer (t : LookaheadTables) (a : Lr0) (follows : KernelFollows) (state : Nat) : StateOffer :=
  let items := t.closure (follows.kernel a state)
  { state := state
    kernel := a.kernel state
    edges := a.edges state
    completes := (items.filter fun (item, _) => t.grammar.isComplete item).foldr
      (fun (item, set) found => insertComplete item.prod set found) []
    shifting := items.filterMap fun (item, _) => shiftPrecedence t.grammar item }

/-- What can happen on a terminal. -/
def StateOffer.candidates (o : StateOffer) (s : Symbol) : Candidates :=
  { shift := o.edges.lookup s
    shiftPrecedence := o.shifting.filterMap fun (x, p) => if x = s then some p else none
    reduces := o.completes.filterMap fun (p, set) => if set.contains s then some p else none }

/-- The cells filled so far, and what is recorded of them; records are kept last first. -/
structure Builder where
  actions : Array Action := #[]
  ambigs : Array (Array Action) := #[]
  fragile : List (StateId × ProductionId) := []
  breakdown : List (StateId × Symbol × StateId) := []
  resolutions : List Resolution := []
  deriving Inhabited

namespace Builder

/-- Fills the cell of a terminal with what is left of the candidates. -/
def addCell (b : Builder) (o : StateOffer) (s : Symbol) (c : Candidates) (outcome : Outcome) :
    Builder :=
  let (entry, ambigs) := match outcome.kept with
    | [] => (Action.error, b.ambigs)
    | [single] => (single, b.ambigs)
    | many => (Action.ambig b.ambigs.size.toUInt32, b.ambigs.push many.toArray)
  let b := { b with actions := b.actions.push entry, ambigs := ambigs }
  match outcome.reason with
  | none => b
  | some reason =>
    let state := o.state.toUInt32
    let lost := match c.shift, entry with
      | some _, .shift _ => none
      | some _, .ambig _ => none
      | some target, _ => some (state, s, target.toUInt32)
      | none, _ => none
    { b with
      fragile := c.reduces.foldl (fun found p =>
        if found.contains (state, p.toUInt32) then found else (state, p.toUInt32) :: found) b.fragile
      breakdown := lost.toList ++ b.breakdown
      resolutions := ⟨state, s, entry, outcome.discarded, reason⟩ :: b.resolutions }

/-- Fills the cell of a terminal. -/
def addTerminal (g : Grammar) (policy : ConflictPolicy) (o : StateOffer) (b : Builder) (s : Symbol) :
    Except Conflict Builder := do
  let c := o.candidates s
  let outcome ← c.resolve g policy o.state o.kernel s
  return b.addCell o s c outcome

/-- Fills the cell of a nonterminal. -/
def addNonterminal (o : StateOffer) (b : Builder) (s : Symbol) : Builder :=
  let entry := match o.edges.lookup s with
    | some target => Action.goto target.toUInt32
    | none => Action.error
  { b with actions := b.actions.push entry }

/-- Fills the row of a state. -/
def addState (g : Grammar) (policy : ConflictPolicy) (b : Builder) (o : StateOffer) :
    Except Conflict Builder := do
  let n := g.symbols.size
  let terminals := (List.range (min g.terminalCount n)).map Symbol.ofIndex
  let b ← terminals.foldlM (addTerminal g policy o) b
  return ((List.range' g.terminalCount (n - g.terminalCount)).map Symbol.ofIndex).foldl
    (addNonterminal o) b

end Builder

/-- The pairs in ascending order of state and production. -/
def sortFragile (pairs : List (StateId × ProductionId)) : List (StateId × ProductionId) :=
  pairs.mergeSort fun a b => a.1 < b.1 || (a.1 == b.1 && a.2 ≤ b.2)

/-- The lex modes of the states: the terminals with an action, and the extras. Equal sets are one
mode, numbered by first use; all terminals are mode zero. -/
def lexModes (g : Grammar) (actions : Array Action) (stateCount : Nat) :
    Array (Array Symbol) × Array LexMode :=
  let n := g.symbols.size
  let all := (List.range g.terminalCount).map Symbol.ofIndex
  let extras := SymbolSet.ofList g.extras
  let (modes, _, states) := (List.range stateCount).foldl
    (fun ((modes, index, states) :
        Array (Array Symbol) × Std.HashMap (List Symbol) Nat × Array LexMode) state =>
      let valid := all.filter fun s =>
        actions.getD (state * n + s.index) .error != .error || extras.contains s
      match index[valid]? with
      | some mode => (modes, index, states.push mode.toUInt16)
      | none =>
        (modes.push valid.toArray, index.insert valid modes.size, states.push modes.size.toUInt16))
    (#[all.toArray], Std.HashMap.ofList [(all, 0)], #[])
  (modes, states)

def productionInfo (p : Production) : ProductionInfo :=
  { lhs := p.lhs
    rhs := p.steps.map (·.symbol)
    fields := p.steps.map (·.field)
    dynamicPrecedence := p.dynamicPrecedence }

def kernelItem (item : Item) : KernelItem := ⟨item.prod.toUInt32, item.dot.toUInt16⟩

/-- Fills the cells of all states. -/
def buildRows (t : LookaheadTables) (a : Lr0) (policy : ConflictPolicy) : Except Conflict Builder :=
  let follows := KernelFollows.ofLr0 t a
  (List.range a.kernels.size).foldlM
    (fun b state => b.addState t.grammar policy (offer t a follows state)) {}

end Compile

/-- The table of a grammar. -/
def Table.compile (g : Grammar) (policy : ConflictPolicy) : Except Conflict Table := do
  let t := LookaheadTables.ofGrammar g
  let a := Lr0.ofGrammar g
  let rows ← Compile.buildRows t a policy
  let (lexModes, stateModes) := Compile.lexModes g rows.actions a.kernels.size
  return {
    name := g.name
    symbols := g.symbols
    terminalCount := g.terminalCount
    startSymbol := g.start
    fields := g.fields
    productions := g.productions.map Compile.productionInfo
    stateCount := a.kernels.size
    actions := rows.actions
    ambigs := rows.ambigs
    fragile := Compile.sortFragile rows.fragile
    breakdown := rows.breakdown.reverse
    lexModes := lexModes
    stateModes := stateModes
    lexical :=
      { tokens := g.tokens, skips := g.skips.toArray, word := g.word, keywords := g.keywords.toArray }
    extras := g.extras.toArray
    externals := g.externals
    resolutions := rows.resolutions.reverse.toArray
    kernels := a.kernels.map fun kernel => (kernel.map Compile.kernelItem).toArray
    startState := 0 }

end IncrementalLR
