import IncrementalLR.Proofs.Lexer.Lookups
import IncrementalLR.Proofs.Parse.Moves

/-!
# Lookups of a parse

All that a parser and its parse look up in the arrays of a language, function by function, for every
version that moves lead to: states that are on its stack, symbols and productions of subtrees that it
has built or taken over, and what the table says of these.
-/

namespace IncrementalLR

open Subtree (chainBase? balanceWhere)

/-- The lookups for a node of a symbol. -/
def Subtree.nodeLookups (s : Symbol) (production : Option ProductionId) : List Lookup :=
  Lookup.ofInfo s ++ production.toList.map Lookup.production

/-- The lookups for the nodes that take the rests of the links of a chain. -/
def Subtree.unchainLookups (bases : RepetitionBases) : Subtree → List Lookup
  | mk _ [] => []
  | mk head (first :: rest) =>
    match chainBase? bases (mk head (first :: rest)) with
    | none => []
    | some base => nodeLookups head.symbol (some base) ++ unchainLookups bases first

/-- The lookups of balancing: where there is a chain, new nodes join its parts. -/
def Subtree.balanceLookups (bases : RepetitionBases) (t : Subtree) : List Lookup :=
  match chainBase? bases t with
  | none => []
  | some _ => unchainLookups bases t ++ nodeLookups t.symbol none

/-- The lookups for the states of the children of a pending node. -/
def Table.childLookups (table : Table) (state : StateId) : List Subtree → List Lookup
  | [] => []
  | child :: rest =>
    if child.isStructural then
      table.actionLookups state child.symbol ++
        match table.nextState? state child.symbol with
        | none => []
        | some next => childLookups table next rest
    else childLookups table state rest

/-- The lookups of breaking down the pending nodes on top of a stack. -/
inductive Stack.BreakLooksUp (table : Table) : Stack → Lookup → Prop
  | children {s : Stack} {top : Frame} {below : List Frame} {k : Lookup}
      (hframes : s.frames = top :: below) (hpending : top.pending = true)
      (hk : k ∈ table.childLookups { s with frames := below }.state top.tree.children) :
      BreakLooksUp table s k
  | stays {s : Stack} {top : Frame} {below : List Frame} {k : Lookup}
      (hframes : s.frames = top :: below) (hpending : top.pending = true)
      (hk : k ∈ table.actionLookups { s with frames := below }.state top.tree.symbol) :
      BreakLooksUp table s k
  | next {s : Stack} {top : Frame} {below : List Frame} {pushes : List (StateId × Subtree)}
      {k : Lookup} (hframes : s.frames = top :: below) (hpending : top.pending = true)
      (hpushes : ParseSetting.childStates? table { s with frames := below }.state top.tree.children
        = some pushes)
      (hk : BreakLooksUp table (ParseSetting.pushPending { s with frames := below } pushes) k) :
      BreakLooksUp table s k

namespace ParseSetting

variable (setting : ParseSetting)

/-- The lookups of a reduction on a stack. -/
def reduceLookups (p : ProductionId) (stack : Stack) : List Lookup :=
  let info := setting.table.production p
  let (children, below) := stack.popTrailing.2.popStructural info.rhs.size
  setting.table.reduceLookups p below.state ++
    (children.filter (·.symbol != info.lhs)).flatMap (Subtree.balanceLookups setting.bases) ++
    Subtree.nodeLookups info.lhs (some p)

/-- The lookups for a root over subtrees. -/
def rootLookups (id : Nat) (trees : List Subtree) : List Lookup :=
  trees.flatMap (Subtree.balanceLookups setting.bases) ++
    Subtree.nodeLookups setting.table.startSymbol
      ((soleStart? setting.table.startSymbol
        (balanceWhere setting.table setting.bases (fun _ => true) id trees).1).bind
          fun found => found.2.1.head.production)

/-- States that putting in tokens on top of some states leads to. -/
inductive Inserts (states : List StateId) : List StateId → Prop
  | refl : Inserts states states
  | insert {before after : List StateId} {s : Symbol} (h : Inserts states before)
      (hs : s ∈ Recovery.insertable setting.table)
      (hafter : Recovery.simulate setting.table before s = some after) : Inserts states after

/-- The states in whose lex modes tokens are lexed: those of versions, and those where a recovery may
resume. -/
inductive LexesAt (old : Option ReuseCursor) : StateId → Prop
  | resumed {v : Version} (hv : setting.Reached old v) (popped : Nat) :
      LexesAt old { v.stack with frames := v.stack.frames.drop popped }.state
  | inserted {v : Version} (hv : setting.Reached old v) {states : List StateId}
      (hstates : setting.Inserts v.stack.structuralStates states) :
      LexesAt old (states.head?.getD setting.table.startState)

/-- The symbols of the tokens that a recovery looks at. -/
inductive SeesToken (v : Version) : Symbol → Prop
  | lookahead (tree : Subtree) (h : v.lookahead = some tree) : SeesToken v tree.symbol
  | upcoming (position : Nat) (mode : LexMode) :
      SeesToken v (setting.language.lex setting.text position mode).symbol

/-- All that a parser and its parse look up by number, with what led to it. -/
inductive LooksUp (old : Option ReuseCursor) : Lookup → Prop
  /-- the bases of repetitions -/
  | base {p : ProductionInfo} {k : Lookup} (hp : p ∈ setting.table.productions)
      (hk : k ∈ Lookup.ofInfo p.lhs) : LooksUp old k
  | lexMode {state : StateId} (hstate : setting.LexesAt old state) : LooksUp old (.stateMode state)
  | lex {state : StateId} {k : Lookup} (hstate : setting.LexesAt old state)
      (hk : setting.language.lexer.LooksUp (setting.table.lexMode state) k) : LooksUp old k
  | upcoming {k : Lookup} (hk : setting.language.lexer.LooksUp LexMode.error k) : LooksUp old k
  /-- the leaf of a token -/
  | leaf (position : Nat) (mode : LexMode) {k : Lookup}
      (hk : k ∈ Lookup.ofInfo (setting.language.lex setting.text position mode).symbol) :
      LooksUp old k
  /-- whether a subtree of the old tree can be taken over -/
  | reuse {v : Version} (hv : setting.Reached old v) {start cursor : ReuseCursor}
      (hstart : old = some start) (hcursor : start.Reaches cursor) {tree : Subtree}
      (htree : cursor.rest.head? = some tree) {k : Lookup}
      (hk : k ∈ .stateMode v.stack.state :: Lookup.ofInfo tree.head.firstLeaf.1 ++
        Lookup.ofEntry v.stack.state tree.head.firstLeaf.1) : LooksUp old k
  /-- the actions of a version, and the next state for a node taken over -/
  | act {v : Version} (hv : setting.Reached old v) {tree : Subtree} (htree : v.lookahead = some tree)
      {s : Symbol} (hs : s = tree.symbol ∨ s = tree.head.firstLeaf.1) {k : Lookup}
      (hk : k ∈ setting.table.actionLookups v.stack.state s) : LooksUp old k
  | reduce {v : Version} (hv : setting.Reached old v) {s : Symbol} (hs : setting.ActsOn v s)
      {p : ProductionId} (haction : .reduce p ∈ setting.table.actionList v.stack.state s) {k : Lookup}
      (hk : k ∈ setting.reduceLookups p v.stack) : LooksUp old k
  | breakPending {v : Version} (hv : setting.Reached old v) {k : Lookup}
      (hk : v.stack.BreakLooksUp setting.table k) : LooksUp old k
  /-- the search for missing tokens -/
  | search {v : Version} (hv : setting.Reached old v) {states : List StateId}
      (hstates : setting.Inserts v.stack.structuralStates states) {s : Symbol}
      (hs : s ∈ Recovery.insertable setting.table ∨ setting.SeesToken v s) {k : Lookup}
      (hk : k ∈ setting.table.consumeLookups s Recovery.simulationLimit states) : LooksUp old k
  /-- whether a recovery can resume at a token -/
  | resume {v : Version} (hv : setting.Reached old v) (popped : Nat) {s : Symbol}
      (hs : setting.SeesToken v s) {k : Lookup}
      (hk : k ∈ setting.table.consumeLookups s Recovery.simulationLimit
        { v.stack with frames := v.stack.frames.drop popped }.structuralStates) : LooksUp old k
  /-- a missing token is put in -/
  | missing {v : Version} (hv : setting.Reached old v) {s : Symbol}
      (hs : s ∈ Recovery.insertable setting.table) {k : Lookup}
      (hk : k ∈ .stateMode v.stack.state :: setting.table.actionLookups v.stack.state s ++
        Lookup.ofInfo s) : LooksUp old k
  | root {v : Version} (hv : setting.Reached old v) (id : Nat) {k : Lookup}
      (hk : k ∈ setting.rootLookups id v.stack.trees) : LooksUp old k
  /-- a parse that ends without any version -/
  | emptyRoot (id : Nat) {k : Lookup} (hk : k ∈ setting.rootLookups id []) : LooksUp old k

end ParseSetting

end IncrementalLR
