import IncrementalLR.Automaton.First
import IncrementalLR.Automaton.Lr0

/-!
# Lookaheads

The terminals that can follow an item, for each item of each state: the least sets such that the end
of input follows the start production, an item hands its lookahead to the item with the dot moved
on, and the productions of a nonterminal behind a dot are followed by what can come after the
nonterminal there.
-/

namespace IncrementalLR

/-- What follows an item of a closure: terminals, and whether what follows the item from which it
came follows it too. -/
structure Follow where
  set : SymbolSet := SymbolSet.empty
  inherits : Bool := false
  deriving DecidableEq, Repr, Inhabited

namespace Follow

def merge (a b : Follow) : Follow := ⟨a.set.union b.set, a.inherits || b.inherits⟩

/-- What follows the origin is put in. -/
def resolve (f : Follow) (origin : SymbolSet) : SymbolSet :=
  if f.inherits then f.set.union origin else f.set

end Follow

/-- What every closure of a grammar refers to. -/
structure ClosureTables where
  grammar : Grammar
  byLhs : Array (List Nat)
  firsts : FirstSets
  /-- for each nonterminal, the nonterminals in front of its productions with what follows them
  there; the inherited part is what follows the nonterminal -/
  heads : Array (List (Symbol × Follow))

namespace ClosureTables

/-- What follows the symbol behind the dot of an item; the inherited part is what follows the
item. -/
def followAfter (g : Grammar) (firsts : FirstSets) (item : Item) : Follow :=
  match g.productions[item.prod]? with
  | none => {}
  | some p =>
    let (set, nullable) := firsts.ofSeq (p.rhs.drop (item.dot + 1))
    ⟨set, nullable⟩

def headsOf (g : Grammar) (firsts : FirstSets) (prods : List Nat) : List (Symbol × Follow) :=
  (prods.filterMap fun p =>
    (g.nextNonterminal? ⟨p, 0⟩).map fun s => (s, followAfter g firsts ⟨p, 0⟩)).eraseDups

def ofGrammar (g : Grammar) : ClosureTables :=
  let byLhs := g.productionsByLhs
  let firsts := FirstSets.ofGrammar g
  ⟨g, byLhs, firsts, byLhs.map (headsOf g firsts)⟩

/-- What follows the nonterminals of a closure. The nonterminals to do have got more to follow them;
the fuel bounds how often. -/
def spread (c : ClosureTables) : Nat → List Symbol → Array (Option Follow) → Array (Option Follow)
  | 0, _, known => known
  | _, [], known => known
  | fuel + 1, s :: todo, known =>
    let origin := ((known.getD s.index none).getD {})
    let (todo, known) := (c.heads.getD s.index []).foldl
      (fun ((todo, known) : List Symbol × Array (Option Follow)) (head, follow) =>
        let new : Follow := ⟨follow.resolve origin.set, follow.inherits && origin.inherits⟩
        match known.getD head.index none with
        | none => (head :: todo, known.set! head.index (some new))
        | some old =>
          let merged := old.merge new
          if merged = old then (todo, known)
          else (head :: todo, known.set! head.index (some merged)))
      (todo, known)
    spread c fuel todo known

/-- What follows the nonterminals in the closure of the productions of one nonterminal, itself
included; the inherited part is what follows that nonterminal. -/
def corners (c : ClosureTables) (s : Symbol) : List (Symbol × Follow) :=
  let n := c.grammar.symbols.size
  let known := (Array.replicate n none).set! s.index (some (⟨SymbolSet.empty, true⟩ : Follow))
  let known := c.spread (n * (c.grammar.terminalCount + 2) + 1) [s] known
  known.toList.zipIdx.filterMap fun (follow, i) => follow.map fun f => (Symbol.ofIndex i, f)

end ClosureTables

/-- The closure tables with the corners of every nonterminal. -/
structure LookaheadTables extends ClosureTables where
  cornersOf : Array (List (Symbol × Follow))

namespace LookaheadTables

def ofGrammar (g : Grammar) : LookaheadTables :=
  let c := ClosureTables.ofGrammar g
  { c with
    cornersOf := (Array.range g.symbols.size).map fun i =>
      if i < g.terminalCount then [] else c.corners (Symbol.ofIndex i) }

/-- What follows the nonterminals that stand behind the dots of kernel items. -/
def origins (t : LookaheadTables) (kernel : List (Item × SymbolSet)) : List (Symbol × SymbolSet) :=
  kernel.foldr
    (fun (item, set) found =>
      match t.grammar.nextNonterminal? item with
      | none => found
      | some s =>
        let new := (ClosureTables.followAfter t.grammar t.firsts item).resolve set
        match found with
        | (s', old) :: rest => if s' = s then (s, old.union new) :: rest else (s, new) :: found
        | [] => [(s, new)])
    []

/-- What follows the nonterminals of the closure of kernel items; none for those outside it. -/
def closureFollows (t : LookaheadTables) (kernel : List (Item × SymbolSet)) :
    Array (Option SymbolSet) :=
  (t.origins kernel).foldl
    (fun known (s, origin) => (t.cornersOf.getD s.index []).foldl
      (fun known (corner, follow) =>
        let new := follow.resolve origin
        known.modify corner.index fun old => some ((old.getD SymbolSet.empty).union new))
      known)
    (Array.replicate t.grammar.symbols.size none)

/-- The closure of kernel items with what follows each item, ascending. -/
def closure (t : LookaheadTables) (kernel : List (Item × SymbolSet)) : List (Item × SymbolSet) :=
  let follows := t.closureFollows kernel
  let added := (List.range t.grammar.productions.size).filterMap fun p =>
    (follows.getD (t.grammar.itemLhs ⟨p, 0⟩).index none).map fun set => ((⟨p, 0⟩ : Item), set)
  kernel.foldr insertFollowed added
where
  /-- Adds an item to an ascending list, or what follows it if it is there. -/
  insertFollowed (new : Item × SymbolSet) : List (Item × SymbolSet) → List (Item × SymbolSet)
    | [] => [new]
    | other :: items =>
      if new.1.before other.1 then new :: other :: items
      else if new.1 = other.1 then (other.1, other.2.union new.2) :: items
      else other :: insertFollowed new items

end LookaheadTables

/-- For each state what follows its kernel items, in the order of the items. -/
abbrev KernelFollows := Array (Array SymbolSet)

namespace KernelFollows

/-- The kernel items of a state with what follows them. -/
def kernel (a : Lr0) (follows : KernelFollows) (state : Nat) : List (Item × SymbolSet) :=
  (a.kernel state).zip (follows.getD state #[]).toList

/-- The end of input follows the start production; nothing is known of the others. -/
def initial (a : Lr0) : KernelFollows :=
  (a.kernels.map fun kernel => Array.replicate kernel.length SymbolSet.empty).modify 0
    fun row => row.map fun _ => SymbolSet.singleton Symbol.eof

/-- What the items of a state hand on to the items of its successor on a symbol: `sources` are the
kernel items with the symbol behind the dot, in the order of the items that they become. -/
def handOn (g : Grammar) (closureFollows : Array (Option SymbolSet)) :
    List (Item × SymbolSet) → List Item → List SymbolSet
  | _, [] => []
  | sources, target :: targets =>
    let fromClosure :=
      if target.dot = 1 then (closureFollows.getD (g.itemLhs target).index none).getD SymbolSet.empty
      else SymbolSet.empty
    match sources with
    | (item, set) :: rest =>
      if item.advance = target then fromClosure.union set :: handOn g closureFollows rest targets
      else fromClosure :: handOn g closureFollows sources targets
    | [] => fromClosure :: handOn g closureFollows [] targets

/-- Adds sets to a row; says whether the row has grown. -/
def mergeRow (row : Array SymbolSet) (new : List SymbolSet) : Array SymbolSet × Bool :=
  let (row, grown, _) := new.foldl
    (fun ((row, grown, i) : Array SymbolSet × Bool × Nat) set =>
      let old := row.getD i SymbolSet.empty
      let merged := old.union set
      if merged = old then (row, grown, i + 1) else (row.set! i merged, true, i + 1))
    (row, false, 0)
  (row, grown)

/-- Hands on what follows the items of a state to all successors; `stale` marks the states that have
got more since they handed on. -/
def handOnFrom (t : LookaheadTables) (a : Lr0) (state : Nat) :
    KernelFollows × Array Bool → KernelFollows × Array Bool := fun (follows, stale) =>
  let kernel := kernel a follows state
  let closureFollows := t.closureFollows kernel
  (a.edges state).foldl
    (fun (follows, stale) (s, target) =>
      let sources := kernel.filter fun (item, _) => t.grammar.nextSymbol? item = some s
      let new := handOn t.grammar closureFollows sources (a.kernel target)
      let row := follows.getD target #[]
      let (row, grown) := mergeRow row new
      if grown then (follows.set! target row, stale.set! target true) else (follows, stale))
    (follows, stale)

/-- One round over all states that have something to hand on. -/
def round (t : LookaheadTables) (a : Lr0) (start : KernelFollows × Array Bool) :
    KernelFollows × Array Bool :=
  (List.range a.kernels.size).foldl
    (fun (follows, stale) state =>
      if stale.getD state false then handOnFrom t a state (follows, stale.set! state false)
      else (follows, stale))
    start

/-- Rounds until no state has anything to hand on. -/
def close (t : LookaheadTables) (a : Lr0) : Nat → KernelFollows × Array Bool → KernelFollows
  | 0, (follows, _) => follows
  | fuel + 1, (follows, stale) =>
    if stale.any id then close t a fuel (round t a (follows, stale)) else follows

/-- What follows the kernel items of every state. Every round but the first needs that a set has
grown in the round before. -/
def ofLr0 (t : LookaheadTables) (a : Lr0) : KernelFollows :=
  let items := a.kernels.foldl (fun n kernel => n + kernel.length) 0
  close t a (items * t.grammar.terminalCount + 2) (initial a, Array.replicate a.kernels.size true)

end KernelFollows

end IncrementalLR
