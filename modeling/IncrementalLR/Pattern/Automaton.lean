import IncrementalLR.Pattern.Reader

/-!
# Automata of patterns

A nondeterministic automaton for several patterns at once. A state reads a byte of a set, asserts
something of its place, branches or accepts a pattern. Running it keeps the states that may be
reached, without the branches; a set of them is dead when no text can follow.
-/

namespace IncrementalLR.Pattern

inductive State where
  | byte (set : ByteSet) (next : Nat)
  | look (assertion : Look) (next : Nat)
  | branch (first second : Nat)
  | accept (pattern : Nat)
  deriving DecidableEq, Repr, Inhabited

/-- Adds states that match an expression and go on to `next`; gives the first of them. -/
def addExpr : Expr → Nat → Array State → Nat × Array State
  | .empty, next, states => (next, states)
  | .byte set, next, states => (states.size, states.push (.byte set next))
  | .look assertion, next, states => (states.size, states.push (.look assertion next))
  | .concat a b, next, states =>
    let (middle, states) := addExpr b next states
    addExpr a middle states
  | .alt a b, next, states =>
    let (first, states) := addExpr a next states
    let (second, states) := addExpr b next states
    (states.size, states.push (.branch first second))
  | .times least most body, next, states =>
    let (tail, states) := match most with
      | some most => addOptional (most - least) next (addExpr body) next states
      | none =>
        let loop := states.size
        let states := states.push (.branch next next)
        let (entry, states) := addExpr body loop states
        (loop, states.set! loop (.branch entry next))
    addCopies least (addExpr body) tail states
where
  /-- Adds a number of copies, one after the other. -/
  addCopies : Nat → (Nat → Array State → Nat × Array State) → Nat → Array State →
      Nat × Array State
    | 0, _, next, states => (next, states)
    | n + 1, add, next, states =>
      let (entry, states) := add next states
      addCopies n add entry states
  /-- Adds up to a number of copies, each of which may end the repetition. -/
  addOptional : Nat → Nat → (Nat → Array State → Nat × Array State) → Nat → Array State →
      Nat × Array State
    | 0, _, _, next, states => (next, states)
    | n + 1, done, add, next, states =>
      let (entry, states) := add next states
      let branch := states.size
      addOptional n done add branch (states.push (.branch entry done))

/-- The states other than branches that are reached from the given ones without reading; `seen` are
those visited before. The fuel bounds the number of visits. -/
def closeBranches (states : Array State) : Nat → List Nat → List Nat → List Nat → List Nat
  | 0, _, _, out => out
  | _, [], _, out => out
  | fuel + 1, s :: todo, seen, out =>
    if seen.contains s then closeBranches states fuel todo seen out
    else
      match states[s]? with
      | some (.branch a b) => closeBranches states fuel (a :: b :: todo) (s :: seen) out
      | _ => closeBranches states fuel todo (s :: seen) (s :: out)

structure Automaton where
  states : Array State
  /-- the states reached at the front of a text -/
  start : List Nat
  /-- for each state the states reached without reading, branches left out -/
  closures : Array (List Nat)
  deriving Inhabited

namespace Automaton

/-- The automaton whose pattern number `i` is the `i`-th expression. -/
def ofExprs (exprs : List Expr) : Automaton :=
  let (entries, states) := exprs.foldl
    (fun (entries, states) e =>
      let accept := states.size
      let (entry, states) := addExpr e accept (states.push (.accept entries.length))
      (entries ++ [entry], states))
    (([], #[]) : List Nat × Array State)
  let close (from_ : List Nat) := closeBranches states (2 * states.size + from_.length + 1) from_ [] []
  { states := states
    start := close entries
    closures := (Array.range states.size).map fun s => close [s] }

/-- Adds the states behind assertions that hold between two bytes. The fuel bounds the number of
visits. -/
def closeLooks (a : Automaton) (before after : Option UInt8) :
    Nat → List Nat → List Nat → List Nat
  | 0, _, out => out
  | _, [], out => out
  | fuel + 1, s :: todo, out =>
    if out.contains s then closeLooks a before after fuel todo out
    else
      match a.states[s]? with
      | some (.look assertion next) =>
        if assertion.holds before after then
          closeLooks a before after fuel ((a.closures[next]?.getD []) ++ todo) (s :: out)
        else closeLooks a before after fuel todo (s :: out)
      | _ => closeLooks a before after fuel todo (s :: out)

/-- Where a run stands: the byte read last, the states reached, and the patterns that match up to
the place before the byte read last. -/
structure Run where
  before : Option UInt8
  states : List Nat
  matched : List Nat
  deriving Inhabited, DecidableEq

/-- A run that starts behind the given byte. -/
def begin (a : Automaton) (before : Option UInt8) : Run := ⟨before, a.start, []⟩

/-- The states of a run with the assertions settled by the byte that comes next. -/
def settled (a : Automaton) (r : Run) (after : Option UInt8) : List Nat :=
  let isLook (s : Nat) := match a.states[s]? with
    | some (.look _ _) => true
    | _ => false
  if r.states.any isLook then
    closeLooks a r.before after (a.states.size * (a.states.size + 1) + r.states.length + 1) r.states []
  else r.states

def acceptedIn (a : Automaton) (states : List Nat) : List Nat :=
  states.filterMap fun s => match a.states[s]? with
    | some (State.accept pattern) => some pattern
    | _ => none

/-- Adds elements that are not there yet. -/
def insertAll (new old : List Nat) : List Nat :=
  new.foldl (fun out s => if out.contains s then out else s :: out) old

/-- One more byte. Matches are known one byte late, as an assertion may need the next byte. -/
def step (a : Automaton) (r : Run) (b : UInt8) : Run :=
  let settled := a.settled r (some b)
  let next := settled.foldl
    (fun out s => match a.states[s]? with
      | some (.byte set next) => if set.contains b then insertAll (a.closures[next]?.getD []) out else out
      | _ => out) []
  ⟨some b, next, a.acceptedIn settled⟩

/-- The patterns that match up to the end of the text. -/
def finish (a : Automaton) (r : Run) : List Nat := a.acceptedIn (a.settled r none)

/-- Nothing was matched and nothing can be. -/
def Run.isDead (r : Run) : Bool := r.states.isEmpty && r.matched.isEmpty

/-- Whether the run is dead after any byte. -/
def diesOnAnyByte (a : Automaton) (r : Run) : Bool :=
  r.states.isEmpty || (List.range 256).all fun b => (a.step r b.toUInt8).isDead

end Automaton

/-!
## Searching a text for a pattern

A pattern for whole texts is put between anchors and searched for. The anchors stand around the
pattern as written, so a pattern that closes the group in which it stands escapes them.
-/

/-- Why a pattern is refused. -/
inductive PatternError where
  | unreadable
  | tooLarge
  deriving DecidableEq, Repr, Inhabited

def PatternError.message : PatternError → String
  | unreadable => "error parsing pattern 0"
  | tooLarge => "error building NFA"

/-- Patterns with more automaton states are refused. The bound stands for a size of ten megabytes,
the default of engines that build their automata in memory, at 35 bytes a state. -/
def stateLimit : Nat := 300000

/-- Whether the automaton matches in the rest of a text, from a run that stands before it or from
any later place. -/
def searchFrom (a : Automaton) (before : Option UInt8) (runs : Automaton.Run) :
    List UInt8 → Bool
  | [] => !(a.finish { runs with states := Automaton.insertAll a.start runs.states }).isEmpty
  | b :: rest =>
    let r := a.step ⟨before, Automaton.insertAll a.start runs.states, []⟩ b
    !r.matched.isEmpty || searchFrom a (some b) r rest

/-- Whether a pattern matches anywhere in a text. -/
def contains (a : Automaton) (text : List UInt8) : Bool := searchFrom a none (a.begin none) text

/-- The automaton of a pattern for whole texts. -/
def wholeText (source : String) : Except PatternError Automaton :=
  match read? ("^(?:" ++ source ++ ")$") with
  | none => .error .unreadable
  | some e => if e.stateCount > stateLimit then .error .tooLarge else .ok (Automaton.ofExprs [e])

/-- A pattern that matches exactly this text. -/
def literalSource (text : String) : String :=
  let isMeta (c : Char) := "\\.+*?()|[]\x7b\x7d^$#&-~".contains c
  String.ofList (text.toList.flatMap fun c => if isMeta c then ['\\', c] else [c])

end IncrementalLR.Pattern
