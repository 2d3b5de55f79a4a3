import IncrementalLR.Table.Basic
import IncrementalLR.Tree.Cost

/-!
# Recovery from errors

A recovery either puts in tokens that are missing, or takes subtrees off the stack and skips tokens.
Whether a token can follow is found out by running the parser on the states alone. The missing
tokens that are put in are the first shortest sequence that lets the next token follow.
-/

namespace IncrementalLR

/-- What a recovery would do. -/
structure RecoveryCandidate where
  /-- tokens to put in -/
  missing : Nat := 0
  /-- subtrees to take off the stack -/
  popped : Nat := 0
  /-- tokens to skip -/
  skipped : Nat := 0
  /-- what the subtrees and tokens cover -/
  skippedBytes : Nat := 0
  skippedLines : Nat := 0
  deriving DecidableEq, Repr, Inhabited

/-- A price for each candidate; those with the lower price are tried first. -/
structure RecoveryStrategy where
  cost : RecoveryCandidate → Cost

namespace RecoveryStrategy

/-- The fixed prices of `Cost`, in the arithmetic of its 32 bits. -/
def fixed : RecoveryStrategy :=
  ⟨fun c =>
    Cost.missingTree.toUInt32 * c.missing.toUInt32 +
      Cost.skippedTree.toUInt32 * (c.popped + c.skipped).toUInt32 +
      Cost.skippedByte.toUInt32 * c.skippedBytes.toUInt32 +
      Cost.skippedLine.toUInt32 * c.skippedLines.toUInt32⟩

/-- A price for each count of a candidate; sums that do not fit are the largest cost. -/
def weighted (missing popped skipped bytes lines : Nat) : RecoveryStrategy :=
  ⟨fun c => Cost.ofNat (missing * c.missing + popped * c.popped + skipped * c.skipped +
    bytes * c.skippedBytes + lines * c.skippedLines)⟩

end RecoveryStrategy

namespace Recovery

/-- The number of reductions after which a simulation gives up. -/
def simulationLimit : Nat := 1024

/-- The action for a symbol, the first one if there are several. -/
def firstAction (t : Table) (state : StateId) (s : Symbol) : Action :=
  match t.action state s with
  | .ambig entry => ((t.ambig entry)[0]?).getD .error
  | action => action

/-- Reduces a list of states by a production; the last state comes first. -/
def reduceStates (t : Table) (p : ProductionId) (states : List StateId) : Option (List StateId) :=
  let info := t.production p
  match states.drop info.rhs.size with
  | [] => none
  | top :: below => (t.goto? top info.lhs).map fun next => next :: top :: below

/-- Runs the parser on states alone until it shifts or accepts a symbol. Gives the states then. -/
def consume (t : Table) (s : Symbol) : Nat → List StateId → Option (List StateId)
  | 0, _ => none
  | _ + 1, [] => none
  | fuel + 1, states@(top :: _) =>
    match firstAction t top s with
    | .shift next => some (next :: states)
    | .accept => some states
    | .reduce p => (reduceStates t p states).bind (consume t s fuel)
    | .error | .goto _ | .ambig _ => none

/-- The states after a symbol is shifted or accepted, if it can be. -/
def simulate (t : Table) (states : List StateId) (s : Symbol) : Option (List StateId) :=
  consume t s simulationLimit states

/-- The terminals that may be put in: all but the end of input, extras and external tokens. -/
def insertable (t : Table) : List Symbol :=
  ((List.range t.terminalCount).drop 1).map Symbol.ofIndex |>.filter fun s =>
    !t.extras.contains s && !t.externals.contains s

/-- Symbols that were put in and the states behind them. -/
structure Insertion where
  symbols : List Symbol
  states : List StateId
  deriving DecidableEq, Repr, Inhabited

namespace Insertion

/-- An insertion that puts in one more symbol, if the symbol can be consumed. It is not tried out where
the last state has no action for it. -/
def extend? (t : Table) (insertion : Insertion) (s : Symbol) : Option Insertion :=
  match insertion.states with
  | [] => none
  | top :: _ =>
    if t.action top s = .error then none
    else (simulate t insertion.states s).map fun states => ⟨insertion.symbols ++ [s], states⟩

/-- The insertions that put in one more of the symbols. -/
def extensions (t : Table) (symbols : List Symbol) (insertion : Insertion) : List Insertion :=
  symbols.filterMap (insertion.extend? t)

theorem length_of_extend? {t : Table} {insertion longer : Insertion} {s : Symbol}
    (h : insertion.extend? t s = some longer) :
    longer.symbols.length = insertion.symbols.length + 1 := by
  rw [extend?] at h
  split at h
  · cases h
  · split at h
    · cases h
    · obtain ⟨states, _, rfl⟩ := Option.map_eq_some_iff.1 h
      exact List.length_append

/-- The lookahead can be consumed behind the insertion. -/
def precedes (t : Table) (lookahead : Symbol) (insertion : Insertion) : Bool :=
  (simulate t insertion.states lookahead).isSome

/-- The room for symbols behind an insertion, so that all of its extensions together have less. -/
def room (symbols : List Symbol) (limit : Nat) (insertion : Insertion) : Nat :=
  (symbols.length + 1).pow (limit - insertion.symbols.length)

/-- The room for symbols behind all insertions of a queue. -/
def totalRoom (symbols : List Symbol) (limit : Nat) : List Insertion → Nat
  | [] => 0
  | insertion :: rest => insertion.room symbols limit + totalRoom symbols limit rest

@[simp]
theorem totalRoom_append (symbols : List Symbol) (limit : Nat) (queue longer : List Insertion) :
    totalRoom symbols limit (queue ++ longer)
      = totalRoom symbols limit queue + totalRoom symbols limit longer := by
  induction queue with
  | nil => exact (Nat.zero_add _).symm
  | cons first rest ih => rw [List.cons_append, totalRoom, totalRoom, ih, Nat.add_assoc]

theorem totalRoom_le {symbols : List Symbol} {limit bound : Nat} {insertions : List Insertion}
    (h : ∀ insertion ∈ insertions, insertion.room symbols limit ≤ bound) :
    totalRoom symbols limit insertions ≤ insertions.length * bound := by
  induction insertions with
  | nil => exact Nat.zero_le _
  | cons first rest ih =>
      obtain ⟨hfirst, hrest⟩ := List.forall_mem_cons.1 h
      rw [totalRoom, List.length_cons, Nat.succ_mul, Nat.add_comm]
      exact Nat.add_le_add (ih hrest) hfirst

theorem totalRoom_extensions_lt (t : Table) (symbols : List Symbol) {limit : Nat}
    {insertion : Insertion} (h : insertion.symbols.length < limit) :
    totalRoom symbols limit (insertion.extensions t symbols) < insertion.room symbols limit := by
  let left := limit - (insertion.symbols.length + 1)
  have hroom : ∀ longer ∈ insertion.extensions t symbols,
      longer.room symbols limit ≤ (symbols.length + 1).pow left := by
    intro longer hlonger
    obtain ⟨s, _, hs⟩ := List.mem_filterMap.1 hlonger
    exact Nat.le_of_eq (by rw [room, length_of_extend? hs])
  have hlength : (insertion.extensions t symbols).length ≤ symbols.length :=
    List.length_filterMap_le ..
  have hleft : limit - insertion.symbols.length = left + 1 := by omega
  calc totalRoom symbols limit (insertion.extensions t symbols)
      ≤ (insertion.extensions t symbols).length * (symbols.length + 1).pow left := totalRoom_le hroom
    _ ≤ symbols.length * (symbols.length + 1).pow left := Nat.mul_le_mul_right _ hlength
    _ < (symbols.length + 1) * (symbols.length + 1).pow left :=
        Nat.mul_lt_mul_of_pos_right (Nat.lt_succ_self _) (Nat.pow_pos (Nat.succ_pos _))
    _ = insertion.room symbols limit := by
        rw [room, hleft]
        exact Nat.mul_comm _ _

end Insertion

/-- Looks through a queue of insertions for one behind which the lookahead can be consumed once one
more symbol is put in. The insertions with one more symbol are put behind the queue otherwise. Those
with `limit` symbols get no more. -/
def search (t : Table) (symbols : List Symbol) (lookahead : Symbol) (limit : Nat)
    (queue : List Insertion) : Option Insertion :=
  match queue with
  | [] => none
  | insertion :: rest =>
    if limit ≤ insertion.symbols.length then search t symbols lookahead limit rest
    else
      let longer := insertion.extensions t symbols
      match longer.find? (·.precedes t lookahead) with
      | some found => some found
      | none => search t symbols lookahead limit (rest ++ longer)
  termination_by Insertion.totalRoom symbols limit queue
  decreasing_by
    · have hpos : 0 < insertion.room symbols limit := Nat.pow_pos (Nat.succ_pos _)
      rw [Insertion.totalRoom]
      omega
    · rename_i hlimit
      have hlt := Insertion.totalRoom_extensions_lt t symbols (Nat.lt_of_not_le hlimit)
      rw [Insertion.totalRoom_append, Insertion.totalRoom]
      omega

/-- The first shortest sequence of missing tokens in front of a lookahead. -/
def missingTokens (t : Table) (states : List StateId) (lookahead : Symbol) (limit : Nat) :
    Option Insertion :=
  search t (insertable t) lookahead limit [⟨[], states⟩]

end Recovery

end IncrementalLR
