import IncrementalLR.Automaton.Item
import IncrementalLR.Grammar.Error
import IncrementalLR.Table.Basic

/-!
# Settling conflicts

Where several actions are possible on one lookahead, precedence and associativity choose between
them; a declared conflict keeps all that remain, and the policy decides the rest.
-/

namespace IncrementalLR

/-- What to do with a conflict that nothing declared settles. -/
inductive ConflictPolicy where
  /-- refuse the grammar -/
  | strict
  /-- keep the shift, or the first production when there is none -/
  | preferShift
  deriving DecidableEq, Repr, Inhabited

/-- All that can happen on one lookahead in one state. -/
structure Candidates where
  shift : Option Nat
  /-- the precedence of every item that shifts the lookahead -/
  shiftPrecedence : List (Option Precedence)
  /-- the productions to reduce by, ascending -/
  reduces : List Nat
  deriving DecidableEq, Repr, Inhabited

/-- What is left of the candidates: no action is an error, several are kept. -/
structure Outcome where
  kept : List Action
  discarded : List Action
  /-- absent when there was nothing to settle -/
  reason : Option ResolutionReason
  deriving DecidableEq, Repr, Inhabited

namespace Candidates

/-- The augmented start production is accepted. -/
def reduceAction (prod : Nat) : Action :=
  if prod = 0 then .accept else .reduce prod.toUInt32

def shiftAction (c : Candidates) : List Action :=
  (c.shift.map fun target => Action.shift target.toUInt32).toList

def actions (c : Candidates) : List Action := c.shiftAction ++ c.reduces.map reduceAction

/-- The precedence of a reduction: that of its last step, else its own, else that of its last token
with a declared precedence. -/
def reducePrecedence (g : Grammar) (prod : Nat) : Option Precedence :=
  match g.productions[prod]? with
  | none => none
  | some p =>
    (p.steps.back?.bind (·.precedence)).or <| p.precedence.or <|
      p.rhs.reverse.findSome? fun s => g.tokenPrecedence.lookup s

/-- The largest value of a list, or zero. -/
def largest : List Int32 → Int32
  | [] => 0
  | x :: xs => xs.foldl (fun best y => if best < y then y else best) x

/-- The smallest value of a list, or zero. -/
def smallest : List Int32 → Int32
  | [] => 0
  | x :: xs => xs.foldl (fun best y => if y < best then y else best) x

/-- The value of a precedence; a reduction without one has level zero. -/
def level (p : Option Precedence) : Int32 := (p.map (·.value)).getD 0

/-- Of several reductions, those of the highest level remain. -/
def rankReduces (g : Grammar) (reduces : List Nat) : List Nat × Option ResolutionReason :=
  if reduces.length > 1 ∧ reduces.any fun r => (reducePrecedence g r).isSome then
    let best := largest (reduces.map fun r => level (reducePrecedence g r))
    let kept := reduces.filter fun r => level (reducePrecedence g r) = best
    if kept.length < reduces.length then (kept, some .precedence) else (reduces, none)
  else (reduces, none)

/-- How a shift fares against reductions. -/
structure Contest where
  keepShift : Bool
  /-- the reductions that remain, last first -/
  reduces : List Nat
  reason : Option ResolutionReason
  deriving DecidableEq, Repr, Inhabited

/-- Sets one reduction against the shift. The shift has the levels of the items that shift; the
reduction wins above all of them, loses below all of them, and on the same level as all of them
associativity decides. -/
def compete (g : Grammar) (shifts : List Precedence) (contest : Contest) (r : Nat) : Contest :=
  let rp := reducePrecedence g r
  if rp.isNone ∧ shifts.isEmpty then { contest with reduces := r :: contest.reduces }
  else
    let value := level rp
    let low := smallest (shifts.map (·.value))
    let high := largest (shifts.map (·.value))
    if value > high then ⟨false, r :: contest.reduces, some .precedence⟩
    else if value < low then { contest with reason := some .precedence }
    else if value = low ∧ value = high then
      match (rp.bind (·.assoc)).or (shifts.findSome? (·.assoc)) with
      | some .left => ⟨false, r :: contest.reduces, some .associativity⟩
      | some .right => { contest with reason := some .associativity }
      | some .nonassoc => ⟨false, contest.reduces, some .nonAssociative⟩
      | none => { contest with reduces := r :: contest.reduces }
    else { contest with reduces := r :: contest.reduces }

/-- The rules to which the items of a kernel and the reductions belong. -/
def involved (g : Grammar) (kernel : List Item) (reduces : List Nat) : List Symbol :=
  ((kernel.map g.itemLhs) ++ reduces.map fun r => g.itemLhs ⟨r, 0⟩).map g.origin

/-- The description of a conflict that nothing settles. -/
def describe (g : Grammar) (state : Nat) (kernel : List Item) (lookahead : Symbol)
    (kept : List Action) : Conflict :=
  { state := state
    lookahead := g.displaySymbol lookahead
    kind := if kept.any Action.isShift then .shiftReduce else .reduceReduce
    actions := kept.map fun
      | .reduce p => "reduce " ++ ((g.productions[p.toNat]?).map g.displayProduction).getD ""
      | action => action.render
    items := kernel.map g.displayItem }

/-- Keeps some of the actions. -/
def keep (c : Candidates) (kept : List Action) (reason : Option ResolutionReason) : Outcome :=
  ⟨kept, c.actions.filter fun a => !kept.contains a, reason⟩

/-- Settles the candidates of one cell. -/
def resolve (g : Grammar) (policy : ConflictPolicy) (state : Nat) (kernel : List Item)
    (lookahead : Symbol) (c : Candidates) : Except Conflict Outcome :=
  if c.actions.length ≤ 1 then .ok ⟨c.actions, [], none⟩
  else
    let (reduces, reason) := rankReduces g c.reduces
    let contest : Contest :=
      if c.shift.isSome then
        reduces.foldl (compete g (c.shiftPrecedence.filterMap id)) ⟨true, [], reason⟩
      else ⟨false, reduces.reverse, reason⟩
    let reduces := contest.reduces.reverse
    let kept := (if contest.keepShift then c.shiftAction else []) ++ reduces.map reduceAction
    if kept.length ≤ 1 then .ok (c.keep kept contest.reason)
    else if g.conflicts.any fun set => (involved g kernel reduces).all set.contains then
      .ok (c.keep kept (some .declaredConflict))
    else
      match policy with
      | .strict => .error (describe g state kernel lookahead kept)
      | .preferShift => .ok (c.keep (kept.take 1) (some .policy))

end Candidates

end IncrementalLR
