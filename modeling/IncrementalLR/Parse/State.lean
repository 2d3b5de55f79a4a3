import IncrementalLR.Language
import IncrementalLR.Parse.Options
import IncrementalLR.Parse.Recovery
import IncrementalLR.Parse.Repetition
import IncrementalLR.Parse.Reuse
import IncrementalLR.Parse.Stack
import IncrementalLR.Tree.Basic

/-!
# The state of a parse

A parse advances one or more versions of a stack over the text. Versions arise where an entry of the
table has several actions; versions that come to the same states at the same place are merged, and
the better one stays.
-/

namespace IncrementalLR

/-- What stays the same during a parse. -/
structure ParseSetting where
  language : Language
  options : ParseOptions
  strategy : RecoveryStrategy
  /-- the parse was cancelled from outside -/
  cancelled : Bool
  bases : RepetitionBases
  text : ByteArray

namespace ParseSetting

def table (setting : ParseSetting) : Table := setting.language.table

end ParseSetting

/-- One of the stacks that are advanced side by side. -/
structure Version where
  stack : Stack
  /-- where the last subtree of the stack ends -/
  position : Length
  lookahead : Option Subtree
  deriving Inhabited

namespace Version

/-- Better versions have the lower cost of errors, then the higher dynamic precedence. -/
def better (a b : Version) : Bool :=
  a.stack.errorCost < b.stack.errorCost ||
    (a.stack.errorCost == b.stack.errorCost &&
      -a.stack.dynamicPrecedence < -b.stack.dynamicPrecedence)

/-- Whether two versions are at the same place with the same states. -/
def merges (a b : Version) : Bool :=
  a.position.bytes == b.position.bytes && a.lookahead.isSome == b.lookahead.isSome &&
    a.stack.sameStates b.stack

/-- Merges a version with all that merge with it. Gives the best one, the first if there are
several, and those that are left. -/
def absorb (v : Version) : List Version → Version × List Version
  | [] => (v, [])
  | w :: rest =>
    if v.merges w then absorb (if w.better v then w else v) rest
    else
      let (best, others) := absorb v rest
      (best, w :: others)

theorem length_absorb_le (v : Version) (rest : List Version) :
    (v.absorb rest).2.length ≤ rest.length := by
  fun_induction absorb v rest with
  | case1 => exact Nat.le_refl _
  | case2 v w rest _ ih => exact Nat.le_succ_of_le ih
  | case3 v w rest _ best others heq ih =>
    rw [heq] at ih
    exact Nat.succ_le_succ ih

/-- Merges versions so that no two of the rest merge. -/
def mergeAll : List Version → List Version
  | [] => []
  | v :: rest => (v.absorb rest).1 :: mergeAll (v.absorb rest).2
  termination_by versions => versions.length
  decreasing_by
    have := length_absorb_le v rest
    simp only [List.length_cons]
    omega

/-- Merges versions and keeps at most so many, the best ones. -/
def condense (limit : Nat) (versions : List Version) : List Version :=
  let merged := mergeAll versions
  if merged.length > limit then (merged.mergeSort fun a b => !b.better a).take limit else merged

/-- The first best one. -/
def best? : List Version → Option Version
  | [] => none
  | v :: rest => some (rest.foldl (fun best w => if w.better best then w else best) v)

end Version

/-- A version that came to the end of the text. -/
structure Accepted where
  trees : List Subtree
  /-- the padding in front of the end of the text -/
  trailing : Length
  errorCost : Cost
  dynamicPrecedence : Int32
  deriving Inhabited

namespace Accepted

def better (a b : Accepted) : Bool :=
  a.errorCost < b.errorCost ||
    (a.errorCost == b.errorCost && -a.dynamicPrecedence < -b.dynamicPrecedence)

/-- The first best one. -/
def best? : List Accepted → Option Accepted
  | [] => none
  | a :: rest => some (rest.foldl (fun best b => if b.better best then b else best) a)

end Accepted

/-- The last token that the lexer gave. -/
structure TokenCache where
  position : Nat
  mode : LexMode
  tree : Subtree
  deriving Inhabited

structure ParseState where
  versions : List Version
  accepted : List Accepted := []
  reuse : Option ReuseCursor
  cache : Option TokenCache := none
  recoveries : Nat := 0
  stats : ParseStats := {}
  /-- what the text is read from, if it is not at hand -/
  input : Option Text.Input := none
  /-- the number of the next new subtree -/
  nextId : Nat

namespace ParseState

/-- The state in front of a text. -/
def start (base : StateId) (reuse : Option ReuseCursor) (id : Nat) : ParseState :=
  { versions := [⟨Stack.ofBase base, Length.zero, none⟩], reuse := reuse, nextId := id }

def setVersion (s : ParseState) (i : Nat) (v : Version) : ParseState :=
  { s with versions := s.versions.set i v }

def removeVersion (s : ParseState) (i : Nat) : ParseState :=
  { s with versions := s.versions.eraseIdx i }

/-- Several versions are alive. -/
def isForked (s : ParseState) : Bool := s.versions.length > 1

/-- Adds to the counters. -/
def count (s : ParseState) (f : ParseStats → ParseStats) : ParseState :=
  { s with stats := f s.stats }

/-- The version that is furthest behind, the first if there are several. -/
def nextVersion? (s : ParseState) : Option Nat :=
  match s.versions with
  | [] => none
  | v :: rest =>
    some (rest.zipIdx.foldl
      (fun (best : Nat × Nat) (w, i) =>
        if w.position.bytes < best.2 then (i + 1, w.position.bytes) else best)
      (0, v.position.bytes)).1

end ParseState

end IncrementalLR
