import IncrementalLR.Tree.Subtree

/-!
# Parse stacks

A stack is a base state with frames on it, the last one first. A frame holds a subtree and the state
behind it. Frames of extras and of skipped text repeat the state below them.
-/

namespace IncrementalLR

structure Stack.Frame where
  state : StateId
  tree : Subtree
  /-- a reused node that no action has confirmed yet -/
  pending : Bool
  /-- the sums over this frame and those below it -/
  errorCost : Cost
  dynamicPrecedence : Int32
  deriving Inhabited

structure Stack where
  base : StateId
  frames : List Stack.Frame
  deriving Inhabited

namespace Stack

def ofBase (base : StateId) : Stack := ⟨base, []⟩

def state (s : Stack) : StateId :=
  match s.frames with
  | [] => s.base
  | top :: _ => top.state

def errorCost (s : Stack) : Cost :=
  match s.frames with
  | [] => 0
  | top :: _ => top.errorCost

def dynamicPrecedence (s : Stack) : Int32 :=
  match s.frames with
  | [] => 0
  | top :: _ => top.dynamicPrecedence

def push (s : Stack) (state : StateId) (tree : Subtree) (pending : Bool) : Stack :=
  { s with frames := {
      state := state
      tree := tree
      pending := pending
      errorCost := Cost.ofNat (s.errorCost.toNat + tree.head.errorCost.toNat)
      dynamicPrecedence := s.dynamicPrecedence + tree.head.dynamicPrecedence } :: s.frames }

/-- Pushes subtrees in order, each with the same state. -/
def pushAll (s : Stack) (state : StateId) (trees : List Subtree) : Stack :=
  trees.foldl (fun s tree => s.push state tree false) s

/-- The subtrees from the bottom up. -/
def trees (s : Stack) : List Subtree := (s.frames.map (·.tree)).reverse

/-- The states behind structural subtrees, the last one first, down to the base. -/
def structuralStates (s : Stack) : List StateId :=
  (s.frames.filter (·.tree.isStructural)).map (·.state) ++ [s.base]

/-- Both stacks have the same states all the way down. -/
def sameStates (a b : Stack) : Bool :=
  a.base == b.base && a.frames.map (·.state) == b.frames.map (·.state)

/-- Takes off the last subtrees that are extras or skipped text. Gives them from the bottom up. -/
def popTrailing (s : Stack) : List Subtree × Stack :=
  ((s.frames.takeWhile (!·.tree.isStructural)).reverse.map (·.tree),
    { s with frames := s.frames.dropWhile (!·.tree.isStructural) })

/-- Takes off frames until `count` structural subtrees are among them, in front of those that are
taken off already. -/
def popFrames : Nat → List Frame → List Subtree → List Subtree × List Frame
  | 0, frames, taken => (taken, frames)
  | _ + 1, [], taken => (taken, [])
  | count + 1, top :: below, taken =>
    popFrames (if top.tree.isStructural then count else count + 1) below (top.tree :: taken)

/-- Takes off subtrees until `count` structural ones are among them. Gives them from the bottom
up. -/
def popStructural (s : Stack) (count : Nat) : List Subtree × Stack :=
  let (taken, frames) := popFrames count s.frames []
  (taken, { s with frames := frames })

end Stack

end IncrementalLR
