import IncrementalLR.Lexer.Basic
import IncrementalLR.Tree.Cost

/-!
# Subtrees

The nodes of syntax trees. A subtree keeps the length of what precedes it and its own length, and
no absolute place, so trees of different texts can share it. Each subtree has a number of its own;
equal numbers mean the same subtree.
-/

namespace IncrementalLR

structure Subtree.Flags where
  visible : Bool := false
  named : Bool := false
  extra : Bool := false
  /-- put in by error recovery -/
  missing : Bool := false
  leaf : Bool := false
  /-- is or contains skipped text or a missing token -/
  hasError : Bool := false
  /-- touched by an edit -/
  hasChanges : Bool := false
  /-- depends on more than its own text, so it is never reused -/
  fragile : Bool := false
  deriving DecidableEq, Repr, Inhabited

/-- What is known of a subtree beside its children. -/
structure Subtree.Head where
  id : Nat
  symbol : Symbol
  /-- in front of the subtree -/
  padding : Length
  size : Length
  /-- how far behind the subtree the text was looked at -/
  lookaheadBytes : Nat
  lexMode : LexMode
  production : Option ProductionId
  /-- symbol and lex mode of the first leaf -/
  firstLeaf : Symbol × LexMode
  flags : Subtree.Flags
  errorCost : Cost
  dynamicPrecedence : Int32
  deriving DecidableEq, Repr, Inhabited

inductive Subtree where
  | mk (head : Subtree.Head) (children : List Subtree)
  deriving Repr, Inhabited

namespace Subtree

def head : Subtree → Head
  | mk head _ => head

def children : Subtree → List Subtree
  | mk _ children => children

def id (t : Subtree) : Nat := t.head.id

def symbol (t : Subtree) : Symbol := t.head.symbol

def padding (t : Subtree) : Length := t.head.padding

def size (t : Subtree) : Length := t.head.size

def flags (t : Subtree) : Flags := t.head.flags

def isLeaf (t : Subtree) : Bool := t.flags.leaf

def isVisible (t : Subtree) : Bool := t.flags.visible

/-- Padding and size together. -/
def total (t : Subtree) : Length := t.padding + t.size

/-- Counts towards the right-hand side of a production. -/
def isStructural (t : Subtree) : Bool := !t.flags.extra && t.symbol != Symbol.error

mutual

/-- The number of nodes of a subtree. -/
def nodeCount : Subtree → Nat
  | mk _ children => nodeCountAll children + 1

def nodeCountAll : List Subtree → Nat
  | [] => 0
  | t :: rest => t.nodeCount + nodeCountAll rest

end

theorem nodeCountAll_append (a b : List Subtree) :
    nodeCountAll (a ++ b) = nodeCountAll a + nodeCountAll b := by
  induction a with
  | nil => simp [nodeCountAll]
  | cons t rest ih => simp [nodeCountAll, ih, Nat.add_assoc]

theorem nodeCount_eq (t : Subtree) : t.nodeCount = nodeCountAll t.children + 1 := by
  cases t; simp [nodeCount, children]

/-- The leaf of a token. -/
def ofToken (table : Table) (id : Nat) (token : Lexed) : Subtree :=
  let info := table.symbolInfo token.symbol
  let isError := token.symbol == Symbol.error
  mk {
    id := id
    symbol := token.symbol
    padding := token.padding
    size := token.size
    lookaheadBytes := token.lookaheadBytes
    lexMode := token.mode
    production := none
    firstLeaf := (token.symbol, token.mode)
    flags := {
      visible := info.visible, named := info.named, extra := info.extra, leaf := true,
      hasError := isError }
    errorCost := if isError then Cost.skipped token.size else 0
    dynamicPrecedence := 0 } []

/-- The leaf of a token that is not there. -/
def ofMissing (table : Table) (id : Nat) (s : Symbol) (mode : LexMode) : Subtree :=
  let info := table.symbolInfo s
  mk {
    id := id
    symbol := s
    padding := Length.zero
    size := Length.zero
    lookaheadBytes := 1
    lexMode := mode
    production := none
    firstLeaf := (s, mode)
    flags := {
      visible := info.visible, named := info.named, missing := true, leaf := true,
      hasError := true }
    errorCost := Cost.ofNat Cost.missingTree
    dynamicPrecedence := 0 } []

/-- What a node takes over from its children. -/
structure Summary where
  length : Length := Length.zero
  /-- how far the text was looked at, from the start of the first child -/
  lookaheadEnd : Nat := 0
  errorCost : Nat := 0
  hasError : Bool := false
  deriving DecidableEq, Repr, Inhabited

/-- What a child costs in a node. A node of skipped text pays for each child and its size, except
for leaves of skipped text, which have paid for their size. -/
def costWithin (isError : Bool) (child : Subtree) : Nat :=
  child.head.errorCost.toNat +
    if isError && !child.flags.extra then
      Cost.skippedTree +
        if child.isLeaf && child.symbol == Symbol.error then 0
        else (Cost.skipped child.size).toNat
    else 0

def Summary.add (isError : Bool) (summary : Summary) (child : Subtree) : Summary :=
  let length := summary.length + child.total
  { length := length
    lookaheadEnd := max summary.lookaheadEnd (length.bytes + child.head.lookaheadBytes)
    errorCost := summary.errorCost + costWithin isError child
    hasError := summary.hasError || child.flags.hasError }

/-- A node over children. -/
def interior (table : Table) (id : Nat) (s : Symbol) (children : List Subtree)
    (production : Option ProductionId) (fragile : Bool) : Subtree :=
  let info := table.symbolInfo s
  let isError := s == Symbol.error
  let own : Int32 := (production.map fun p => (table.production p).dynamicPrecedence).getD 0
  let head : Head := {
    id := id
    symbol := s
    padding := Length.zero
    size := Length.zero
    lookaheadBytes := 0
    lexMode := LexMode.error
    production := production
    firstLeaf := (s, LexMode.error)
    flags := {
      visible := info.visible, named := info.named, hasError := isError, fragile := fragile }
    errorCost := 0
    dynamicPrecedence := own + (children.map (·.head.dynamicPrecedence)).sum }
  match children with
  | [] => mk head []
  | first :: _ =>
    let summary := children.foldl (Summary.add isError)
      { errorCost := if isError then Cost.recovery else 0, hasError := isError }
    mk { head with
      padding := first.padding
      size := summary.length.monus first.padding
      lookaheadBytes := summary.lookaheadEnd - summary.length.bytes
      lexMode := first.head.lexMode
      firstLeaf := first.head.firstLeaf
      flags := { head.flags with hasError := summary.hasError }
      errorCost := Cost.ofNat summary.errorCost } children

/-- The children of a node of skipped text in its place; other subtrees stand for themselves. -/
def flattenError (t : Subtree) : List Subtree :=
  if t.symbol == Symbol.error && !t.isLeaf then t.children else [t]

/-- A node of skipped text over subtrees; such nodes do not nest. -/
def ofSkipped (table : Table) (id : Nat) (trees : List Subtree) : Subtree :=
  interior table id Symbol.error (trees.flatMap flattenError) none true

end Subtree

end IncrementalLR
