import IncrementalLR.Language
import IncrementalLR.Tree.Subtree

/-!
# Syntax trees

A tree is a root with the language of its text. A node is a subtree at a place. Hidden subtrees are
no nodes: their children stand in their place, and a field of a hidden subtree is the field of all
of them.
-/

namespace IncrementalLR

inductive ParseStatus where
  /-- the whole text was parsed, perhaps with errors -/
  | complete
  /-- stopped from outside or by the limit of operations -/
  | cancelled
  /-- too many recoveries from errors -/
  | recoveryExhausted
  deriving DecidableEq, Repr, Inhabited

def ParseStatus.name : ParseStatus → String
  | complete => "Complete"
  | cancelled => "Cancelled"
  | recoveryExhausted => "RecoveryExhausted"

structure Tree where
  root : Subtree
  language : Language
  status : ParseStatus

/-- A subtree at a place: where its padding starts. -/
structure Placed where
  subtree : Subtree
  offset : Length
  deriving Repr, Inhabited

namespace Placed

/-- The same subtree at the same place. -/
def isSame (a b : Placed) : Bool :=
  a.subtree.id == b.subtree.id && a.offset.bytes == b.offset.bytes

def start (p : Placed) : Length := p.offset + p.subtree.padding

def stop (p : Placed) : Length := p.start + p.subtree.size

/-- Where the next subtree is. -/
def next (p : Placed) : Length := p.offset + p.subtree.total

def range (p : Placed) : Range :=
  ⟨p.start.bytes, p.stop.bytes, p.start.extent, p.stop.extent⟩

end Placed

/-- The fields of the right-hand side of a production. -/
def Table.fieldsOf (t : Table) (production : Option ProductionId) : List (Option FieldId) :=
  match production with
  | some p => (t.production p).fields.toList
  | none => []

namespace Subtree

mutual

/-- The visible subtrees right under a subtree at a place, with their fields. A field that is
inherited replaces theirs. -/
def visibleUnder (table : Table) (inherited : Option FieldId) (offset : Length) :
    Subtree → List (Placed × Option FieldId)
  | mk head children =>
    visibleAmong table inherited (table.fieldsOf head.production) offset children

/-- The visible subtrees among children at a place. Only structural children have fields. -/
def visibleAmong (table : Table) (inherited : Option FieldId) (fields : List (Option FieldId))
    (offset : Length) : List Subtree → List (Placed × Option FieldId)
  | [] => []
  | child :: rest =>
    let own := if child.isStructural then fields.head?.join else none
    let field := inherited.or own
    let here :=
      if child.isVisible then [(⟨child, offset⟩, field)]
      else visibleUnder table field offset child
    here ++ visibleAmong table inherited (if child.isStructural then fields.tail else fields)
      (offset + child.total) rest

end

mutual

theorem nodeCount_lt_of_mem_visibleUnder (table : Table) (inherited : Option FieldId)
    (offset : Length) (t : Subtree) (x : Placed × Option FieldId)
    (h : x ∈ visibleUnder table inherited offset t) : x.1.subtree.nodeCount < t.nodeCount := by
  match t with
  | mk head children =>
    rw [visibleUnder] at h
    have := nodeCount_le_of_mem_visibleAmong table inherited _ offset children x h
    simp only [nodeCount]
    omega

theorem nodeCount_le_of_mem_visibleAmong (table : Table) (inherited : Option FieldId)
    (fields : List (Option FieldId)) (offset : Length) (trees : List Subtree)
    (x : Placed × Option FieldId) (h : x ∈ visibleAmong table inherited fields offset trees) :
    x.1.subtree.nodeCount ≤ nodeCountAll trees := by
  match trees with
  | [] => simp [visibleAmong] at h
  | child :: rest =>
    simp only [visibleAmong, List.mem_append] at h
    simp only [nodeCountAll]
    rcases h with h | h
    · split at h
      · rw [List.mem_singleton] at h
        subst h
        exact Nat.le_add_right _ _
      · have := nodeCount_lt_of_mem_visibleUnder table _ offset child x h
        omega
    · have := nodeCount_le_of_mem_visibleAmong table inherited _ _ rest x h
      omega

end

end Subtree

/-- A node of a tree. -/
structure Node where
  tree : Tree
  placed : Placed

namespace Node

def subtree (n : Node) : Subtree := n.placed.subtree

def table (n : Node) : Table := n.tree.language.table

/-- The number that tells subtrees apart. -/
def id (n : Node) : Nat := n.subtree.id

def symbol (n : Node) : Symbol := n.subtree.symbol

/-- The name of a rule, the text of a literal, or that of errors. -/
def kind (n : Node) : String := n.table.symbolName n.symbol

def isNamed (n : Node) : Bool := n.subtree.flags.named

def isExtra (n : Node) : Bool := n.subtree.flags.extra

def isError (n : Node) : Bool := n.symbol == Symbol.error

def isMissing (n : Node) : Bool := n.subtree.flags.missing

def hasError (n : Node) : Bool := n.subtree.flags.hasError

def hasChanges (n : Node) : Bool := n.subtree.flags.hasChanges

def range (n : Node) : Range := n.placed.range

def startByte (n : Node) : Nat := n.placed.start.bytes

def endByte (n : Node) : Nat := n.placed.stop.bytes

def isSame (a b : Node) : Bool := a.placed.isSame b.placed

/-- The children of a node with their fields. -/
def labelledChildren (n : Node) : List (Node × Option FieldId) :=
  (n.subtree.visibleUnder n.table none n.placed.offset).map fun (placed, field) =>
    (⟨n.tree, placed⟩, field)

def children (n : Node) : List Node := n.labelledChildren.map (·.1)

def namedChildren (n : Node) : List Node := n.children.filter (·.isNamed)

def child? (n : Node) (i : Nat) : Option Node := n.children[i]?

def namedChild? (n : Node) (i : Nat) : Option Node := n.namedChildren[i]?

/-- The children with a field. -/
def childrenByField (n : Node) (name : String) : List Node :=
  match n.table.fieldId? name with
  | none => []
  | some field => (n.labelledChildren.filter (·.2 == some field)).map (·.1)

def childByField? (n : Node) (name : String) : Option Node := (n.childrenByField name).head?

/-- The name of the field of a child. -/
def fieldNameForChild? (n : Node) (i : Nat) : Option String := do
  let (_, field) ← n.labelledChildren[i]?
  return n.table.fieldName (← field)

theorem nodeCount_lt_of_mem_labelledChildren {n : Node} {x : Node × Option FieldId}
    (h : x ∈ n.labelledChildren) : x.1.subtree.nodeCount < n.subtree.nodeCount := by
  obtain ⟨y, hy, rfl⟩ := List.mem_map.1 h
  exact Subtree.nodeCount_lt_of_mem_visibleUnder _ _ _ _ _ hy

/-- The part of a text that a node covers. -/
def text (n : Node) (source : ByteArray) : ByteArray := source.extract n.startByte n.endByte

/-- A short description: kind, start and end. -/
def describe (n : Node) : String :=
  "\x7bNode " ++ n.kind ++ " " ++ n.placed.start.extent.render ++ " - " ++
    n.placed.stop.extent.render ++ "\x7d"

end Node

namespace Tree

def rootNode (t : Tree) : Node := ⟨t, ⟨t.root, Length.zero⟩⟩

/-- A short description: root and status. -/
def describe (t : Tree) : String :=
  "\x7bTree " ++ t.rootNode.describe ++ " " ++ t.status.name ++ "\x7d"

end Tree

end IncrementalLR
