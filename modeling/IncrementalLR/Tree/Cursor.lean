import IncrementalLR.Tree.Basic

/-!
# Tree cursors

A cursor walks over the nodes below the node it was made on and knows the fields on its way.
-/

namespace IncrementalLR

structure TreeCursor.Frame where
  node : Node
  field : Option FieldId
  /-- the siblings behind the node -/
  following : List (Node × Option FieldId)

structure TreeCursor where
  top : TreeCursor.Frame
  /-- the frames of the parents, the nearest first -/
  parents : List TreeCursor.Frame

namespace TreeCursor

def ofNode (n : Node) : TreeCursor := ⟨⟨n, none, []⟩, []⟩

def node (c : TreeCursor) : Node := c.top.node

def fieldId? (c : TreeCursor) : Option FieldId := c.top.field

/-- The depth below the node that the cursor was made on. -/
def depth (c : TreeCursor) : Nat := c.parents.length

def firstChild? (c : TreeCursor) : Option TreeCursor :=
  match c.node.labelledChildren with
  | [] => none
  | (child, field) :: following => some ⟨⟨child, field, following⟩, c.top :: c.parents⟩

def nextSibling? (c : TreeCursor) : Option TreeCursor :=
  match c.top.following with
  | [] => none
  | (sibling, field) :: following => some { c with top := ⟨sibling, field, following⟩ }

def parent? (c : TreeCursor) : Option TreeCursor :=
  match c.parents with
  | [] => none
  | top :: parents => some ⟨top, parents⟩

end TreeCursor

end IncrementalLR
