import IncrementalLR.Tree.Basic

/-!
# Moving about in a tree

Subtrees do not know their parents, so parents are found from the root. The smallest node around a
stretch of bytes is found by going down into the first child that does not end in front of it.
-/

namespace IncrementalLR

namespace Subtree

mutual

/-- The nearest visible subtree above a target, looked for under a subtree at a place; `above` is
the nearest one so far. -/
def parentUnder (target above : Placed) (offset : Length) : Subtree → Option Placed
  | mk _ children => parentAmong target above offset children

def parentAmong (target above : Placed) (offset : Length) : List Subtree → Option Placed
  | [] => none
  | child :: rest =>
    let here : Placed := ⟨child, offset⟩
    if here.isSame target then some above
    else
      let covers := offset.bytes ≤ target.offset.bytes &&
        target.offset.bytes + target.subtree.total.bytes ≤ offset.bytes + child.total.bytes &&
        !child.children.isEmpty
      let found :=
        if covers then parentUnder target (if child.isVisible then here else above) offset child
        else none
      found.or (parentAmong target above (offset + child.total) rest)

end

/-- Whether a child that starts and ends at these bytes lies in front of a place. Only an empty child
may sit right at it. -/
def endsBefore (start childStart childEnd : Nat) : Bool :=
  if childStart = childEnd then childEnd < start else childEnd ≤ start

mutual

/-- The last accepted subtree on the way down to a stretch of bytes; `found` is the last so far. -/
def descendUnder (start stop : Nat) (accept : Flags → Bool) (found : Placed) (offset : Length) :
    Subtree → Placed
  | mk _ children => descendAmong start stop accept found offset children

def descendAmong (start stop : Nat) (accept : Flags → Bool) (found : Placed) (offset : Length) :
    List Subtree → Placed
  | [] => found
  | child :: rest =>
    let here : Placed := ⟨child, offset⟩
    let childEnd := here.next.bytes
    if childEnd < stop || endsBefore start here.start.bytes childEnd then
      descendAmong start stop accept found here.next rest
    else if start < here.start.bytes then found
    else descendUnder start stop accept (if accept child.flags then here else found) offset child

end

end Subtree

namespace Node

/-- The nearest node above. -/
def parent? (n : Node) : Option Node :=
  let root := n.tree.rootNode
  if n.isSame root then none
  else (root.subtree.parentUnder n.placed root.placed root.placed.offset).map fun p => ⟨n.tree, p⟩

/-- The place of a node among its siblings, and the siblings. -/
def amongSiblings? (n : Node) : Option (Nat × List Node) := do
  let siblings := (← n.parent?).children
  return (← siblings.findIdx? (·.isSame n), siblings)

def nextSibling? (n : Node) : Option Node := do
  let (i, siblings) ← n.amongSiblings?
  siblings[i + 1]?

def prevSibling? (n : Node) : Option Node := do
  let (i, siblings) ← n.amongSiblings?
  if i = 0 then none else siblings[i - 1]?

def descendant? (n : Node) (start stop : Nat) (accept : Subtree.Flags → Bool) : Option Node :=
  if start > stop || start < n.startByte || stop > n.endByte then none
  else some ⟨n.tree, n.subtree.descendUnder start stop accept n.placed n.placed.offset⟩

/-- The smallest node of this one and those below it that spans a stretch of bytes. -/
def descendantForRange? (n : Node) (start stop : Nat) : Option Node :=
  n.descendant? start stop fun flags => flags.visible

/-- The smallest such node that is named, or this one. -/
def namedDescendantForRange? (n : Node) (start stop : Nat) : Option Node :=
  n.descendant? start stop fun flags => flags.visible && flags.named

end Node

end IncrementalLR
