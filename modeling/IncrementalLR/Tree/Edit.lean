import IncrementalLR.Tree.Basic

/-!
# Edits

An edit replaces a stretch of a text. Editing a tree moves its places along: the subtrees that the
edit touches get new lengths and are marked as changed, all others stay what they are.
-/

namespace IncrementalLR

structure InputEdit where
  startByte : Nat
  oldEndByte : Nat
  newEndByte : Nat
  startPoint : Point
  oldEndPoint : Point
  newEndPoint : Point
  deriving DecidableEq, Repr, Inhabited

namespace InputEdit

/-- The edit that puts a new text in the place of the bytes from `start` to `stop`. -/
def replace (text : ByteArray) (start stop : Nat) (new : ByteArray) : InputEdit :=
  let first := Length.ofBytes (text.extract 0 start)
  let oldEnd := first + Length.ofBytes (text.extract start stop)
  let newEnd := first + Length.ofBytes new
  ⟨first.bytes, oldEnd.bytes, newEnd.bytes, first.extent, oldEnd.extent, newEnd.extent⟩

/-- The text after the edit. -/
def applyTo (edit : InputEdit) (text new : ByteArray) : ByteArray :=
  text.extract 0 edit.startByte ++ new ++ text.extract edit.oldEndByte text.size

end InputEdit

/-- An edit as one subtree sees it: its places count from the start of the padding. -/
structure RelativeEdit where
  start : Length
  oldEnd : Length
  newEnd : Length
  deriving DecidableEq, Repr, Inhabited

namespace RelativeEdit

def ofInput (edit : InputEdit) : RelativeEdit :=
  ⟨⟨edit.startByte, edit.startPoint⟩, ⟨edit.oldEndByte, edit.oldEndPoint⟩,
    ⟨edit.newEndByte, edit.newEndPoint⟩⟩

/-- Nothing is taken away. -/
def isInsertion (edit : RelativeEdit) : Bool := edit.start.bytes == edit.oldEnd.bytes

/-- The edit as seen from a later place. -/
def after (edit : RelativeEdit) (place : Length) : RelativeEdit :=
  ⟨edit.start.monus place, edit.oldEnd.monus place, edit.newEnd.monus place⟩

/-- The edit without its new text, which went into an earlier subtree. -/
def withoutNew (edit : RelativeEdit) : RelativeEdit := { edit with newEnd := edit.start }

end RelativeEdit

namespace Subtree

/-- Padding and size after an edit. -/
def editedLengths (padding size : Length) (edit : RelativeEdit) : Length × Length :=
  let total := padding + size
  if edit.oldEnd.bytes ≤ padding.bytes then (edit.newEnd + (padding - edit.oldEnd), size)
  else if edit.start.bytes < padding.bytes then
    (edit.newEnd, size.monus (edit.oldEnd - padding))
  else if edit.start.bytes < total.bytes ||
      (edit.start.bytes == total.bytes && edit.isInsertion) then
    (padding, (edit.newEnd - padding) + total.monus edit.oldEnd)
  else (padding, size)

/-- The edit passes by this subtree: it starts behind everything that was looked at. -/
def isBefore (right : Length) (edit : RelativeEdit) (child : Subtree) : Bool :=
  right.bytes + child.head.lookaheadBytes < edit.start.bytes

/-- The edit ends in front of this subtree. -/
def isBehind (left : Length) (edit : RelativeEdit) (isFirst : Bool) (child : Subtree) : Bool :=
  left.bytes > edit.oldEnd.bytes ||
    (left.bytes == edit.oldEnd.bytes && child.size.bytes > 0 && !isFirst)

/-- The new text goes into this subtree. -/
def takesNew (right : Length) (edit : RelativeEdit) : Bool :=
  right.bytes > edit.start.bytes || (right.bytes == edit.start.bytes && edit.isInsertion)

mutual

/-- The subtree after an edit that touches it, and the next free number. New subtrees are numbered
from `id` on. -/
def edit (change : RelativeEdit) (id : Nat) : Subtree → Subtree × Nat
  | mk head children =>
    let (padding, size) := editedLengths head.padding head.size change
    let (children, next) := editAmong change (id + 1) true Length.zero children
    (mk { head with
      id := id, padding := padding, size := size,
      flags := { head.flags with hasChanges := true } } children, next)

def editAmong (change : RelativeEdit) (id : Nat) (isFirst : Bool) (left : Length) :
    List Subtree → List Subtree × Nat
  | [] => ([], id)
  | child :: rest =>
    let right := left + child.total
    if isBefore right change child then
      let (rest, next) := editAmong change id false right rest
      (child :: rest, next)
    else if isBehind left change isFirst child then (child :: rest, id)
    else
      let (child, next) := edit (change.after left) id child
      let change := if takesNew right change then change.withoutNew else change
      let (rest, next) := editAmong change next false right rest
      (child :: rest, next)

end

end Subtree

/-- The tree of the text after an edit, to be used in parsing that text, and the next free number of
subtrees. -/
def Tree.edit (tree : Tree) (edit : InputEdit) (id : Nat) : Tree × Nat :=
  let relative := RelativeEdit.ofInput edit
  let (root, next) := tree.root.edit relative id
  let size := relative.newEnd + tree.root.total.monus relative.oldEnd
  ({ tree with root := .mk { root.head with padding := Length.zero, size := size } root.children },
    next)

end IncrementalLR
