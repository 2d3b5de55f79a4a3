import IncrementalLR.Tree.Subtree

/-!
# Reusing an old tree

A cursor stands in front of a node of an old tree, with the nodes above it on a stack. It only moves
forward: past its node, to the next sibling of the node or of the nearest node above it that has one,
or into its node.
-/

namespace IncrementalLR

/-- A node on the way from the root to the node in front of the cursor. -/
structure ReuseEntry where
  tree : Subtree
  /-- its place among its siblings -/
  index : Nat
  /-- where it starts in the text -/
  offset : Nat
  deriving Inhabited

structure ReuseCursor where
  /-- the node in front of the cursor and those above it, up to the root; none at the end -/
  stack : List ReuseEntry
  deriving Inhabited

namespace ReuseCursor

def ofRoot (root : Subtree) : ReuseCursor := ⟨[⟨root, 0, 0⟩]⟩

/-- Where the node in front of the cursor starts. -/
def offset (c : ReuseCursor) : Nat :=
  match c.stack with
  | [] => 0
  | entry :: _ => entry.offset

/-- The next sibling of a node, or of the nearest node above it that has one. -/
def next (index offset : Nat) : List ReuseEntry → List ReuseEntry
  | [] => []
  | parent :: above =>
    match parent.tree.children[index + 1]? with
    | some tree => ⟨tree, index + 1, offset⟩ :: parent :: above
    | none => next parent.index offset above

/-- The siblings behind a node, then those behind the nodes above it. -/
def behind (index : Nat) : List ReuseEntry → List Subtree
  | [] => []
  | parent :: above => parent.tree.children.drop (index + 1) ++ behind parent.index above

/-- What is left of the old tree, from the node in front of the cursor on. -/
def rest (c : ReuseCursor) : List Subtree :=
  match c.stack with
  | [] => []
  | entry :: above => entry.tree :: behind entry.index above

/-- Moves past the node. -/
def advance (c : ReuseCursor) : ReuseCursor :=
  match c.stack with
  | [] => c
  | entry :: above => ⟨next entry.index (entry.offset + entry.tree.total.bytes) above⟩

/-- Moves to the first child of the node. -/
def descend? (c : ReuseCursor) : Option ReuseCursor :=
  match c.stack with
  | [] => none
  | entry :: above =>
    entry.tree.children.head?.map fun first => ⟨⟨first, 0, entry.offset⟩ :: entry :: above⟩

/-- Moves into the node, or past it if it has no children. -/
def stepInto (c : ReuseCursor) : ReuseCursor := c.descend?.getD c.advance

theorem behind_next (index offset : Nat) (above : List ReuseEntry) :
    rest ⟨next index offset above⟩ = behind index above := by
  induction above generalizing index with
  | nil => rfl
  | cons parent above ih =>
      rw [next, behind]
      cases hnext : parent.tree.children[index + 1]? with
      | none =>
          rw [List.drop_eq_nil_of_le (List.getElem?_eq_none_iff.1 hnext), List.nil_append]
          exact ih parent.index
      | some tree =>
          rw [List.drop_eq_getElem?_toList_append, hnext]
          rfl

@[simp] theorem rest_mk_cons (entry : ReuseEntry) (above : List ReuseEntry) :
    rest ⟨entry :: above⟩ = entry.tree :: behind entry.index above := rfl

/-- What is left behind the node. -/
@[simp] theorem rest_advance (c : ReuseCursor) : c.advance.rest = c.rest.tail := by
  obtain ⟨_ | ⟨entry, above⟩⟩ := c
  · rfl
  · exact behind_next entry.index (entry.offset + entry.tree.total.bytes) above

/-- The children of the node stand in its place. -/
theorem rest_stepInto (c : ReuseCursor) : c.stepInto.rest = match c.rest with
    | [] => []
    | tree :: rest => tree.children ++ rest := by
  obtain ⟨_ | ⟨entry, above⟩⟩ := c
  · rfl
  · rw [stepInto, descend?]
    cases hchildren : entry.tree.children with
    | nil =>
        simp only [hchildren, List.head?_nil, Option.map_none, Option.getD_none, rest_advance,
          rest_mk_cons, List.tail_cons, List.nil_append]
    | cons first more =>
        simp only [hchildren, List.head?_cons, Option.map_some, Option.getD_some, rest_mk_cons,
          behind, List.cons_append, Nat.zero_add, List.drop_succ_cons, List.drop_zero]

theorem rest_ne_nil {c : ReuseCursor} {entry : ReuseEntry} {above : List ReuseEntry}
    (h : c.stack = entry :: above) : c.rest ≠ [] := by
  rw [ReuseCursor.rest, h]
  exact List.cons_ne_nil _ _

/-- The number of nodes that are left. -/
def remaining (c : ReuseCursor) : Nat := Subtree.nodeCountAll c.rest

theorem remaining_advance_lt {c : ReuseCursor} (h : c.rest ≠ []) :
    c.advance.remaining < c.remaining := by
  obtain ⟨tree, rest, hrest⟩ := List.exists_cons_of_ne_nil h
  rw [remaining, remaining, rest_advance, hrest, List.tail_cons, Subtree.nodeCountAll,
    Subtree.nodeCount_eq tree]
  omega

theorem remaining_stepInto_lt {c : ReuseCursor} (h : c.rest ≠ []) :
    c.stepInto.remaining < c.remaining := by
  obtain ⟨tree, rest, hrest⟩ := List.exists_cons_of_ne_nil h
  rw [remaining, remaining, rest_stepInto, hrest, Subtree.nodeCountAll_append,
    Subtree.nodeCountAll, Subtree.nodeCount_eq tree]
  omega

/-- Whether a subtree can be taken over in a state: it is unchanged, free of errors, does not depend
on what surrounds it, its first leaf was lexed in the mode of the state, and the state has an action
for that leaf. -/
def accepts (t : Table) (state : StateId) (tree : Subtree) : Bool :=
  let (leaf, mode) := tree.head.firstLeaf
  !tree.flags.hasChanges && !tree.flags.hasError && tree.symbol != Symbol.error &&
    !tree.flags.fragile && tree.size.bytes != 0 && mode == t.lexMode state &&
    ((t.symbolInfo leaf).extra || t.action state leaf != .error)

/-- Finds the first subtree at a place, and so a largest one, that can be taken over in a state. The
cursor stays in front of it. -/
def take (c : ReuseCursor) (t : Table) (position : Nat) (state : StateId) :
    Option Subtree × ReuseCursor :=
  match _h : c.stack with
  | [] => (none, c)
  | entry :: _ =>
    if entry.offset > position then (none, c)
    else if entry.offset < position then
      if entry.offset + entry.tree.total.bytes ≤ position then c.advance.take t position state
      else c.stepInto.take t position state
    else if accepts t state entry.tree then (some entry.tree, c)
    else c.stepInto.take t position state
  termination_by c.remaining
  decreasing_by
  · exact remaining_advance_lt (rest_ne_nil _h)
  · exact remaining_stepInto_lt (rest_ne_nil _h)
  · exact remaining_stepInto_lt (rest_ne_nil _h)

end ReuseCursor

end IncrementalLR
