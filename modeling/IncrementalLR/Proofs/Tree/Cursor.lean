import IncrementalLR.Tree.Cursor

/-!
# Walks of tree cursors

The moves of a cursor that succeed describe a path of indices of children, from the node on which the
cursor was made or was last set. The cursor stands at the end of this path: on its node, with the
field of its last index, as deep as the path is long. A move succeeds if the path that it describes
leads to a node.
-/

namespace IncrementalLR

namespace Node

/-- The node at the end of a path of indices of children, the last index first. -/
def atPath? (n : Node) : List Nat → Option Node
  | [] => some n
  | i :: path => (n.atPath? path).bind (·.child? i)

/-- The name of the field of the last index of a path. -/
def fieldNameAtPath? (n : Node) : List Nat → Option String
  | [] => none
  | i :: path => (n.atPath? path).bind (·.fieldNameForChild? i)

theorem child?_eq (n : Node) (i : Nat) : n.child? i = n.labelledChildren[i]?.map (·.1) := by
  rw [child?, children, List.getElem?_map]

end Node

namespace TreeCursor

/-- The moves of a cursor. -/
inductive Move where
  | firstChild
  | nextSibling
  | parent
  /-- begins again on a node -/
  | reset (n : Node)

/-- A path of indices of children from a node, the last index first. -/
abbrev Path := Node × List Nat

/-- The path that a move describes behind a path. -/
def Move.along? : Move → Path → Option Path
  | .firstChild, (n, path) => some (n, 0 :: path)
  | .nextSibling, (n, i :: path) => some (n, (i + 1) :: path)
  | .parent, (n, _ :: path) => some (n, path)
  | .reset n, _ => some (n, [])
  | .nextSibling, (_, []) | .parent, (_, []) => none

def move? (c : TreeCursor) : Move → Option TreeCursor
  | .firstChild => c.firstChild?
  | .nextSibling => c.nextSibling?
  | .parent => c.parent?
  | .reset n => some (ofNode n)

/-- Makes moves one after the other, and leaves out those that fail. Gives the cursor and the path that
the others describe. -/
def walk (c : TreeCursor) (path : Path) : List Move → TreeCursor × Path
  | [] => (c, path)
  | m :: moves =>
    match c.move? m, m.along? path with
    | some c, some path => c.walk path moves
    | _, _ => c.walk path moves

/-- The node at the end of a path. -/
def Path.node? (path : Path) : Option Node := path.1.atPath? path.2

/-- The cursor stands at the end of a path. -/
structure StandsAt (c : TreeCursor) (path : Path) : Prop where
  node : path.node? = some c.node
  field : c.fieldId?.map c.node.table.fieldName = path.1.fieldNameAtPath? path.2
  depth : c.depth = path.2.length
  /-- a move succeeds if the path that it describes leads to a node -/
  moves : ∀ m : Move, (c.move? m).isSome = ((m.along? path).bind Path.node?).isSome

/-- The frames of a cursor along a path: in each of them the children of the node in the frame below it,
from an index on. -/
inductive Along (n : Node) : List Frame → List Nat → Prop
  | start : Along n [⟨n, none, []⟩] []
  | child (top below : Frame) (frames : List Frame) (i : Nat) (path : List Nat)
      (h : Along n (below :: frames) path)
      (hchildren : below.node.labelledChildren.drop i = (top.node, top.field) :: top.following) :
      Along n (top :: below :: frames) (i :: path)

variable {n : Node} {c d : TreeCursor} {frames : List Frame} {path : List Nat} {m : Move}

namespace Along

theorem getElem? {top below : Frame} {i : Nat}
    (h : below.node.labelledChildren.drop i = (top.node, top.field) :: top.following) :
    below.node.labelledChildren[i]? = some (top.node, top.field) := by
  rw [← List.head?_drop, h]
  rfl

theorem atPath? {top : Frame} (h : Along n (top :: frames) path) :
    n.atPath? path = some top.node := by
  generalize hall : top :: frames = all at h
  induction h generalizing top frames with
  | start =>
      cases hall
      rfl
  | child top' below frames' i path _ hchildren ih =>
      cases hall
      rw [Node.atPath?, ih rfl, Option.bind_some, Node.child?_eq, getElem? hchildren]
      rfl

theorem length_eq (h : Along n frames path) : frames.length = path.length + 1 := by
  induction h with
  | start => rfl
  | child _ _ _ _ _ _ _ ih => rw [List.length_cons, ih, List.length_cons]

/-- A move that succeeds leads along the path that it describes. -/
theorem move (h : Along n (c.top :: c.parents) path) (hd : c.move? m = some d) :
    ∃ path' : Path, m.along? (n, path) = some path' ∧ Along path'.1 (d.top :: d.parents) path'.2 := by
  obtain ⟨top, parents⟩ := c
  cases m with
  | firstChild =>
      rw [move?, firstChild?] at hd
      split at hd
      · cases hd
      · rename_i child field following hchildren
        cases hd
        exact ⟨(n, 0 :: path), rfl, .child _ _ _ 0 path h hchildren⟩
  | nextSibling =>
      cases h with
      | start => cases hd
      | child _ below frames i path h hchildren =>
          rw [move?, nextSibling?] at hd
          split at hd
          · cases hd
          · rename_i sibling field following hfollowing
            cases hd
            refine ⟨(n, (i + 1) :: path), rfl, .child _ _ _ (i + 1) path h ?_⟩
            rw [← List.drop_drop, hchildren, List.drop_one, List.tail_cons]
            exact hfollowing
  | parent =>
      cases h with
      | start => cases hd
      | child _ below frames i path h _ =>
          cases hd
          exact ⟨(n, path), rfl, h⟩
  | reset m =>
      cases hd
      exact ⟨(m, []), rfl, .start⟩

/-- A move that fails describes no path to a node. -/
theorem bind_eq_none (h : Along n (c.top :: c.parents) path) (hnone : c.move? m = none) :
    (m.along? (n, path)).bind Path.node? = none := by
  obtain ⟨top, parents⟩ := c
  cases m with
  | firstChild =>
      rw [move?, firstChild?] at hnone
      split at hnone
      · rename_i hchildren
        rw [Move.along?, Option.bind_some, Path.node?, Node.atPath?, h.atPath?, Option.bind_some,
          Node.child?_eq]
        rw [node] at hchildren
        rw [hchildren]
        rfl
      · cases hnone
  | nextSibling =>
      cases h with
      | start => rfl
      | child _ below frames i path h hchildren =>
          rw [move?, nextSibling?] at hnone
          split at hnone
          · rename_i hfollowing
            have hnext : below.node.labelledChildren.drop (i + 1) = [] := by
              rw [← List.drop_drop, hchildren, List.drop_one, List.tail_cons]
              exact hfollowing
            rw [Move.along?, Option.bind_some, Path.node?, Node.atPath?, h.atPath?, Option.bind_some,
              Node.child?_eq, ← List.head?_drop, hnext]
            rfl
          · cases hnone
  | parent =>
      cases h with
      | start => rfl
      | child => cases hnone
  | reset => cases hnone

theorem fieldName (h : Along n (c.top :: c.parents) path) :
    c.fieldId?.map c.node.table.fieldName = n.fieldNameAtPath? path := by
  obtain ⟨top, parents⟩ := c
  cases h with
  | start => rfl
  | child _ below frames i path h hchildren =>
      have htable : top.node.table = below.node.table := by
        obtain ⟨x, _, hx⟩ := List.mem_map.1 (List.mem_of_getElem? (getElem? hchildren))
        exact (congrArg (fun child : Node × Option FieldId => child.1.table) hx).symm
      rw [Node.fieldNameAtPath?, h.atPath?, Option.bind_some, Node.fieldNameForChild?,
        getElem? hchildren]
      change top.field.map top.node.table.fieldName = _
      rw [htable]
      cases top.field <;> rfl

theorem standsAt (h : Along n (c.top :: c.parents) path) : c.StandsAt (n, path) where
  node := h.atPath?
  field := h.fieldName
  depth := Nat.succ.inj h.length_eq
  moves m := by
    cases hmove : c.move? m with
    | none =>
        rw [h.bind_eq_none hmove]
        rfl
    | some d =>
        obtain ⟨path', hpath, halong⟩ := h.move hmove
        rw [hpath, Option.bind_some, Path.node?, halong.atPath?]
        rfl

end Along

/-- After any moves a cursor stands at the end of the path that those describe which succeeded. -/
theorem standsAt_walk (n : Node) (moves : List Move) :
    ((ofNode n).walk (n, []) moves).1.StandsAt ((ofNode n).walk (n, []) moves).2 := by
  have hwalk : ∀ (c : TreeCursor) (path : Path), Along path.1 (c.top :: c.parents) path.2 →
      (c.walk path moves).1.StandsAt (c.walk path moves).2 := by
    induction moves with
    | nil => exact fun c path h => h.standsAt
    | cons m moves ih =>
        intro c path h
        rw [walk]
        cases hmove : c.move? m with
        | none => exact ih c path h
        | some d =>
            obtain ⟨path', hpath, halong⟩ := h.move hmove
            rw [hpath]
            exact ih d path' halong
  exact hwalk (ofNode n) (n, []) .start

end TreeCursor

end IncrementalLR
