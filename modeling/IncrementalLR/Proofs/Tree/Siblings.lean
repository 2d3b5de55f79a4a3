import IncrementalLR.Proofs.Tree.Descent
import IncrementalLR.Proofs.Tree.Numbers

/-!
# Parents and siblings

A search for the parent of a node goes down from the root into the subtrees that contain the place of the
node. Where nodes have room for their children these are all that can be above the node, and where no
number is there twice nothing else is taken for it. So every child is found under its parent.
-/

namespace IncrementalLR

open Subtree (ids_eq idsAll nodesAt nodesAmong totalAll visibleUnder visibleAmong parentUnder parentAmong)

variable {table : Table} {t : Subtree} {trees : List Subtree} {place : Length} {p : Placed}

/-! ### Places and numbers -/

mutual

theorem ids_sublist_of_mem_nodesAt (place : Length) (t : Subtree) (hp : p ∈ nodesAt place t) :
    p.subtree.ids.Sublist t.ids := by
  match t with
  | .mk head children =>
      rw [nodesAt] at hp
      cases hp with
      | head => exact List.Sublist.refl _
      | tail _ hp => exact (ids_sublist_of_mem_nodesAmong place children hp).cons _

theorem ids_sublist_of_mem_nodesAmong (place : Length) (trees : List Subtree)
    (hp : p ∈ nodesAmong place trees) : p.subtree.ids.Sublist (idsAll trees) := by
  match trees with
  | [] => cases hp
  | t :: rest =>
      rw [nodesAmong, List.mem_append] at hp
      rw [idsAll]
      rcases hp with hp | hp
      · exact (ids_sublist_of_mem_nodesAt place t hp).trans (List.sublist_append_left _ _)
      · exact (ids_sublist_of_mem_nodesAmong _ rest hp).trans (List.sublist_append_right _ _)

end

mutual

/-- The numbers of the children of a node are among those under it, in the same order. -/
theorem map_id_visibleUnder_sublist (table : Table) (inherited : Option FieldId) (offset : Length)
    (t : Subtree) :
    ((visibleUnder table inherited offset t).map (·.1.subtree.id)).Sublist (idsAll t.children) := by
  match t with
  | .mk head children =>
      rw [visibleUnder]
      exact map_id_visibleAmong_sublist table inherited _ offset children

theorem map_id_visibleAmong_sublist (table : Table) (inherited : Option FieldId)
    (fields : List (Option FieldId)) (offset : Length) (trees : List Subtree) :
    ((visibleAmong table inherited fields offset trees).map (·.1.subtree.id)).Sublist
      (idsAll trees) := by
  match trees with
  | [] => exact List.Sublist.refl _
  | child :: rest =>
      rw [visibleAmong, idsAll, List.map_append]
      refine List.Sublist.append ?_ (map_id_visibleAmong_sublist table inherited _ _ rest)
      rw [ids_eq]
      split
      · exact List.singleton_sublist.2 List.mem_cons_self
      · exact (map_id_visibleUnder_sublist table _ offset child).cons _

end

theorem id_mem_of_mem_visibleUnder {inherited : Option FieldId} {x : Placed × Option FieldId}
    (h : x ∈ visibleUnder table inherited place t) : x.1.subtree.id ∈ idsAll t.children :=
  (map_id_visibleUnder_sublist table inherited place t).subset (List.mem_map_of_mem h)

theorem Placed.isSame_eq_false {a b : Placed} (h : a.subtree.id ≠ b.subtree.id) :
    a.isSame b = false := by
  rw [isSame, beq_false_of_ne h, Bool.false_and]

theorem Placed.isSame_self (p : Placed) : p.isSame p = true := by
  rw [isSame, beq_self_eq_true, beq_self_eq_true, Bool.and_self]

/-! ### Parents -/

mutual

theorem parentUnder_eq_none (target above : Placed) (offset : Length) (t : Subtree)
    (h : target.subtree.id ∉ idsAll t.children) : parentUnder target above offset t = none := by
  match t with
  | .mk head children =>
      rw [parentUnder]
      exact parentAmong_eq_none target above offset children h

theorem parentAmong_eq_none (target above : Placed) (offset : Length) (trees : List Subtree)
    (h : target.subtree.id ∉ idsAll trees) : parentAmong target above offset trees = none := by
  match trees with
  | [] => rfl
  | child :: rest =>
      rw [idsAll, ids_eq, List.mem_append, List.mem_cons] at h
      obtain ⟨⟨hchild, hunder⟩, hrest⟩ := not_or.1 h |>.imp_left not_or.1
      rw [parentAmong, Placed.isSame_eq_false (Ne.symm hchild), if_neg Bool.false_ne_true,
        parentUnder_eq_none _ _ offset child hunder, parentAmong_eq_none _ _ _ rest hrest]
      simp only [ite_self, Option.none_or]

end

section Parents

variable {target above : Placed}

/-- A search goes past a subtree that does not have the number of the target. -/
theorem parentAmong_of_notMem {child : Subtree} (h : target.subtree.id ∉ child.ids)
    (rest : List Subtree) : parentAmong target above place (child :: rest)
      = parentAmong target above (place + child.total) rest := by
  rw [ids_eq, List.mem_cons] at h
  obtain ⟨hchild, hunder⟩ := not_or.1 h
  rw [parentAmong, Placed.isSame_eq_false (Ne.symm hchild), if_neg Bool.false_ne_true,
    parentUnder_eq_none _ _ place child hunder]
  simp only [ite_self, Option.none_or]

/-- A search goes into the subtree that the target is under. -/
theorem parentAmong_of_mem {child : Subtree} (hroomy : child.Roomy) (hnodup : child.ids.Nodup)
    (h : target ∈ nodesAmong place child.children) {found : Placed}
    (hfound : parentUnder target (if child.isVisible then ⟨child, place⟩ else above) place child
      = some found) (rest : List Subtree) :
    parentAmong target above place (child :: rest) = some found := by
  have hid : target.subtree.id ∈ idsAll child.children := by
    refine (ids_sublist_of_mem_nodesAmong place _ h).subset ?_
    rw [ids_eq]
    exact List.mem_cons_self
  have hne : child.id ≠ target.subtree.id := by
    rw [ids_eq, List.nodup_cons] at hnodup
    rintro heq
    rw [heq] at hnodup
    exact hnodup.1 hid
  have hmem : target ∈ nodesAt place child := by
    rw [nodesAt_eq]
    exact List.mem_cons_of_mem _ h
  have hstart := le_offset_of_mem_nodesAmong h
  have hend : target.offset.bytes + target.subtree.total.bytes
      ≤ place.bytes + child.total.bytes := hroomy.next_le hmem
  have hchildren : child.children.isEmpty = false := by
    cases hnil : child.children with
    | nil =>
        rw [hnil] at h
        cases h
    | cons => rfl
  rw [parentAmong, Placed.isSame_eq_false hne, if_neg Bool.false_ne_true]
  simp only [decide_eq_true hstart, decide_eq_true hend, hchildren, Bool.not_false, Bool.and_self,
    if_true, hfound, Option.some_or]

mutual

/-- The parent of a child of a node is the node if it is visible, or else what is above it. -/
theorem parentUnder_of_mem_visibleUnder (inherited : Option FieldId) (place : Length) (t : Subtree)
    (hroomy : ∀ child ∈ t.children, child.Roomy) (hnodup : (idsAll t.children).Nodup)
    {x : Placed × Option FieldId} (hx : x ∈ visibleUnder table inherited place t) :
    parentUnder x.1 above place t = some above := by
  match t with
  | .mk head children =>
      rw [visibleUnder] at hx
      rw [parentUnder]
      exact parentAmong_of_mem_visibleAmong inherited _ place children hroomy hnodup hx

theorem parentAmong_of_mem_visibleAmong (inherited : Option FieldId) (fields : List (Option FieldId))
    (place : Length) (trees : List Subtree) (hroomy : ∀ t ∈ trees, t.Roomy)
    (hnodup : (idsAll trees).Nodup) {x : Placed × Option FieldId}
    (hx : x ∈ visibleAmong table inherited fields place trees) :
    parentAmong x.1 above place trees = some above := by
  match trees with
  | [] =>
      rw [visibleAmong] at hx
      cases hx
  | child :: rest =>
      obtain ⟨hchild, hothers⟩ := List.forall_mem_cons.1 hroomy
      rw [idsAll, List.nodup_append'] at hnodup
      obtain ⟨hids, hrest, hdisjoint⟩ := hnodup
      rw [visibleAmong, List.mem_append] at hx
      rcases hx with hx | hx
      · split at hx
        · rw [List.mem_singleton.1 hx, parentAmong, if_pos (Placed.isSame_self _)]
        · rename_i hhidden
          obtain ⟨hmem, _⟩ := mem_of_mem_visibleUnder _ _ _ _ hx
          refine parentAmong_of_mem hchild hids hmem ?_ rest
          rw [if_neg hhidden]
          rw [ids_eq, List.nodup_cons] at hids
          exact parentUnder_of_mem_visibleUnder _ place child hchild.fitIn_children.roomy hids.2 hx
      · have hid : x.1.subtree.id ∈ idsAll rest :=
          (map_id_visibleAmong_sublist table inherited _ _ rest).subset (List.mem_map_of_mem hx)
        rw [parentAmong_of_notMem fun h => hdisjoint h hid]
        exact parentAmong_of_mem_visibleAmong inherited _ _ rest hothers hrest hx

end

mutual

/-- The parent of a child of a node under a subtree is the node. -/
theorem parentUnder_of_mem_nodesAmong (above : Placed) (place : Length) (t : Subtree)
    (hroomy : ∀ child ∈ t.children, child.Roomy) (hnodup : (idsAll t.children).Nodup)
    (hp : p ∈ nodesAmong place t.children) (hvisible : p.subtree.isVisible = true)
    {x : Placed × Option FieldId} (hx : x ∈ visibleUnder table none p.offset p.subtree) :
    parentUnder x.1 above place t = some p := by
  match t with
  | .mk head children =>
      rw [parentUnder]
      exact parentAmong_of_mem_nodesAmong above place children hroomy hnodup hp hvisible hx

theorem parentAmong_of_mem_nodesAmong (above : Placed) (place : Length) (trees : List Subtree)
    (hroomy : ∀ t ∈ trees, t.Roomy) (hnodup : (idsAll trees).Nodup)
    (hp : p ∈ nodesAmong place trees) (hvisible : p.subtree.isVisible = true)
    {x : Placed × Option FieldId} (hx : x ∈ visibleUnder table none p.offset p.subtree) :
    parentAmong x.1 above place trees = some p := by
  match trees with
  | [] => cases hp
  | child :: rest =>
      obtain ⟨hchild, hothers⟩ := List.forall_mem_cons.1 hroomy
      rw [idsAll, List.nodup_append'] at hnodup
      obtain ⟨hids, hrest, hdisjoint⟩ := hnodup
      obtain ⟨hmem, _⟩ := mem_of_mem_visibleUnder _ _ _ _ hx
      rw [nodesAmong, List.mem_append] at hp
      rcases hp with hp | hp
      · have hunder := (List.nodup_cons.1 (ids_eq child ▸ hids)).2
        rw [nodesAt_eq] at hp
        cases hp with
        | head =>
            refine parentAmong_of_mem hchild hids hmem ?_ rest
            rw [if_pos hvisible]
            exact parentUnder_of_mem_visibleUnder _ place child hchild.fitIn_children.roomy hunder hx
        | tail _ hp =>
            refine parentAmong_of_mem hchild hids (mem_nodesAmong_trans _ _ hp ?_) ?_ rest
            · rw [nodesAt_eq]
              exact List.mem_cons_of_mem _ hmem
            · exact parentUnder_of_mem_nodesAmong _ place child hchild.fitIn_children.roomy hunder hp
                hvisible hx
      · have hid : x.1.subtree.id ∈ idsAll rest := by
          refine (ids_sublist_of_mem_nodesAmong _ rest hp).subset ?_
          rw [ids_eq]
          exact List.mem_cons_of_mem _ (id_mem_of_mem_visibleUnder hx)
        rw [parentAmong_of_notMem fun h => hdisjoint h hid]
        exact parentAmong_of_mem_nodesAmong above _ rest hothers hrest hp hvisible hx

end

end Parents

/-! ### Nodes -/

/-- Every node has room for its children, and no number is there twice. -/
structure Subtree.Navigable (t : Subtree) : Prop where
  roomy : t.Roomy
  nodup : t.ids.Nodup

namespace Node

/-- A child of a node at an index leads back to the node, and to the children next to it. -/
structure LeadsBack (n : Node) (i : Nat) (c : Node) : Prop where
  parent : c.parent? = some n
  next : c.nextSibling? = n.child? (i + 1)
  prev : c.prevSibling? = if i = 0 then none else n.child? (i - 1)

variable {n c : Node} {i : Nat}

theorem parent?_rootNode (tree : Tree) : tree.rootNode.parent? = none :=
  if_pos (Placed.isSame_self _)

theorem parent?_of_mem_children (hroot : n.tree.root.Navigable) (hn : n.tree.rootNode.Below n)
    (hc : c ∈ n.children) : c.parent? = some n := by
  obtain ⟨htree, field, hx⟩ := mem_children_iff.1 hc
  obtain ⟨hmem, _⟩ := mem_of_mem_visibleUnder _ _ _ _ hx
  have hnodup := hroot.nodup
  rw [ids_eq, List.nodup_cons] at hnodup
  have hroomy := hroot.roomy.fitIn_children.roomy
  have hid : c.subtree.id ∈ n.subtree.ids := by
    rw [ids_eq]
    exact List.mem_cons_of_mem _ (id_mem_of_mem_visibleUnder hx)
  obtain ⟨hunder, hfound⟩ : c.subtree.id ∈ idsAll n.tree.root.children ∧
      parentUnder c.placed n.tree.rootNode.placed Length.zero n.tree.root = some n.placed := by
    rcases below_iff.1 hn with heq | ⟨_, hvisible, hbelow⟩
    · rw [heq] at hx ⊢
      exact ⟨id_mem_of_mem_visibleUnder hx,
        parentUnder_of_mem_visibleUnder none _ _ hroomy hnodup.2 hx⟩
    · exact ⟨(ids_sublist_of_mem_nodesAmong _ _ hbelow).subset hid,
        parentUnder_of_mem_nodesAmong _ _ _ hroomy hnodup.2 hbelow hvisible hx⟩
  have hother : c.isSame n.tree.rootNode = false :=
    Placed.isSame_eq_false fun heq => hnodup.1 (heq ▸ hunder)
  rw [parent?, htree, hother, if_neg Bool.false_ne_true]
  exact congrArg (Option.map _) hfound

/-- The numbers of the children of a node are distinct. -/
theorem nodup_children (hroot : n.tree.root.Navigable) (hn : n.tree.rootNode.Below n) :
    (n.children.map (·.id)).Nodup := by
  have hchildren : (n.children.map (·.id)).Sublist (idsAll n.subtree.children) := by
    have hsublist := map_id_visibleUnder_sublist n.table none n.placed.offset n.subtree
    rw [children, labelledChildren, List.map_map, List.map_map]
    exact hsublist
  obtain ⟨_, hmem⟩ := hn.mem_nodesAt
  have hids := ids_sublist_of_mem_nodesAt _ _ hmem
  rw [ids_eq] at hids
  exact (hchildren.trans ((List.sublist_cons_self _ _).trans hids)).nodup hroot.nodup

theorem amongSiblings?_of_child? (hroot : n.tree.root.Navigable) (hn : n.tree.rootNode.Below n)
    (hc : n.child? i = some c) : c.amongSiblings? = some (i, n.children) := by
  have hparent := parent?_of_mem_children hroot hn (List.mem_of_getElem? hc)
  obtain ⟨hlt, hget⟩ := List.getElem?_eq_some_iff.1 hc
  have hindex : n.children.findIdx? (·.isSame c) = some i := by
    rw [List.findIdx?_eq_some_iff_getElem]
    refine ⟨hlt, hget ▸ Placed.isSame_self _, fun j hj hsame => ?_⟩
    rw [isSame, Placed.isSame, Bool.and_eq_true, beq_iff_eq, beq_iff_eq] at hsame
    have hi : i < (n.children.map (·.id)).length := by
      rw [List.length_map]
      exact hlt
    have hids : (n.children.map (·.id))[j] = (n.children.map (·.id))[i] := by
      rw [List.getElem_map, List.getElem_map, hget]
      exact hsame.1
    exact absurd ((nodup_children hroot hn).getElem_inj_iff.1 hids) (Nat.ne_of_lt hj)
  rw [amongSiblings?, hparent]
  simp only [Option.bind_eq_bind, Option.bind_some, hindex, Option.pure_def]

/-- Every child of a node of a tree leads back to it. -/
theorem leadsBack_of_child? (hroot : n.tree.root.Navigable) (hn : n.tree.rootNode.Below n)
    (hc : n.child? i = some c) : n.LeadsBack i c where
  parent := parent?_of_mem_children hroot hn (List.mem_of_getElem? hc)
  next := by
    rw [nextSibling?, amongSiblings?_of_child? hroot hn hc]
    rfl
  prev := by
    rw [prevSibling?, amongSiblings?_of_child? hroot hn hc]
    rfl

end Node

end IncrementalLR
