import IncrementalLR.Proofs.Tree.Spans

/-!
# The leaves of subtrees

The leaves of a subtree from left to right. Making nodes over subtrees, flattening skipped text and
balancing repetitions move leaves into other nodes, but neither lose nor reorder them, and as a leaf
stands where the one in front of it ends, it also stays at its place.
-/

namespace IncrementalLR

namespace Subtree

mutual

def leaves : Subtree → List Subtree
  | mk head children =>
    if children.isEmpty && head.flags.leaf then [mk head children] else leavesAll children

def leavesAll : List Subtree → List Subtree
  | [] => []
  | t :: rest => leaves t ++ leavesAll rest

end

variable {table : Table} {bases : RepetitionBases} {t : Subtree} {trees : List Subtree}

theorem leaves_of_leaf (hleaf : t.isLeaf = true) (hchildren : t.children = []) : t.leaves = [t] := by
  cases t with
  | mk head children =>
      obtain rfl : children = [] := hchildren
      have hflag : head.flags.leaf = true := hleaf
      rw [leaves, hflag]
      rfl

theorem leaves_of_node (hnode : t.isLeaf = false) : t.leaves = leavesAll t.children := by
  cases t with
  | mk head children =>
      have hflag : head.flags.leaf = false := hnode
      rw [leaves, hflag, Bool.and_false]
      rfl

theorem leaves_of_cons (head : Head) (first : Subtree) (rest : List Subtree) :
    (mk head (first :: rest)).leaves = first.leaves ++ leavesAll rest := by
  rw [leaves, List.isEmpty_cons, Bool.false_and, if_neg Bool.false_ne_true, leavesAll]

@[simp] theorem leavesAll_singleton (t : Subtree) : leavesAll [t] = t.leaves :=
  List.append_nil _

@[simp] theorem leavesAll_append (a b : List Subtree) :
    leavesAll (a ++ b) = leavesAll a ++ leavesAll b := by
  induction a with
  | nil => rfl
  | cons t a ih => rw [List.cons_append, leavesAll, leavesAll, ih, List.append_assoc]

theorem leavesAll_flatMap {f : Subtree → List Subtree} (hf : ∀ t ∈ trees, leavesAll (f t) = t.leaves) :
    leavesAll (trees.flatMap f) = leavesAll trees := by
  induction trees with
  | nil => rfl
  | cons t rest ih =>
      obtain ⟨ht, hrest⟩ := List.forall_mem_cons.1 hf
      rw [List.flatMap_cons, leavesAll_append, ht, ih hrest, leavesAll]

/-! ### Nodes made of others -/

@[simp] theorem leaves_interior (id : Nat) (s : Symbol) (children : List Subtree)
    (production : Option ProductionId) (fragile : Bool) :
    (interior table id s children production fragile).leaves = leavesAll children := by
  rw [leaves_of_node (isLeaf_interior ..), children_interior]

theorem leavesAll_flattenError (t : Subtree) : leavesAll t.flattenError = t.leaves := by
  rw [flattenError]
  split
  · rename_i hnode
    rw [leaves_of_node (by simpa using (Bool.and_eq_true_iff.1 hnode).2)]
  · exact leavesAll_singleton t

@[simp] theorem leaves_ofSkipped (id : Nat) (trees : List Subtree) :
    (ofSkipped table id trees).leaves = leavesAll trees := by
  rw [ofSkipped, leaves_interior]
  exact leavesAll_flatMap fun t _ => leavesAll_flattenError t

theorem leavesAll_unchain (table : Table) (bases : RepetitionBases) (id : Nat)
    (parts : List Subtree) (t : Subtree) :
    leavesAll (unchain table bases id parts t).1 = t.leaves ++ leavesAll parts := by
  fun_induction unchain table bases id parts t with
  | case1 => rfl
  | case2 => rfl
  | case3 id parts head first rest base _ part ih =>
      rw [ih, leavesAll, leaves_interior, leaves_of_cons, List.append_assoc]

theorem leavesAll_joinPairs (s : Symbol) (id : Nat) (trees : List Subtree) :
    leavesAll (joinPairs table s id trees).1 = leavesAll trees := by
  fun_induction joinPairs table s id trees with
  | case1 id left right rest node joined next heq ih =>
      rw [heq] at ih
      rw [leavesAll, leaves_interior, ih]
      simp only [leavesAll, List.append_nil, List.append_assoc]
  | case2 => rfl
  | case3 => rfl

theorem leaves_joinBalanced (s : Symbol) (id : Nat) (first : Subtree) (rest : List Subtree) :
    (joinBalanced table s id first rest).1.leaves = first.leaves ++ leavesAll rest := by
  fun_induction joinBalanced table s id first rest with
  | case1 id first => exact (List.append_nil _).symm
  | case2 id first second rest node ih =>
      rw [ih, leaves_interior, leavesAll_joinPairs]
      simp only [leavesAll, List.append_nil, List.append_assoc]

theorem leaves_balance (id : Nat) (t : Subtree) :
    (balance table bases id t).1.leaves = t.leaves := by
  rw [balance]
  cases chainBase? bases t with
  | none => rfl
  | some base =>
      have hparts := leavesAll_unchain table bases id [] t
      simp only
      cases hunchain : unchain table bases id [] t with
      | mk parts next =>
          rw [hunchain, leavesAll, List.append_nil] at hparts
          cases parts with
          | nil => rfl
          | cons first rest =>
              rw [leavesAll] at hparts
              exact (leaves_joinBalanced t.symbol next first rest).trans hparts

theorem leavesAll_balanceWhere (table : Table) (bases : RepetitionBases)
    (condition : Subtree → Bool) (id : Nat) (trees : List Subtree) :
    leavesAll (balanceWhere table bases condition id trees).1 = leavesAll trees := by
  induction trees generalizing id with
  | nil => rfl
  | cons t rest ih =>
      rw [balanceWhere, leavesAll, leavesAll, ih]
      by_cases hcondition : condition t = true
      · rw [if_pos hcondition, leaves_balance]
      · rw [if_neg hcondition]

end Subtree

/-! ### Places of leaves -/

open Subtree (nodesAt nodesAmong leavesAll totalAll)

variable {table : Table}

mutual

theorem Covers.map_leavesOf {t : Subtree} {w : List UInt8} (h : Covers table t w) (place : Length) :
    (leavesOf (nodesAt place t)).map (·.subtree) = t.leaves := by
  match h with
  | .token id token padding size _ _ _ _ => rfl
  | .missing id s mode => rfl
  | .interior id s children production fragile w hchildren =>
      rw [leavesOf_nodesAt_of_node _ (Subtree.isLeaf_interior ..), Subtree.children_interior,
        Subtree.leaves_interior]
      exact hchildren.map_leavesOf place
  | .root id s children production fragile w hchildren =>
      rw [leavesOf_nodesAt_of_node _ (by simp), Subtree.leaves_of_node (by simp),
        Subtree.children_stretched, Subtree.children_interior]
      exact hchildren.map_leavesOf place

theorem CoversAll.map_leavesOf {trees : List Subtree} {w : List UInt8}
    (h : CoversAll table trees w) (place : Length) :
    (leavesOf (nodesAmong place trees)).map (·.subtree) = leavesAll trees := by
  match h with
  | .nil => rfl
  | .cons t rest u v ht hrest =>
      rw [nodesAmong, leavesOf, List.filter_append, List.map_append, leavesAll,
        ← ht.map_leavesOf place, ← hrest.map_leavesOf (place + t.total)]
      rfl

end

/-- Leaves that stand one behind the other reach as far as they are long. -/
theorem Adjacent.add_totalAll {place stop : Length} {ps : List Placed} (h : Adjacent place ps stop) :
    place + totalAll (ps.map (·.subtree)) = stop := by
  induction h with
  | nil place => exact Length.add_zero place
  | cons p rest stop _ ih =>
      rw [List.map_cons, totalAll, ← Length.add_assoc]
      exact ih

theorem CoversAll.totalAll_leavesAll {trees : List Subtree} {w : List UInt8}
    (h : CoversAll table trees w) : totalAll (leavesAll trees) = Length.ofList w := by
  have hreach := (h.adjacent []).add_totalAll
  rwa [h.map_leavesOf, Length.ofList_nil, Length.zero_add, List.nil_append] at hreach

theorem Covers.totalAll_leaves {t : Subtree} {w : List UInt8} (h : Covers table t w) :
    totalAll t.leaves = t.total := by
  have hall := (coversAll_singleton h).totalAll_leavesAll
  rw [Subtree.leavesAll_singleton] at hall
  rw [hall, h.total_eq]

end IncrementalLR
