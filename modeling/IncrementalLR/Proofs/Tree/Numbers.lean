import Mathlib.Data.List.Nodup
import IncrementalLR.Proofs.Tree.Cover
import IncrementalLR.Parse.Repetition
import IncrementalLR.Tree.Edit

/-!
# The numbers of subtrees

Subtrees are told apart by their numbers. What is made of subtrees has their nodes, or some of them,
and new ones with numbers that were given out for them. So no number comes to be there twice: making
nodes, flattening skipped text, balancing repetitions and editing all keep the numbers distinct.
-/

namespace IncrementalLR

namespace Subtree

mutual

/-- The number of a subtree and those of all subtrees under it. -/
def ids : Subtree → List Nat
  | mk head children => head.id :: idsAll children

def idsAll : List Subtree → List Nat
  | [] => []
  | t :: rest => ids t ++ idsAll rest

end

/-- How often a number is given out when those from `id` up to `next` are. -/
def issued (id next k : Nat) : Nat := if id ≤ k ∧ k < next then 1 else 0

/-- Subtrees have the nodes of others, or some of them, and new ones, each with its own number from `id`
up to `next`. -/
structure Renews (id next : Nat) (before after : List Subtree) : Prop where
  le : id ≤ next
  count : ∀ k, (idsAll after).count k ≤ (idsAll before).count k + issued id next k

/-- The numbers of subtrees are distinct, and all of them have been given out. -/
structure Numbered (next : Nat) (trees : List Subtree) : Prop where
  nodup : (idsAll trees).Nodup
  lt : ∀ k ∈ idsAll trees, k < next

variable {table : Table} {t : Subtree} {trees before after : List Subtree} {id next : Nat}

/-! ### Numbers -/

theorem ids_eq (t : Subtree) : t.ids = t.id :: idsAll t.children := by
  cases t
  rfl

@[simp] theorem idsAll_singleton (t : Subtree) : idsAll [t] = t.ids :=
  List.append_nil _

@[simp] theorem idsAll_append (a b : List Subtree) : idsAll (a ++ b) = idsAll a ++ idsAll b := by
  induction a with
  | nil => rfl
  | cons t a ih => rw [List.cons_append, idsAll, idsAll, ih, List.append_assoc]

@[simp] theorem ids_interior (id : Nat) (s : Symbol) (children : List Subtree)
    (production : Option ProductionId) (fragile : Bool) :
    (interior table id s children production fragile).ids = id :: idsAll children := by
  cases children <;> rfl

@[simp] theorem ids_stretched (t : Subtree) (size : Length) : (t.stretched size).ids = t.ids := by
  cases t
  rfl

theorem mem_idsAll {k : Nat} : k ∈ idsAll trees ↔ ∃ t ∈ trees, k ∈ t.ids := by
  induction trees with
  | nil => simp [idsAll]
  | cons t rest ih => simp [idsAll, ih]

theorem idsAll_sublist (h : after.Sublist before) : (idsAll after).Sublist (idsAll before) := by
  induction h with
  | slnil => exact List.Sublist.refl _
  | cons t _ ih => exact ih.trans (List.sublist_append_right _ _)
  | cons_cons t _ ih => exact (List.Sublist.refl _).append ih

theorem numbered_nil (next : Nat) : Numbered next [] :=
  ⟨List.nodup_nil, nofun⟩

theorem issued_eq_zero {k : Nat} (h : k < id) : issued id next k = 0 :=
  if_neg fun hk => absurd (Nat.lt_of_lt_of_le h hk.1) (Nat.lt_irrefl k)

theorem issued_le_one (id next k : Nat) : issued id next k ≤ 1 := by
  rw [issued]
  split <;> decide

theorem issued_add {middle : Nat} (h : id ≤ middle) (h' : middle ≤ next) (k : Nat) :
    issued id middle k + issued middle next k = issued id next k := by
  simp only [issued]
  split <;> split <;> split <;> omega

theorem count_singleton (id k : Nat) : [id].count k = issued id (id + 1) k := by
  rw [List.count_singleton, issued]
  by_cases h : id = k
  · rw [if_pos (beq_iff_eq.2 h), if_pos (by omega)]
  · rw [if_neg (by simpa using h), if_neg (by omega)]

namespace Renews

variable {middle : Nat} {a b c : List Subtree}

theorem refl (id : Nat) (trees : List Subtree) : Renews id id trees trees :=
  ⟨Nat.le_refl id, fun _ => Nat.le_add_right _ _⟩

theorem trans (h : Renews id middle a b) (h' : Renews middle next b c) : Renews id next a c := by
  refine ⟨Nat.le_trans h.le h'.le, fun k => ?_⟩
  have hfirst := h.count k
  have hsecond := h'.count k
  rw [← issued_add h.le h'.le]
  omega

theorem append (h : Renews id middle a b) (h' : Renews middle next before after) :
    Renews id next (a ++ before) (b ++ after) := by
  refine ⟨Nat.le_trans h.le h'.le, fun k => ?_⟩
  have hfirst := h.count k
  have hsecond := h'.count k
  rw [idsAll_append, idsAll_append, List.count_append, List.count_append, ← issued_add h.le h'.le]
  omega

theorem append_left (trees : List Subtree) (h : Renews id next before after) :
    Renews id next (trees ++ before) (trees ++ after) :=
  (refl id trees).append h

theorem append_right (trees : List Subtree) (h : Renews id next before after) :
    Renews id next (before ++ trees) (after ++ trees) :=
  h.append (refl next trees)

/-- Numbers may be left unused. -/
theorem unused (h : id ≤ next) (trees : List Subtree) : Renews id next trees trees :=
  ⟨h, fun _ => Nat.le_add_right _ _⟩

/-- Subtrees may be left out and change places. -/
theorem of_count_le (h : ∀ k, (idsAll after).count k ≤ (idsAll before).count k) :
    Renews id id before after :=
  ⟨Nat.le_refl id, fun k => Nat.le_trans (h k) (Nat.le_add_right _ _)⟩

theorem numbered (h : Renews id next before after) (hbefore : Numbered id before) :
    Numbered next after := by
  have hcount : ∀ k, k ∈ idsAll before → issued id next k = 0 :=
    fun k hk => issued_eq_zero (hbefore.lt k hk)
  refine ⟨List.nodup_iff_count_le_one.2 fun k => ?_, fun k hk => ?_⟩
  · have hrenews := h.count k
    by_cases hk : k ∈ idsAll before
    · have honce := List.nodup_iff_count_le_one.1 hbefore.nodup k
      rw [hcount k hk] at hrenews
      omega
    · have hissued := issued_le_one id next k
      rw [List.count_eq_zero.2 hk] at hrenews
      omega
  · by_cases hold : k ∈ idsAll before
    · exact Nat.lt_of_lt_of_le (hbefore.lt k hold) h.le
    · have hrenews := h.count k
      have hpos := List.count_pos_iff.2 hk
      rw [List.count_eq_zero.2 hold, issued] at hrenews
      split at hrenews
      · rename_i hissued
        exact hissued.2
      · omega

theorem children (t : Subtree) : Renews id id [t] t.children := by
  refine of_count_le fun k => ?_
  rw [idsAll_singleton, ids_eq, List.count_cons]
  exact Nat.le_add_right _ _

/-! ### Nodes made of others -/

theorem interior (table : Table) (id : Nat) (s : Symbol) (children : List Subtree)
    (production : Option ProductionId) (fragile : Bool) :
    Renews id (id + 1) children [Subtree.interior table id s children production fragile] := by
  refine ⟨Nat.le_succ id, fun k => Nat.le_of_eq ?_⟩
  rw [idsAll_singleton, ids_interior, ← List.singleton_append, List.count_append, count_singleton,
    Nat.add_comm]

theorem flattenError (t : Subtree) : Renews id id [t] t.flattenError := by
  rw [Subtree.flattenError]
  split
  · exact children t
  · exact refl id [t]

theorem ofSkipped (table : Table) (id : Nat) (trees : List Subtree) :
    Renews id (id + 1) trees [Subtree.ofSkipped table id trees] := by
  have hflat : Renews id id trees (trees.flatMap Subtree.flattenError) := by
    induction trees with
    | nil => exact refl id []
    | cons t rest ih =>
        rw [List.flatMap_cons, ← List.singleton_append]
        exact (flattenError t).append ih
  exact hflat.trans (interior table id Symbol.error _ none true)

/-! ### Balancing -/

variable (table : Table) (bases : RepetitionBases)

theorem unchain (id : Nat) (parts : List Subtree) (t : Subtree) :
    Renews id (Subtree.unchain table bases id parts t).2 (t :: parts)
      (Subtree.unchain table bases id parts t).1 := by
  fun_induction Subtree.unchain table bases id parts t with
  | case1 => exact refl _ _
  | case2 => exact refl _ _
  | case3 id parts head first rest base _ part ih =>
      refine trans ?_ ih
      have hpart := interior table id head.symbol rest (some base) head.flags.fragile
      exact ((children (.mk head (first :: rest))).trans (hpart.append_left [first])).append_right parts

theorem joinPairs (s : Symbol) (id : Nat) (trees : List Subtree) :
    Renews id (Subtree.joinPairs table s id trees).2 trees
      (Subtree.joinPairs table s id trees).1 := by
  fun_induction Subtree.joinPairs table s id trees with
  | case1 id left right rest node joined next heq ih =>
      rw [heq] at ih
      exact (interior table id s [left, right] none _).append ih
  | case2 => exact refl _ _
  | case3 => exact refl _ _

theorem joinBalanced (s : Symbol) (id : Nat) (first : Subtree) (rest : List Subtree) :
    Renews id (Subtree.joinBalanced table s id first rest).2 (first :: rest)
      [(Subtree.joinBalanced table s id first rest).1] := by
  fun_induction Subtree.joinBalanced table s id first rest with
  | case1 => exact refl _ _
  | case2 id first second rest node ih =>
      exact ((interior table id s [first, second] none _).append
        (joinPairs table s (id + 1) rest)).trans ih

theorem balance (id : Nat) (t : Subtree) :
    Renews id (Subtree.balance table bases id t).2 [t] [(Subtree.balance table bases id t).1] := by
  rw [Subtree.balance]
  split
  · exact refl id [t]
  · have hparts := unchain table bases id [] t
    split
    · rename_i next heq
      rw [heq] at hparts
      exact ⟨hparts.le, fun k => Nat.le_add_right _ _⟩
    · rename_i first rest next heq
      rw [heq] at hparts
      exact hparts.trans (joinBalanced table t.symbol next first rest)

theorem balanceWhere (condition : Subtree → Bool) (id : Nat) (trees : List Subtree) :
    Renews id (Subtree.balanceWhere table bases condition id trees).2 trees
      (Subtree.balanceWhere table bases condition id trees).1 := by
  induction trees generalizing id with
  | nil => exact refl id []
  | cons t rest ih =>
      rw [Subtree.balanceWhere]
      refine append (a := [t]) (b := [_]) ?_ (ih _)
      by_cases hcondition : condition t = true
      · rw [if_pos hcondition]
        exact balance table bases id t
      · rw [if_neg hcondition]
        exact refl id [t]

end Renews

/-! ### Edits -/

mutual

theorem renews_edit (change : RelativeEdit) (id : Nat) (t : Subtree) :
    Renews id (t.edit change id).2 [t] [(t.edit change id).1] := by
  match t with
  | .mk head children =>
      obtain ⟨hle, hcount⟩ := renews_editAmong change (id + 1) true Length.zero children
      rw [Subtree.edit]
      refine ⟨Nat.le_of_succ_le hle, fun k => ?_⟩
      have hchildren := hcount k
      rw [← issued_add (show id ≤ id + 1 from Nat.le_succ id) hle, ← count_singleton]
      simp only [idsAll_singleton, ids_eq, Subtree.id, Subtree.head, Subtree.children,
        List.count_cons, List.count_nil] at hchildren ⊢
      omega

theorem renews_editAmong (change : RelativeEdit) (id : Nat) (isFirst : Bool) (left : Length)
    (trees : List Subtree) :
    Renews id (editAmong change id isFirst left trees).2 trees
      (editAmong change id isFirst left trees).1 := by
  match trees with
  | [] =>
      rw [editAmong]
      exact .refl id []
  | child :: rest =>
      rw [editAmong]
      split
      · exact (renews_editAmong change id false (left + child.total) rest).append_left [child]
      · split
        · exact .refl id _
        · exact (renews_edit (change.after left) id child).append
            (renews_editAmong _ _ false (left + child.total) rest)

end

end Subtree

end IncrementalLR
