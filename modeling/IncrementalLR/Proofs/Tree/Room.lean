import IncrementalLR.Proofs.Tree.Kept

/-!
# Room for children

A node is at least as long as its children together. It need not be just as long: what is behind its
last child is in the size of a root, and a leaf of the start symbol is lost where a root takes its
place. Making nodes, flattening skipped text, balancing repetitions and editing leave room for all
children, so a tree that fits into its text fits into it after an edit too.
-/

namespace IncrementalLR

open Subtree (editAmong isBefore isBehind takesNew totalAll)

/-- The subtree has room for its children, and so have they for theirs. -/
inductive Subtree.Roomy : Subtree → Prop
  | mk (t : Subtree) (hbytes : (totalAll t.children).bytes ≤ t.total.bytes)
      (hchildren : ∀ child ∈ t.children, Roomy child) : Roomy t

/-- The subtrees have room for their children, and together they fit into so many bytes. -/
structure Subtree.FitIn (trees : List Subtree) (n : Nat) : Prop where
  roomy : ∀ t ∈ trees, t.Roomy
  bytes : (totalAll trees).bytes ≤ n

namespace Subtree

variable (table : Table) (bases : RepetitionBases) {t : Subtree} {trees more rest : List Subtree}
  {m n : Nat}

/-! ### Lengths -/

@[simp] theorem bytes_totalAll_cons (t : Subtree) (rest : List Subtree) :
    (totalAll (t :: rest)).bytes = t.total.bytes + (totalAll rest).bytes := rfl

@[simp] theorem bytes_totalAll_append (a b : List Subtree) :
    (totalAll (a ++ b)).bytes = (totalAll a).bytes + (totalAll b).bytes := by
  rw [totalAll_append, Length.bytes_add]

/-- A node is as long as the children it is made over. -/
theorem bytes_total_interior (id : Nat) (s : Symbol) (children : List Subtree)
    (production : Option ProductionId) (fragile : Bool) :
    (interior table id s children production fragile).total.bytes = (totalAll children).bytes := by
  cases children with
  | nil => rfl
  | cons first rest =>
      have hpadding : (interior table id s (first :: rest) production fragile).padding
          = first.padding := rfl
      rw [total, Length.bytes_add, hpadding, size_interior_cons, Length.bytes_monus,
        bytes_totalAll_cons, total, Length.bytes_add]
      omega

theorem Roomy.fitIn_children (h : t.Roomy) : FitIn t.children t.total.bytes := by
  cases h with
  | mk _ hbytes hchildren => exact ⟨hchildren, hbytes⟩

/-- A leaf has no children to make room for. -/
theorem Roomy.of_children_eq_nil (h : t.children = []) : t.Roomy := by
  refine ⟨t, ?_, ?_⟩
  · rw [h]
    exact Nat.zero_le _
  · rw [h]
    exact fun _ hchild => absurd hchild List.not_mem_nil

namespace FitIn

/-! ### Subtrees one after the other -/

theorem nil : FitIn [] n := ⟨fun _ h => absurd h List.not_mem_nil, Nat.zero_le n⟩

theorem singleton_iff : FitIn [t] n ↔ t.Roomy ∧ t.total.bytes ≤ n := by
  constructor
  · intro h
    exact ⟨h.roomy t List.mem_cons_self, h.bytes⟩
  · rintro ⟨hroomy, hbytes⟩
    exact ⟨List.forall_mem_singleton.2 hroomy, hbytes⟩

theorem mono (h : FitIn trees m) (hle : m ≤ n) : FitIn trees n := ⟨h.roomy, Nat.le_trans h.bytes hle⟩

theorem append (h : FitIn trees m) (hmore : FitIn more n) : FitIn (trees ++ more) (m + n) := by
  refine ⟨List.forall_mem_append.2 ⟨h.roomy, hmore.roomy⟩, ?_⟩
  rw [bytes_totalAll_append]
  exact Nat.add_le_add h.bytes hmore.bytes

theorem exists_of_append (h : FitIn (trees ++ more) n) :
    ∃ m k, m + k = n ∧ FitIn trees m ∧ FitIn more k := by
  obtain ⟨htrees, hmore⟩ := List.forall_mem_append.1 h.roomy
  have hbytes := h.bytes
  rw [bytes_totalAll_append] at hbytes
  exact ⟨(totalAll trees).bytes, n - (totalAll trees).bytes, by omega, ⟨htrees, Nat.le_refl _⟩,
    ⟨hmore, by omega⟩⟩

theorem exists_of_cons (h : FitIn (t :: rest) n) :
    ∃ m k, m + k = n ∧ FitIn [t] m ∧ FitIn rest k := by
  rw [← List.singleton_append] at h
  exact h.exists_of_append

theorem cons (ht : FitIn [t] m) (hrest : FitIn rest n) : FitIn (t :: rest) (m + n) :=
  ht.append hrest

/-- Subtrees may take the place of others that need as much room. -/
theorem flatMap {f : Subtree → List Subtree} (h : FitIn trees n)
    (hf : ∀ t m, FitIn [t] m → FitIn (f t) m) : FitIn (trees.flatMap f) n := by
  induction trees generalizing n with
  | nil => exact h
  | cons t rest ih =>
      obtain ⟨m, k, rfl, ht, hrest⟩ := h.exists_of_cons
      rw [List.flatMap_cons]
      exact (hf t m ht).append (ih hrest)

/-! ### Nodes made of others -/

theorem children (h : FitIn [t] n) : FitIn t.children n := by
  obtain ⟨hroomy, hbytes⟩ := singleton_iff.1 h
  exact hroomy.fitIn_children.mono hbytes

theorem ofChildren (id : Nat) (s : Symbol) (production : Option ProductionId) (fragile : Bool)
    (h : FitIn trees n) : FitIn [interior table id s trees production fragile] n := by
  have hbytes := bytes_total_interior table id s trees production fragile
  refine singleton_iff.2 ⟨⟨_, ?_, ?_⟩, ?_⟩
  · rw [children_interior]
    exact Nat.le_of_eq hbytes.symm
  · rw [children_interior]
    exact h.roomy
  · rw [hbytes]
    exact h.bytes

theorem flattenError (h : FitIn [t] n) : FitIn t.flattenError n := by
  rw [Subtree.flattenError]
  split
  · exact h.children
  · exact h

theorem ofSkipped (id : Nat) (h : FitIn trees n) : FitIn [Subtree.ofSkipped table id trees] n :=
  ofChildren table id Symbol.error none true (h.flatMap fun _ _ ht => ht.flattenError)

/-! ### Balancing -/

theorem unchain (id : Nat) {parts : List Subtree} (h : FitIn (t :: parts) n) :
    FitIn (Subtree.unchain table bases id parts t).1 n := by
  fun_induction Subtree.unchain table bases id parts t generalizing n with
  | case1 id parts head => exact h
  | case2 id parts head first rest _ => exact h
  | case3 =>
      rename_i id parts head first rest base _ part ih
      obtain ⟨m, k, rfl, ht, hparts⟩ := h.exists_of_cons
      obtain ⟨i, j, rfl, hfirst, hrest⟩ := ht.children.exists_of_cons
      refine ih ?_
      rw [Nat.add_assoc]
      exact hfirst.cons
        ((hrest.ofChildren table id head.symbol (some base) head.flags.fragile).cons hparts)

theorem joinPairs (s : Symbol) (id : Nat) (h : FitIn trees n) :
    FitIn (Subtree.joinPairs table s id trees).1 n := by
  fun_induction Subtree.joinPairs table s id trees generalizing n with
  | case1 =>
      rename_i id left right rest node joined next heq ih
      rw [heq] at ih
      obtain ⟨m, k, rfl, hpair, hrest⟩ :=
        exists_of_append (show FitIn ([left, right] ++ rest) n from h)
      exact (hpair.ofChildren table id s none _).cons (ih hrest)
  | case2 => exact h
  | case3 => exact h

theorem joinBalanced (s : Symbol) (id : Nat) (h : FitIn (t :: rest) n) :
    FitIn [(Subtree.joinBalanced table s id t rest).1] n := by
  fun_induction Subtree.joinBalanced table s id t rest generalizing n with
  | case1 => exact h
  | case2 =>
      rename_i id first second rest node ih
      obtain ⟨m, k, rfl, hpair, hrest⟩ :=
        exists_of_append (show FitIn ([first, second] ++ rest) n from h)
      exact ih ((hpair.ofChildren table id s none _).cons (joinPairs table s (id + 1) hrest))

theorem balance (id : Nat) (h : FitIn [t] n) : FitIn [(Subtree.balance table bases id t).1] n := by
  rw [Subtree.balance]
  split
  · exact h
  · have hparts := h.unchain table bases id
    split
    · exact h
    · rename_i first rest next heq
      rw [heq] at hparts
      exact hparts.joinBalanced table t.symbol next

theorem balanceWhere (condition : Subtree → Bool) (id : Nat) (h : FitIn trees n) :
    FitIn (Subtree.balanceWhere table bases condition id trees).1 n := by
  induction trees generalizing id n with
  | nil => exact h
  | cons t rest ih =>
      obtain ⟨m, k, rfl, ht, hrest⟩ := h.exists_of_cons
      rw [Subtree.balanceWhere]
      refine cons ?_ (ih _ hrest)
      by_cases hcondition : condition t = true
      · rw [if_pos hcondition]
        exact ht.balance table bases id
      · rw [if_neg hcondition]
        exact ht

end FitIn

end Subtree

/-! ### Edits -/

namespace RelativeEdit

variable {change current : RelativeEdit} {isFirst : Bool} {left place : Length} {child : Subtree}

/-- How long the first so many bytes of a text are after the edit. New text at their end belongs to
them when nothing is taken away. -/
def resized (change : RelativeEdit) (n : Nat) : Nat :=
  if change.start.bytes < n ∨ change.start.bytes = n ∧ change.oldEnd.bytes = n then
    change.newEnd.bytes + (n - change.oldEnd.bytes)
  else n

theorem resized_spec (change : RelativeEdit) (n : Nat) :
    (change.start.bytes < n ∨ change.start.bytes = n ∧ change.oldEnd.bytes = n) ∧
        change.resized n = change.newEnd.bytes + (n - change.oldEnd.bytes) ∨
      (n < change.start.bytes ∨ change.start.bytes = n ∧ change.oldEnd.bytes ≠ n) ∧
        change.resized n = n := by
  rw [resized]
  split
  · rename_i htouched
    exact .inl ⟨htouched, rfl⟩
  · exact .inr ⟨by omega, rfl⟩

theorem resized_mono (hnew : change.start.bytes ≤ change.newEnd.bytes) {m n : Nat} (hle : m ≤ n) :
    change.resized m ≤ change.resized n := by
  have hm := change.resized_spec m
  have hn := change.resized_spec n
  omega

theorem bytes_total_edit_eq (id : Nat) (t : Subtree)
    (hle : change.start.bytes ≤ change.oldEnd.bytes)
    (hnew : change.start.bytes ≤ change.newEnd.bytes) :
    (t.edit change id).1.total.bytes = change.resized t.total.bytes := by
  obtain ⟨htouched, hpassed⟩ := Subtree.bytes_total_edit id t hle hnew
  rcases change.resized_spec t.total.bytes with ⟨hreaches, heq⟩ | ⟨hstays, heq⟩
  · rw [heq, htouched hreaches]
  · rw [heq, hpassed (by omega)]

/-- The next subtree starts no further on than the edit moves it, behind one that it touches. -/
theorem Stage.step_le (h : change.Stage current isFirst left place)
    (hle : change.start.bytes ≤ change.oldEnd.bytes)
    (hnew : change.start.bytes ≤ change.newEnd.bytes) (id : Nat)
    (hplace : place.bytes ≤ change.resized left.bytes) :
    place.bytes + (child.edit (current.after left) id).1.total.bytes
      ≤ change.resized (left.bytes + child.total.bytes) := by
  rw [bytes_total_edit_eq id child (h.after_start_le_oldEnd hle) (h.after_start_le_newEnd hnew)]
  have hchild := (current.after left).resized_spec child.total.bytes
  have hend := change.resized_spec (left.bytes + child.total.bytes)
  rw [after_start, after_oldEnd, after_newEnd] at hchild
  cases h with
  | pending => omega
  | taken =>
      have hleft := change.resized_spec left.bytes
      simp only [withoutNew_start, withoutNew_oldEnd, withoutNew_newEnd] at hchild
      omega

end RelativeEdit

open RelativeEdit (resized_mono bytes_total_edit_eq)

/-- Edited subtrees end no further on than the edit moves their end. -/
theorem bytes_totalAll_editAmong_le {change current : RelativeEdit} {isFirst : Bool}
    {left place : Length} (hle : change.start.bytes ≤ change.oldEnd.bytes)
    (hnew : change.start.bytes ≤ change.newEnd.bytes) (id : Nat) (trees : List Subtree)
    (hstage : change.Stage current isFirst left place)
    (hplace : place.bytes ≤ change.resized left.bytes) :
    place.bytes + (totalAll (editAmong current id isFirst left trees).1).bytes
      ≤ change.resized (left.bytes + (totalAll trees).bytes) := by
  induction trees generalizing current isFirst left place id with
  | nil =>
      rw [editAmong]
      exact hplace
  | cons child rest ih =>
      have hcons : ∀ (child' : Subtree) (rest' : List Subtree),
          (place + child'.total).bytes + (totalAll rest').bytes
            ≤ change.resized ((left + child.total).bytes + (totalAll rest).bytes) →
          place.bytes + (totalAll (child' :: rest')).bytes
            ≤ change.resized (left.bytes + (totalAll (child :: rest)).bytes) := by
        intro child' rest' hrest
        rw [Length.bytes_add, Length.bytes_add, Nat.add_assoc, Nat.add_assoc] at hrest
        exact hrest
      rw [editAmong]
      by_cases hbefore : isBefore (left + child.total) current child = true
      · rw [if_pos hbefore]
        obtain ⟨hsame, hlt, hnext⟩ := hstage.before hbefore
        refine hcons child _ (ih id hnext ?_)
        have hspec := change.resized_spec (left + child.total).bytes
        rw [Length.bytes_add] at hspec
        rw [Length.bytes_add, Length.bytes_add]
        omega
      · rw [if_neg hbefore]
        by_cases hbehind : isBehind left current isFirst child = true
        · -- all of the edit is in front of what is left, which moves along as it is
          rw [if_pos hbehind]
          obtain ⟨hstop, hmoved⟩ := hstage.behind hle hbehind
          have hspec := change.resized_spec (left.bytes + (totalAll (child :: rest)).bytes)
          simp only
          omega
        · rw [if_neg hbehind]
          exact hcons _ _ (ih _ (hstage.step hle hnew id) (hstage.step_le hle hnew id hplace))

mutual

theorem roomy_edit (id : Nat) (t : Subtree) (change : RelativeEdit)
    (hle : change.start.bytes ≤ change.oldEnd.bytes)
    (hnew : change.start.bytes ≤ change.newEnd.bytes) (h : t.Roomy) :
    (t.edit change id).1.Roomy := by
  match t with
  | .mk head children =>
      obtain ⟨_, hbytes, hchildren⟩ := h
      have hend := bytes_totalAll_editAmong_le hle hnew (id + 1) children change.stage_start
        (Nat.zero_le _)
      rw [Length.bytes_zero, Nat.zero_add, Nat.zero_add] at hend
      refine ⟨_, ?_, ?_⟩
      · rw [bytes_total_edit_eq id _ hle hnew, Subtree.edit]
        exact Nat.le_trans hend (resized_mono hnew hbytes)
      · rw [Subtree.edit]
        exact roomy_editAmong (id + 1) children change hle hnew change.stage_start hchildren

theorem roomy_editAmong (id : Nat) (trees : List Subtree) (change : RelativeEdit)
    {current : RelativeEdit} {isFirst : Bool} {left place : Length}
    (hle : change.start.bytes ≤ change.oldEnd.bytes)
    (hnew : change.start.bytes ≤ change.newEnd.bytes)
    (hstage : change.Stage current isFirst left place) (h : ∀ t ∈ trees, t.Roomy) :
    ∀ t ∈ (editAmong current id isFirst left trees).1, t.Roomy := by
  match trees with
  | [] =>
      rw [editAmong]
      exact h
  | child :: rest =>
      obtain ⟨hchild, hrest⟩ := List.forall_mem_cons.1 h
      rw [editAmong]
      by_cases hbefore : isBefore (left + child.total) current child = true
      · rw [if_pos hbefore]
        obtain ⟨_, _, hnext⟩ := hstage.before hbefore
        exact List.forall_mem_cons.2
          ⟨hchild, roomy_editAmong id rest change hle hnew hnext hrest⟩
      · rw [if_neg hbefore]
        by_cases hbehind : isBehind left current isFirst child = true
        · rw [if_pos hbehind]
          exact h
        · rw [if_neg hbehind]
          exact List.forall_mem_cons.2
            ⟨roomy_edit id child (current.after left) (hstage.after_start_le_oldEnd hle)
              (hstage.after_start_le_newEnd hnew) hchild,
            roomy_editAmong _ rest change hle hnew (hstage.step hle hnew id) hrest⟩

end

theorem Tree.bytes_total_root_edit (tree : Tree) (change : InputEdit) (id : Nat) :
    (tree.edit change id).1.root.total.bytes
      = change.newEndByte + (tree.root.total.bytes - change.oldEndByte) := by
  change 0 + (change.newEndByte + (tree.root.total.monus _).bytes) = _
  rw [Length.bytes_monus, Nat.zero_add]
  rfl

/-- The root is made as long as the edited text, which leaves room for all that was moved along. -/
theorem Tree.roomy_edit {tree : Tree} (h : tree.root.Roomy) (change : InputEdit) (id : Nat)
    (hle : change.startByte ≤ change.oldEndByte) (hnew : change.startByte ≤ change.newEndByte) :
    (tree.edit change id).1.root.Roomy := by
  have hedited := IncrementalLR.roomy_edit id tree.root (RelativeEdit.ofInput change) hle hnew h
  refine ⟨_, ?_, hedited.fitIn_children.roomy⟩
  refine Nat.le_trans hedited.fitIn_children.bytes ?_
  rw [bytes_total_edit_eq id tree.root hle hnew, Tree.bytes_total_root_edit]
  have hspec := (RelativeEdit.ofInput change).resized_spec tree.root.total.bytes
  simp only [RelativeEdit.ofInput] at hspec ⊢
  omega

end IncrementalLR
