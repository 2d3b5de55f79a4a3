import IncrementalLR.Proofs.Tree.Edits
import IncrementalLR.Proofs.Tree.Spans

/-!
# Subtrees that an edit keeps

A subtree that is not marked after an edit was there before it. Either all that was looked at for it
ends in front of the edit, and it stays at its place, or it starts behind the edit and moves along
with the text there.
-/

namespace IncrementalLR

open Subtree (editAmong editedLengths isBefore isBehind takesNew nodesAt nodesAmong totalAll interior
  Summary)

/-! ### Places -/

/-- The subtree at a place that counts from an earlier place. -/
def Placed.movedBy (p : Placed) (place : Length) : Placed := ⟨p.subtree, place + p.offset⟩

/-- The end of what was looked at for a subtree at its place. -/
def Placed.reach (p : Placed) : Nat := p.next.bytes + p.subtree.head.lookaheadBytes

theorem Placed.reach_eq (p : Placed) :
    p.reach = p.offset.bytes + p.subtree.total.bytes + p.subtree.head.lookaheadBytes := rfl

@[simp] theorem Placed.subtree_movedBy (p : Placed) (place : Length) :
    (p.movedBy place).subtree = p.subtree := rfl

@[simp] theorem Placed.bytes_offset_movedBy (p : Placed) (place : Length) :
    (p.movedBy place).offset.bytes = place.bytes + p.offset.bytes := rfl

theorem Placed.reach_movedBy (p : Placed) (place : Length) :
    (p.movedBy place).reach = place.bytes + p.reach := by
  rw [reach_eq, reach_eq, bytes_offset_movedBy, subtree_movedBy]
  omega

mutual

theorem nodesAt_add (place later : Length) (t : Subtree) :
    nodesAt (place + later) t = (nodesAt later t).map fun p => p.movedBy place := by
  match t with
  | .mk head children =>
      rw [nodesAt, nodesAt, List.map_cons, nodesAmong_add]
      rfl

theorem nodesAmong_add (place later : Length) (trees : List Subtree) :
    nodesAmong (place + later) trees = (nodesAmong later trees).map fun p => p.movedBy place := by
  match trees with
  | [] => rfl
  | t :: rest =>
      rw [nodesAmong, nodesAmong, List.map_append, nodesAt_add, Length.add_assoc, nodesAmong_add]

end

theorem mem_nodesAmong_iff (place : Length) {trees : List Subtree} {p : Placed} :
    p ∈ nodesAmong place trees ↔ ∃ q ∈ nodesAmong Length.zero trees, q.movedBy place = p := by
  have hzero := nodesAmong_add place Length.zero trees
  rw [Length.add_zero] at hzero
  rw [hzero, List.mem_map]

/-- The nodes of subtrees are the same at all places. -/
theorem exists_mem_nodesAmong {place : Length} (left : Length) {trees : List Subtree} {p : Placed}
    (hp : p ∈ nodesAmong place trees) :
    ∃ q ∈ nodesAmong left trees, p.subtree = q.subtree ∧ left.bytes ≤ q.offset.bytes ∧
      p.offset.bytes + left.bytes = q.offset.bytes + place.bytes := by
  obtain ⟨r, hr, rfl⟩ := (mem_nodesAmong_iff place).1 hp
  refine ⟨r.movedBy left, (mem_nodesAmong_iff left).2 ⟨r, hr, rfl⟩, rfl, ?_, ?_⟩
  · exact Nat.le_add_right _ _
  · rw [Placed.bytes_offset_movedBy, Placed.bytes_offset_movedBy]
    omega

theorem nodesAmong_singleton (place : Length) (t : Subtree) :
    nodesAmong place [t] = nodesAt place t :=
  List.append_nil _

/-! ### What is inside of a subtree -/

/-- What is not marked under the subtree lies in it, and no more was looked at for it than for the
subtree itself. So it is with all nodes under it. -/
inductive Subtree.Encloses : Subtree → Prop
  | mk (t : Subtree)
      (hbelow : ∀ p ∈ nodesAmong Length.zero t.children, p.subtree.flags.hasChanges = false →
        p.offset.bytes ≤ t.total.bytes ∧ p.reach ≤ t.total.bytes + t.head.lookaheadBytes)
      (hchildren : ∀ child ∈ t.children, Encloses child) : Encloses t

theorem Subtree.Encloses.of_mem_nodesAt {t : Subtree} (h : t.Encloses) {place : Length} {p : Placed}
    (hp : p ∈ nodesAt place t) (hflag : p.subtree.flags.hasChanges = false) :
    place.bytes ≤ p.offset.bytes ∧ p.offset.bytes ≤ place.bytes + t.total.bytes ∧
      p.reach ≤ place.bytes + t.total.bytes + t.head.lookaheadBytes := by
  obtain ⟨_, hbelow, _⟩ := h
  rw [nodesAt_eq] at hp
  cases hp with
  | head => exact ⟨Nat.le_refl _, Nat.le_add_right _ _, Nat.le_refl _⟩
  | tail _ hp =>
      obtain ⟨q, hq, rfl⟩ := (mem_nodesAmong_iff place).1 hp
      obtain ⟨hoffset, hreach⟩ := hbelow q hq hflag
      rw [Placed.bytes_offset_movedBy, Placed.reach_movedBy]
      omega

@[simp] theorem Subtree.hasChanges_edit (change : RelativeEdit) (id : Nat) (t : Subtree) :
    (t.edit change id).1.flags.hasChanges = true := by
  cases t with
  | mk head children =>
      rw [Subtree.edit]
      rfl

/-! ### Lengths in bytes -/

theorem Length.bytes_sub (a b : Length) : (a - b).bytes = a.bytes - b.bytes := rfl

section Edit

variable {change : RelativeEdit}

theorem bytes_editedLengths (padding size : Length) (hle : change.start.bytes ≤ change.oldEnd.bytes)
    (hnew : change.start.bytes ≤ change.newEnd.bytes) :
    let total := padding.bytes + size.bytes
    let edited := (editedLengths padding size change).1.bytes +
      (editedLengths padding size change).2.bytes
    (change.start.bytes < total ∨ change.start.bytes = total ∧ change.oldEnd.bytes = total →
        edited = change.newEnd.bytes + (total - change.oldEnd.bytes)) ∧
      (total < change.start.bytes ∨ change.start.bytes = total ∧ total < change.oldEnd.bytes →
        edited = total) := by
  have hreaches : (decide (change.start.bytes < (padding + size).bytes) ||
        change.start.bytes == (padding + size).bytes && change.isInsertion) = true ↔
      change.start.bytes < padding.bytes + size.bytes ∨
        change.start.bytes = padding.bytes + size.bytes ∧
          change.start.bytes = change.oldEnd.bytes := by
    simp only [RelativeEdit.isInsertion, Bool.or_eq_true, Bool.and_eq_true, decide_eq_true_eq,
      beq_iff_eq]
    rfl
  intro total edited
  subst total edited
  rw [editedLengths]
  simp only [hreaches]
  split
  · simp only [Length.bytes_add, Length.bytes_sub]
    omega
  · split
    · simp only [Length.bytes_monus, Length.bytes_sub]
      omega
    · split
      · simp only [Length.bytes_add, Length.bytes_monus, Length.bytes_sub]
        omega
      · exact ⟨fun _ => by omega, fun _ => rfl⟩

theorem Subtree.bytes_total_edit (id : Nat) (t : Subtree)
    (hle : change.start.bytes ≤ change.oldEnd.bytes)
    (hnew : change.start.bytes ≤ change.newEnd.bytes) :
    let total := t.total.bytes
    let edited := (t.edit change id).1.total.bytes
    (change.start.bytes < total ∨ change.start.bytes = total ∧ change.oldEnd.bytes = total →
        edited = change.newEnd.bytes + (total - change.oldEnd.bytes)) ∧
      (total < change.start.bytes ∨ change.start.bytes = total ∧ total < change.oldEnd.bytes →
        edited = total) := by
  cases t with
  | mk head children =>
      rw [Subtree.edit]
      exact bytes_editedLengths head.padding head.size hle hnew

end Edit

/-! ### What is kept -/

/-- The subtree stays in front of the edit, or it moves along behind it. -/
structure RelativeEdit.Keeps (change : RelativeEdit) (q p : Placed) : Prop where
  subtree : p.subtree = q.subtree
  place : p.offset.bytes = q.offset.bytes ∧ q.reach < change.start.bytes ∨
    change.oldEnd.bytes ≤ q.offset.bytes ∧
      p.offset.bytes + change.oldEnd.bytes = q.offset.bytes + change.newEnd.bytes

/-- How far the edit of subtrees one after the other has come: what of the edit is still to be done,
and the place of the next subtree before and after the edit. -/
inductive RelativeEdit.Stage (change : RelativeEdit) : RelativeEdit → Bool → Length → Length → Prop
  | pending (isFirst : Bool) (left place : Length) (hplace : place.bytes = left.bytes)
      (hleft : left.bytes ≤ change.start.bytes)
      (hlater : isFirst = false →
        left.bytes < change.start.bytes ∨ change.start.bytes ≠ change.oldEnd.bytes) :
      Stage change change isFirst left place
  | taken (isFirst : Bool) (left place : Length) (hleft : change.start.bytes ≤ left.bytes)
      (hplace : place.bytes = change.newEnd.bytes + (left.bytes - change.oldEnd.bytes)) :
      Stage change change.withoutNew isFirst left place

namespace RelativeEdit

variable {change current : RelativeEdit} {isFirst : Bool} {left place : Length} {child : Subtree}

@[simp] theorem withoutNew_start : change.withoutNew.start = change.start := rfl

@[simp] theorem withoutNew_oldEnd : change.withoutNew.oldEnd = change.oldEnd := rfl

@[simp] theorem withoutNew_newEnd : change.withoutNew.newEnd = change.start := rfl

theorem after_newEnd (change : RelativeEdit) (place : Length) :
    (change.after place).newEnd.bytes = change.newEnd.bytes - place.bytes :=
  Length.bytes_monus _ _

/-- The edit begins with the first subtree. -/
theorem stage_start (change : RelativeEdit) : change.Stage change true Length.zero Length.zero :=
  .pending true Length.zero Length.zero rfl (Nat.zero_le _) (fun h => Bool.noConfusion h)

theorem Stage.start_eq (h : change.Stage current isFirst left place) :
    current.start = change.start := by
  cases h <;> rfl

theorem Stage.oldEnd_eq (h : change.Stage current isFirst left place) :
    current.oldEnd = change.oldEnd := by
  cases h <;> rfl

theorem Stage.after_start_le_oldEnd (h : change.Stage current isFirst left place)
    (hle : change.start.bytes ≤ change.oldEnd.bytes) :
    (current.after left).start.bytes ≤ (current.after left).oldEnd.bytes := by
  rw [after_start, after_oldEnd, h.start_eq, h.oldEnd_eq]
  omega

theorem Stage.after_start_le_newEnd (h : change.Stage current isFirst left place)
    (hnew : change.start.bytes ≤ change.newEnd.bytes) :
    (current.after left).start.bytes ≤ (current.after left).newEnd.bytes := by
  rw [after_start, after_newEnd]
  cases h with
  | pending => omega
  | taken => exact Nat.le_refl _

/-- What is kept inside of a subtree is kept in the whole. -/
theorem Stage.keeps (h : change.Stage current isFirst left place)
    (hle : change.start.bytes ≤ change.oldEnd.bytes)
    (hnew : change.start.bytes ≤ change.newEnd.bytes) {q p : Placed}
    (hkeeps : (current.after left).Keeps q p) :
    change.Keeps (q.movedBy left) (p.movedBy place) := by
  obtain ⟨hsubtree, hplaces⟩ := hkeeps
  refine ⟨hsubtree, ?_⟩
  rw [after_start, after_oldEnd, after_newEnd] at hplaces
  rw [Placed.reach_movedBy, Placed.bytes_offset_movedBy, Placed.bytes_offset_movedBy]
  cases h with
  | pending => omega
  | taken =>
      simp only [withoutNew_start, withoutNew_oldEnd, withoutNew_newEnd] at hplaces
      omega

/-- A subtree in front of the edit leaves all of it to be done. -/
theorem Stage.before (h : change.Stage current isFirst left place)
    (hbefore : isBefore (left + child.total) current child = true) :
    place.bytes = left.bytes ∧
      left.bytes + child.total.bytes + child.head.lookaheadBytes < change.start.bytes ∧
      change.Stage current false (left + child.total) (place + child.total) := by
  have hlt : (left + child.total).bytes + child.head.lookaheadBytes < current.start.bytes :=
    of_decide_eq_true hbefore
  rw [h.start_eq, Length.bytes_add] at hlt
  cases h with
  | pending _ _ _ hplace =>
      refine ⟨hplace, hlt, .pending false _ _ ?_ ?_ ?_⟩
      · rw [Length.bytes_add, Length.bytes_add, hplace]
      · rw [Length.bytes_add]
        omega
      · intro _
        rw [Length.bytes_add]
        omega
  | taken _ _ _ hleft => omega

/-- The edit is done when it comes to a subtree behind it. -/
theorem Stage.behind (h : change.Stage current isFirst left place)
    (hle : change.start.bytes ≤ change.oldEnd.bytes)
    (hbehind : isBehind left current isFirst child = true) :
    change.oldEnd.bytes ≤ left.bytes ∧
      place.bytes + change.oldEnd.bytes = left.bytes + change.newEnd.bytes := by
  simp only [isBehind, h.oldEnd_eq, Bool.or_eq_true, Bool.and_eq_true, decide_eq_true_eq,
    beq_iff_eq, Bool.not_eq_true'] at hbehind
  cases h with
  | pending _ _ _ _ hleft hlater =>
      rcases hbehind with hlt | ⟨⟨heq, _⟩, hnotFirst⟩
      · omega
      · have happart := hlater hnotFirst
        omega
  | taken _ _ _ _ hplace => omega

/-- The stage behind a subtree that the edit touches. -/
theorem Stage.step (h : change.Stage current isFirst left place)
    (hle : change.start.bytes ≤ change.oldEnd.bytes)
    (hnew : change.start.bytes ≤ change.newEnd.bytes) (id : Nat) :
    change.Stage (if takesNew (left + child.total) current then current.withoutNew else current)
      false (left + child.total) (place + (child.edit (current.after left) id).1.total) := by
  obtain ⟨htouched, hpassed⟩ := Subtree.bytes_total_edit id child (h.after_start_le_oldEnd hle)
    (h.after_start_le_newEnd hnew)
  rw [after_start, after_oldEnd, after_newEnd] at htouched
  rw [after_start, after_oldEnd] at hpassed
  have htakes : takesNew (left + child.total) current = true ↔
      change.start.bytes < left.bytes + child.total.bytes ∨
        left.bytes + child.total.bytes = change.start.bytes ∧
          change.start.bytes = change.oldEnd.bytes := by
    simp only [takesNew, isInsertion, h.start_eq, h.oldEnd_eq, Length.bytes_add, Bool.or_eq_true,
      Bool.and_eq_true, decide_eq_true_eq, beq_iff_eq]
  cases h with
  | pending _ _ _ hplace hleft _ =>
      by_cases htaken : takesNew (left + child.total) change = true
      · rw [if_pos htaken]
        have hreaches := htakes.1 htaken
        refine .taken false _ _ ?_ ?_
        · rw [Length.bytes_add]
          omega
        · rw [Length.bytes_add, Length.bytes_add]
          omega
      · rw [if_neg htaken]
        have hreaches := mt htakes.2 htaken
        refine .pending false _ _ ?_ ?_ ?_
        · rw [Length.bytes_add, Length.bytes_add]
          omega
        · rw [Length.bytes_add]
          omega
        · intro _
          rw [Length.bytes_add]
          omega
  | taken _ _ _ hleft hplace =>
      have hsame : (if takesNew (left + child.total) change.withoutNew = true then
          change.withoutNew.withoutNew else change.withoutNew) = change.withoutNew :=
        ite_self _
      rw [hsame]
      simp only [withoutNew_start, withoutNew_oldEnd, withoutNew_newEnd] at htouched hpassed
      refine .taken false _ _ ?_ ?_
      · rw [Length.bytes_add]
        omega
      · rw [Length.bytes_add, Length.bytes_add]
        omega

end RelativeEdit

section Keeps

variable {change : RelativeEdit}

mutual

/-- What is not marked under an edited subtree was under it before. -/
theorem keeps_edit (id : Nat) (t : Subtree) (change : RelativeEdit)
    (hle : change.start.bytes ≤ change.oldEnd.bytes)
    (hnew : change.start.bytes ≤ change.newEnd.bytes) (h : t.Encloses) {p : Placed}
    (hp : p ∈ nodesAmong Length.zero (t.edit change id).1.children)
    (hflag : p.subtree.flags.hasChanges = false) :
    ∃ q ∈ nodesAmong Length.zero t.children, change.Keeps q p := by
  match t with
  | .mk head children =>
      obtain ⟨_, _, hchildren⟩ := h
      rw [Subtree.edit] at hp
      exact keeps_editAmong (id + 1) children change hle hnew change.stage_start hchildren hp hflag

theorem keeps_editAmong (id : Nat) (trees : List Subtree) (change : RelativeEdit)
    {current : RelativeEdit} {isFirst : Bool} {left place : Length}
    (hle : change.start.bytes ≤ change.oldEnd.bytes)
    (hnew : change.start.bytes ≤ change.newEnd.bytes)
    (hstage : change.Stage current isFirst left place) (h : ∀ t ∈ trees, t.Encloses) {p : Placed}
    (hp : p ∈ nodesAmong place (editAmong current id isFirst left trees).1)
    (hflag : p.subtree.flags.hasChanges = false) :
    ∃ q ∈ nodesAmong left trees, change.Keeps q p := by
  match trees with
  | [] =>
      rw [editAmong] at hp
      cases hp
  | child :: rest =>
      have hchild := h child List.mem_cons_self
      have hrest : ∀ t ∈ rest, t.Encloses := fun t ht => h t (List.mem_cons_of_mem child ht)
      have hbehindChild : (∃ q ∈ nodesAmong (left + child.total) rest, change.Keeps q p) →
          ∃ q ∈ nodesAmong left (child :: rest), change.Keeps q p := by
        rintro ⟨q, hq, hkeeps⟩
        exact ⟨q, List.mem_append_right _ hq, hkeeps⟩
      rw [editAmong] at hp
      by_cases hbefore : isBefore (left + child.total) current child = true
      · rw [if_pos hbefore] at hp
        obtain ⟨hplace, hlt, hnext⟩ := hstage.before hbefore
        rcases List.mem_append.1 hp with hp | hp
        · rw [← nodesAmong_singleton] at hp
          obtain ⟨q, hq, hsubtree, _, hoffset⟩ := exists_mem_nodesAmong left hp
          rw [nodesAmong_singleton] at hq
          obtain ⟨_, _, hreach⟩ := hchild.of_mem_nodesAt hq (hsubtree ▸ hflag)
          exact ⟨q, List.mem_append_left _ hq, hsubtree, .inl ⟨by omega, by omega⟩⟩
        · exact hbehindChild (keeps_editAmong id rest change hle hnew hnext hrest hp hflag)
      · rw [if_neg hbefore] at hp
        by_cases hbehind : isBehind left current isFirst child = true
        · rw [if_pos hbehind] at hp
          obtain ⟨hstop, hplace⟩ := hstage.behind hle hbehind
          obtain ⟨q, hq, hsubtree, hleft, hoffset⟩ := exists_mem_nodesAmong left hp
          exact ⟨q, hq, hsubtree, .inr ⟨by omega, by omega⟩⟩
        · rw [if_neg hbehind] at hp
          rcases List.mem_append.1 hp with hp | hp
          · rw [nodesAt_eq] at hp
            cases hp with
            | head =>
                rw [Subtree.hasChanges_edit] at hflag
                cases hflag
            | tail _ hp =>
                obtain ⟨r, hr, rfl⟩ := (mem_nodesAmong_iff place).1 hp
                obtain ⟨q, hq, hkeeps⟩ := keeps_edit id child (current.after left)
                  (hstage.after_start_le_oldEnd hle) (hstage.after_start_le_newEnd hnew) hchild hr hflag
                refine ⟨q.movedBy left, List.mem_append_left _ ?_, hstage.keeps hle hnew hkeeps⟩
                rw [nodesAt_eq]
                exact List.mem_cons_of_mem _ ((mem_nodesAmong_iff left).2 ⟨q, hq, rfl⟩)
          · exact hbehindChild (keeps_editAmong _ rest change hle hnew (hstage.step hle hnew id)
              hrest hp hflag)

end

mutual

theorem encloses_edit (id : Nat) (t : Subtree) (change : RelativeEdit)
    (hle : change.start.bytes ≤ change.oldEnd.bytes)
    (hnew : change.start.bytes ≤ change.newEnd.bytes) (h : t.Encloses) :
    (t.edit change id).1.Encloses := by
  match t with
  | .mk head children =>
      have hkeeps := fun (p : Placed) => keeps_edit id (.mk head children) change hle hnew h (p := p)
      obtain ⟨htouched, hpassed⟩ := Subtree.bytes_total_edit id (.mk head children) hle hnew
      obtain ⟨_, hbelow, hchildren⟩ := h
      refine ⟨_, ?_, ?_⟩
      · intro p hp hflag
        obtain ⟨q, hq, hsubtree, hplace⟩ := hkeeps p hp hflag
        obtain ⟨hoffset, hreach⟩ := hbelow q hq (hsubtree ▸ hflag)
        have hlookahead : ((Subtree.mk head children).edit change id).1.head.lookaheadBytes
            = (Subtree.mk head children).head.lookaheadBytes := by
          rw [Subtree.edit]
          rfl
        rw [hlookahead]
        have hmoved : p.reach + q.offset.bytes = q.reach + p.offset.bytes := by
          rw [Placed.reach_eq, Placed.reach_eq, hsubtree]
          omega
        have hstart : q.offset.bytes ≤ q.reach := by
          rw [Placed.reach_eq]
          omega
        omega
      · rw [Subtree.edit]
        exact encloses_editAmong (id + 1) children change hle hnew change.stage_start hchildren

theorem encloses_editAmong (id : Nat) (trees : List Subtree) (change : RelativeEdit)
    {current : RelativeEdit} {isFirst : Bool} {left place : Length}
    (hle : change.start.bytes ≤ change.oldEnd.bytes)
    (hnew : change.start.bytes ≤ change.newEnd.bytes)
    (hstage : change.Stage current isFirst left place) (h : ∀ t ∈ trees, t.Encloses) :
    ∀ t ∈ (editAmong current id isFirst left trees).1, t.Encloses := by
  match trees with
  | [] =>
      intro t ht
      rw [editAmong] at ht
      cases ht
  | child :: rest =>
      have hchild := h child List.mem_cons_self
      have hrest : ∀ t ∈ rest, t.Encloses := fun t ht => h t (List.mem_cons_of_mem child ht)
      rw [editAmong]
      by_cases hbefore : isBefore (left + child.total) current child = true
      · rw [if_pos hbefore]
        obtain ⟨_, _, hnext⟩ := hstage.before hbefore
        exact List.forall_mem_cons.2
          ⟨hchild, encloses_editAmong id rest change hle hnew hnext hrest⟩
      · rw [if_neg hbefore]
        by_cases hbehind : isBehind left current isFirst child = true
        · rw [if_pos hbehind]
          exact h
        · rw [if_neg hbehind]
          exact List.forall_mem_cons.2
            ⟨encloses_edit id child (current.after left) (hstage.after_start_le_oldEnd hle)
              (hstage.after_start_le_newEnd hnew) hchild,
            encloses_editAmong _ rest change hle hnew (hstage.step hle hnew id) hrest⟩

end

end Keeps

/-! ### Subtrees that cover a text -/

/-- What covers a text is not marked. -/
theorem Covers.hasChanges_eq_false {table : Table} {t : Subtree} {w : List UInt8}
    (h : Covers table t w) : t.flags.hasChanges = false := by
  cases h with
  | token => rfl
  | missing => rfl
  | interior id s children => cases children <;> rfl
  | root id s children => cases children <;> rfl

/-- No child was looked at beyond what a node was looked at for. -/
theorem Subtree.le_lookaheadEnd_foldl (isError : Bool) (summary : Summary) (trees : List Subtree) :
    summary.lookaheadEnd ≤ (trees.foldl (Summary.add isError) summary).lookaheadEnd ∧
      ∀ before child after, trees = before ++ child :: after →
        summary.length.bytes + (totalAll before).bytes + child.total.bytes +
            child.head.lookaheadBytes
          ≤ (trees.foldl (Summary.add isError) summary).lookaheadEnd := by
  induction trees generalizing summary with
  | nil =>
      refine ⟨Nat.le_refl _, ?_⟩
      intro before child after h
      cases before <;> cases h
  | cons t rest ih =>
      obtain ⟨hle, hchild⟩ := ih (summary.add isError t)
      rw [List.foldl_cons]
      have hadd : (summary.add isError t).lookaheadEnd = max summary.lookaheadEnd
          (summary.length.bytes + t.total.bytes + t.head.lookaheadBytes) := rfl
      refine ⟨by omega, ?_⟩
      intro before child after h
      cases before with
      | nil =>
          cases h
          rw [totalAll, Length.bytes_zero]
          omega
      | cons first before =>
          cases h
          have hlater := hchild before child after rfl
          have hlength : (summary.add isError t).length.bytes
              = summary.length.bytes + t.total.bytes := rfl
          rw [totalAll, Length.bytes_add]
          omega

theorem Subtree.lookaheadBytes_interior (table : Table) (id : Nat) (s : Symbol)
    {children : List Subtree} (production : Option ProductionId) (fragile : Bool)
    {before after : List Subtree} {child : Subtree} (h : children = before ++ child :: after) :
    (totalAll before).bytes + child.total.bytes + child.head.lookaheadBytes
      ≤ (totalAll children).bytes +
        (interior table id s children production fragile).head.lookaheadBytes := by
  cases children with
  | nil => cases before <;> cases h
  | cons first rest =>
      let start : Summary :=
        { errorCost := if s == Symbol.error then Cost.recovery else 0, hasError := s == Symbol.error }
      obtain ⟨_, hchild⟩ := le_lookaheadEnd_foldl (s == Symbol.error) start (first :: rest)
      have hlookahead : (interior table id s (first :: rest) production fragile).head.lookaheadBytes
          = ((first :: rest).foldl (Summary.add (s == Symbol.error)) start).lookaheadEnd
            - (Length.zero + totalAll (first :: rest)).bytes := by
        rw [← length_foldl_add (s == Symbol.error) start]
        rfl
      have hreach := hchild before child after h
      have hzero : start.length.bytes = 0 := rfl
      rw [Length.zero_add] at hlookahead
      omega

/-- A node encloses what its children enclose. -/
theorem Subtree.encloses_of_children (table : Table) {t : Subtree} (id : Nat) (s : Symbol)
    (production : Option ProductionId) (fragile : Bool)
    (htotal : t.total = totalAll t.children)
    (hlookahead : t.head.lookaheadBytes
      = (interior table id s t.children production fragile).head.lookaheadBytes)
    (hchildren : ∀ child ∈ t.children, child.Encloses) : t.Encloses := by
  refine ⟨t, ?_, hchildren⟩
  intro p hp hflag
  obtain ⟨before, child, after, hsplit, hp⟩ := exists_of_mem_nodesAmong hp
  have hchild := hchildren child (hsplit ▸ List.mem_append_right _ List.mem_cons_self)
  obtain ⟨_, hoffset, hreach⟩ := hchild.of_mem_nodesAt hp hflag
  have hlooked := lookaheadBytes_interior table id s production fragile hsplit
  have hlength : (totalAll before).bytes + child.total.bytes ≤ (totalAll t.children).bytes := by
    rw [hsplit, totalAll_append, totalAll, Length.bytes_add, Length.bytes_add]
    omega
  rw [Length.zero_add] at hoffset hreach
  rw [htotal, hlookahead]
  omega

mutual

theorem Covers.encloses {table : Table} {t : Subtree} {w : List UInt8} (h : Covers table t w) :
    t.Encloses := by
  match h with
  | .token _ _ _ _ _ _ _ _ => exact ⟨_, nofun, nofun⟩
  | .missing _ _ _ => exact ⟨_, nofun, nofun⟩
  | .interior id s children production fragile w hchildren =>
      have htotal := (Covers.interior id s children production fragile w
        hchildren).total_eq_totalAll_children (Subtree.isLeaf_interior ..)
      have hall := hchildren.encloses
      rw [← Subtree.children_interior table id s children production fragile] at hall
      refine Subtree.encloses_of_children table id s production fragile htotal ?_ hall
      rw [Subtree.children_interior]
  | .root id s children production fragile w hchildren =>
      have htotal := (Covers.root id s children production fragile w
        hchildren).total_eq_totalAll_children (by simp)
      have hall := hchildren.encloses
      rw [← Subtree.children_interior table id s children production fragile] at hall
      refine Subtree.encloses_of_children table id s production fragile htotal ?_ hall
      rw [Subtree.children_stretched, Subtree.children_interior]
      rfl

theorem CoversAll.encloses {table : Table} {trees : List Subtree} {w : List UInt8}
    (h : CoversAll table trees w) : ∀ t ∈ trees, t.Encloses := by
  match h with
  | .nil => exact nofun
  | .cons t rest u v ht hrest => exact List.forall_mem_cons.2 ⟨ht.encloses, hrest.encloses⟩

end

mutual

/-- Every node of what is current for a text is current for a part of it, at the place of that
part. -/
theorem Current.of_mem_nodesAt {table : Table} {t : Subtree} {w : List UInt8}
    (h : Current table t w) (before : List UInt8) {p : Placed}
    (hp : p ∈ nodesAt (Length.ofList before) t) :
    ∃ front part, p.offset = Length.ofList front ∧ Current table p.subtree part ∧
      front ++ part <+: before ++ w := by
  match h with
  | .covered t w h =>
      obtain ⟨front, part, hoffset, hcovers, hinitial⟩ := h.of_mem_nodesAt before hp
      exact ⟨front, part, hoffset, .covered _ _ hcovers, hinitial⟩
  | .changed t padding size hflag hpadding hsize hchildren =>
      rw [nodesAt_eq] at hp
      cases hp with
      | head =>
          exact ⟨before, padding ++ size, rfl, .changed t padding size hflag hpadding hsize hchildren,
            List.prefix_refl _⟩
      | tail _ hp =>
          have hne : t.children ≠ [] := by
            intro hnil
            rw [hnil] at hp
            cases hp
          exact (hchildren hne).of_mem_nodesAmong before hp

theorem CurrentAll.of_mem_nodesAmong {table : Table} {trees : List Subtree} {w : List UInt8}
    (h : CurrentAll table trees w) (before : List UInt8) {p : Placed}
    (hp : p ∈ nodesAmong (Length.ofList before) trees) :
    ∃ front part, p.offset = Length.ofList front ∧ Current table p.subtree part ∧
      front ++ part <+: before ++ w := by
  match h with
  | .nil => cases hp
  | .cons t rest u v ht hrest =>
      rw [nodesAmong, ht.total_eq, ← Length.ofList_append] at hp
      rw [← List.append_assoc]
      rcases List.mem_append.1 hp with hp | hp
      · obtain ⟨front, part, hoffset, hcurrent, hinitial⟩ := ht.of_mem_nodesAt before hp
        exact ⟨front, part, hoffset, hcurrent, hinitial.trans (List.prefix_append _ _)⟩
      · exact hrest.of_mem_nodesAmong (before ++ u) hp

end

end IncrementalLR
