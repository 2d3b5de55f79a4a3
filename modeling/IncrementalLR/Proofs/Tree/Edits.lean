import IncrementalLR.Proofs.Tree.Cover
import IncrementalLR.Tree.Edit

/-!
# Edited subtrees

A subtree that an edit touched is marked, and it is as long as the part of the new text that came
from its part of the old one. A subtree that no edit touched still covers the text that it covered.
So an old tree is current for a text that comes about by edits, in all that is not marked.
-/

namespace IncrementalLR

open Subtree (editAmong editedLengths isBefore isBehind takesNew)

/-! ### Replacing a part of a text -/

/-- What becomes of a part of a text when the bytes from `start` to `stop` are replaced. New text at
its end belongs to it when nothing is taken away. -/
def spliced (start stop : Nat) (new w : List UInt8) : List UInt8 :=
  if start < w.length ∨ start = w.length ∧ stop = w.length then w.take start ++ new ++ w.drop stop
  else w

theorem spliced_of_untouched {start stop : Nat} {new w : List UInt8}
    (h : w.length < start ∨ w.length = start ∧ start ≠ stop) : spliced start stop new w = w := by
  rw [spliced, if_neg]
  omega

theorem spliced_zero_nil (stop : Nat) (w : List UInt8) : spliced 0 stop [] w = w.drop stop := by
  rw [spliced]
  split
  · rw [List.take_zero, List.nil_append, List.nil_append]
  · have hnil : w = [] := List.length_eq_zero_iff.1 (by omega)
    rw [hnil, List.drop_nil]

theorem spliced_append_of_before {start stop : Nat} {new u v : List UInt8} (hle : start ≤ stop)
    (h : u.length < start ∨ u.length = start ∧ start ≠ stop) :
    spliced start stop new (u ++ v)
      = u ++ spliced (start - u.length) (stop - u.length) new v := by
  have hu : u.length ≤ start := by omega
  have htouches : (start < (u ++ v).length ∨ start = (u ++ v).length ∧ stop = (u ++ v).length) ↔
      start - u.length < v.length ∨ start - u.length = v.length ∧ stop - u.length = v.length := by
    rw [List.length_append]
    omega
  rw [spliced, spliced, List.take_append, List.drop_append, List.take_of_length_le hu,
    List.drop_of_length_le (Nat.le_trans hu hle), List.nil_append]
  by_cases htouched : start < (u ++ v).length ∨ start = (u ++ v).length ∧ stop = (u ++ v).length
  · rw [if_pos htouched, if_pos (htouches.1 htouched), List.append_assoc, List.append_assoc,
      List.append_assoc]
  · rw [if_neg htouched, if_neg (mt htouches.2 htouched)]

theorem spliced_append_of_within {start stop : Nat} {new u v : List UInt8} (hle : start ≤ stop)
    (h : start < u.length ∨ start = u.length ∧ start = stop) :
    spliced start stop new (u ++ v)
      = spliced start stop new u ++ spliced 0 (stop - u.length) [] v := by
  have hu : start ≤ u.length := by omega
  have htouched : start < (u ++ v).length ∨ start = (u ++ v).length ∧ stop = (u ++ v).length := by
    rw [List.length_append]
    omega
  have hfirst : start < u.length ∨ start = u.length ∧ stop = u.length := by omega
  rw [spliced, if_pos htouched, spliced, if_pos hfirst, spliced_zero_nil,
    List.take_append_of_le_length hu, List.drop_append, ← List.append_assoc]

/-! ### Subtrees that are current for a text -/

mutual

/-- The subtree is current for its part of the text: it covers it, or it is marked as changed and is
as long, and so are its children. -/
inductive Current (table : Table) : Subtree → List UInt8 → Prop
  | covered (t : Subtree) (w : List UInt8) (h : Covers table t w) : Current table t w
  | changed (t : Subtree) (padding size : List UInt8) (hflag : t.flags.hasChanges = true)
      (hpadding : t.padding = Length.ofList padding) (hsize : t.size = Length.ofList size)
      (hchildren : t.children ≠ [] → CurrentAll table t.children (padding ++ size)) :
      Current table t (padding ++ size)

inductive CurrentAll (table : Table) : List Subtree → List UInt8 → Prop
  | nil : CurrentAll table [] []
  | cons (t : Subtree) (rest : List Subtree) (u v : List UInt8) (ht : Current table t u)
      (hrest : CurrentAll table rest v) : CurrentAll table (t :: rest) (u ++ v)

end

variable {table : Table} {t : Subtree} {trees : List Subtree} {w new : List UInt8}

theorem CoversAll.currentAll (h : CoversAll table trees w) : CurrentAll table trees w := by
  induction trees generalizing w with
  | nil =>
      cases h
      exact .nil
  | cons t rest ih =>
      obtain _ | ⟨_, _, u, v, ht, hrest⟩ := h
      exact .cons t rest u v (.covered t u ht) (ih hrest)

theorem CurrentAll.append {more : List Subtree} {v : List UInt8} (h : CurrentAll table trees w)
    (hmore : CurrentAll table more v) : CurrentAll table (trees ++ more) (w ++ v) := by
  induction trees generalizing w with
  | nil =>
      cases h
      exact hmore
  | cons t rest ih =>
      obtain _ | ⟨_, _, u, x, ht, hrest⟩ := h
      rw [List.cons_append, List.append_assoc]
      exact .cons t (rest ++ more) u (x ++ v) ht (ih hrest)

/-- What a subtree is current for is a padding and then a size. -/
theorem Current.exists_eq_append (h : Current table t w) :
    ∃ padding size, w = padding ++ size ∧ t.padding = Length.ofList padding ∧
      t.size = Length.ofList size := by
  cases h with
  | covered _ _ h => exact h.exists_eq_append
  | changed _ padding size _ hpadding hsize _ => exact ⟨padding, size, rfl, hpadding, hsize⟩

theorem Current.total_eq (h : Current table t w) : t.total = Length.ofList w := by
  obtain ⟨padding, size, rfl, hpadding, hsize⟩ := h.exists_eq_append
  rw [Subtree.total, hpadding, hsize, ← Length.ofList_append]

theorem CurrentAll.totalAll_eq (h : CurrentAll table trees w) :
    Subtree.totalAll trees = Length.ofList w := by
  induction trees generalizing w with
  | nil =>
      cases h
      rfl
  | cons t rest ih =>
      obtain _ | ⟨_, _, u, v, ht, hrest⟩ := h
      rw [Subtree.totalAll, ht.total_eq, ih hrest, ← Length.ofList_append]

theorem Current.bytes_total (h : Current table t w) : t.total.bytes = w.length := by
  rw [h.total_eq, Length.bytes_ofList]

theorem Current.currentAll_children (h : Current table t w) (hchildren : t.children ≠ []) :
    CurrentAll table t.children w := by
  cases h with
  | covered _ _ h => exact (h.coversAll_children (h.isLeaf_eq_false hchildren)).currentAll
  | changed _ _ _ _ _ _ hall => exact hall hchildren

/-- What is not marked covers its part of the text. -/
theorem Current.covers (h : Current table t w) (hflag : t.flags.hasChanges = false) :
    Covers table t w := by
  cases h with
  | covered _ _ h => exact h
  | changed _ _ _ hchanged =>
      rw [hflag] at hchanged
      cases hchanged

/-! ### Lengths -/

theorem Length.bytes_monus (a b : Length) : (a.monus b).bytes = a.bytes - b.bytes := by
  rw [Length.monus]
  split
  · rfl
  · have hle : a.bytes ≤ b.bytes := by omega
    exact (Nat.sub_eq_zero_of_le hle).symm

theorem Length.sub_ofList_append (a b : List UInt8) :
    Length.ofList (a ++ b) - Length.ofList a = Length.ofList b := by
  rw [Length.ofList_append, Length.add_sub_cancel_left]

/-- What is left of a text behind a part that may be longer. -/
theorem Length.monus_ofList_take (a b : List UInt8) (n : Nat) :
    (Length.ofList a).monus (Length.ofList ((a ++ b).take n)) = Length.ofList (a.drop n) := by
  by_cases hn : n ≤ a.length
  · have hsplit := Length.monus_ofList_append (a.take n) (a.drop n)
    rw [List.take_append_drop] at hsplit
    rw [List.take_append_of_le_length hn, hsplit]
  · rw [Length.monus, if_neg, List.drop_of_length_le (by omega), Length.ofList_nil]
    rw [Length.bytes_ofList, Length.bytes_ofList, List.length_take, List.length_append]
    omega

/-- The edit replaces a part of a text by a new text. Its places count from the start of the text. -/
structure RelativeEdit.Puts (change : RelativeEdit) (text new : List UInt8) : Prop where
  start_le : change.start.bytes ≤ change.oldEnd.bytes
  start : change.start = Length.ofList (text.take change.start.bytes)
  oldEnd : change.oldEnd = Length.ofList (text.take change.oldEnd.bytes)
  newEnd : change.newEnd = Length.ofList (text.take change.start.bytes ++ new)

theorem RelativeEdit.Puts.start_le_length {change : RelativeEdit} {text : List UInt8}
    (h : change.Puts text new) : change.start.bytes ≤ text.length := by
  have hbytes := congrArg Length.bytes h.start
  rw [Length.bytes_ofList, List.length_take] at hbytes
  omega

theorem RelativeEdit.Puts.bytes_newEnd {change : RelativeEdit} {text : List UInt8}
    (h : change.Puts text new) : change.newEnd.bytes = change.start.bytes + new.length := by
  have hle := h.start_le_length
  rw [h.newEnd, Length.bytes_ofList, List.length_append, List.length_take, Nat.min_eq_left hle]

/-- The lengths of a subtree become those of what its part of the text becomes. -/
theorem editedLengths_eq {change : RelativeEdit} {padding size after : List UInt8}
    (hputs : change.Puts (padding ++ size ++ after) new) :
    ∃ padding' size', spliced change.start.bytes change.oldEnd.bytes new (padding ++ size)
        = padding' ++ size' ∧
      editedLengths (Length.ofList padding) (Length.ofList size) change
        = (Length.ofList padding', Length.ofList size') := by
  have hle := hputs.start_le
  have hlength : (padding ++ size).length = padding.length + size.length := List.length_append
  rw [editedLengths]
  simp only [RelativeEdit.isInsertion, Bool.or_eq_true, Bool.and_eq_true, decide_eq_true_eq,
    beq_iff_eq, Length.bytes_add, Length.bytes_ofList]
  split
  · -- the edit is in the padding
    rename_i hstop
    have hold : change.oldEnd = Length.ofList (padding.take change.oldEnd.bytes) := by
      have heq := hputs.oldEnd
      rwa [List.append_assoc, List.take_append_of_le_length hstop] at heq
    have hnew : change.newEnd = Length.ofList (padding.take change.start.bytes ++ new) := by
      have heq := hputs.newEnd
      rwa [List.append_assoc, List.take_append_of_le_length (by omega)] at heq
    refine ⟨padding.take change.start.bytes ++ new ++ padding.drop change.oldEnd.bytes, size, ?_, ?_⟩
    · rw [spliced, if_pos (by omega), List.take_append_of_le_length (by omega),
        List.drop_append_of_le_length hstop]
      simp only [List.append_assoc]
    · have hrest : Length.ofList padding - change.oldEnd
          = Length.ofList (padding.drop change.oldEnd.bytes) := by
        have hsub := Length.sub_ofList_append (padding.take change.oldEnd.bytes)
          (padding.drop change.oldEnd.bytes)
        rwa [List.take_append_drop, ← hold] at hsub
      rw [hrest, hnew, ← Length.ofList_append]
  · rename_i hstop
    split
    · -- the edit starts in the padding and ends behind it
      rename_i hstart
      have hnew : change.newEnd = Length.ofList (padding.take change.start.bytes ++ new) := by
        have heq := hputs.newEnd
        rwa [List.append_assoc, List.take_append_of_le_length (by omega)] at heq
      refine ⟨padding.take change.start.bytes ++ new,
        size.drop (change.oldEnd.bytes - padding.length), ?_, ?_⟩
      · rw [spliced, if_pos (by omega), List.take_append_of_le_length (by omega), List.drop_append,
          List.drop_of_length_le (by omega), List.nil_append]
      · have hrest : change.oldEnd - Length.ofList padding
            = Length.ofList ((size ++ after).take (change.oldEnd.bytes - padding.length)) := by
          have heq := hputs.oldEnd
          rw [List.append_assoc, List.take_append, List.take_of_length_le (by omega)] at heq
          exact (congrArg (· - Length.ofList padding) heq).trans (Length.sub_ofList_append _ _)
        rw [hrest, Length.monus_ofList_take, hnew]
    · split
      · -- the edit starts behind the padding
        rename_i hstart htouched
        have hwithin : change.start.bytes ≤ (padding ++ size).length := by omega
        refine ⟨padding, size.take (change.start.bytes - padding.length) ++ new ++
          size.drop (change.oldEnd.bytes - padding.length), ?_, ?_⟩
        · rw [spliced, if_pos (by omega), List.take_append, List.take_of_length_le (by omega),
            List.drop_append, List.drop_of_length_le (by omega), List.nil_append]
          simp only [List.append_assoc]
        · have hnew : change.newEnd - Length.ofList padding
              = Length.ofList (size.take (change.start.bytes - padding.length) ++ new) := by
            have heq := hputs.newEnd
            rw [List.take_append_of_le_length hwithin, List.take_append,
              List.take_of_length_le (by omega), List.append_assoc] at heq
            exact (congrArg (· - Length.ofList padding) heq).trans (Length.sub_ofList_append _ _)
          have hrest : (Length.ofList padding + Length.ofList size).monus change.oldEnd
              = Length.ofList (size.drop (change.oldEnd.bytes - padding.length)) := by
            have hmonus := Length.monus_ofList_take (padding ++ size) after change.oldEnd.bytes
            rwa [← hputs.oldEnd, Length.ofList_append, List.drop_append,
              List.drop_of_length_le (by omega), List.nil_append] at hmonus
          rw [hnew, hrest, ← Length.ofList_append]
      · -- the edit passes by
        rename_i hstart htouched
        refine ⟨padding, size, spliced_of_untouched (by omega), rfl⟩

/-! ### Editing -/

theorem RelativeEdit.after_start (change : RelativeEdit) (place : Length) :
    (change.after place).start.bytes = change.start.bytes - place.bytes :=
  Length.bytes_monus _ _

theorem RelativeEdit.after_oldEnd (change : RelativeEdit) (place : Length) :
    (change.after place).oldEnd.bytes = change.oldEnd.bytes - place.bytes :=
  Length.bytes_monus _ _

/-- The part of a text at a place after an edit. -/
def RelativeEdit.splicedAt (change : RelativeEdit) (place : Nat) (new w : List UInt8) : List UInt8 :=
  spliced (change.start.bytes - place) (change.oldEnd.bytes - place) new w

/-- The edit is yet to put in the new text, at this place or behind it, or has put it in already. -/
structure RelativeEdit.PutsAt (change : RelativeEdit) (place : Nat) (text new : List UInt8) : Prop
    extends change.Puts text new where
  place : new = [] ∨ place ≤ change.start.bytes

/-- The edit as seen from behind the first part of a text. -/
theorem RelativeEdit.PutsAt.puts {change : RelativeEdit} {done text : List UInt8}
    (h : change.PutsAt done.length (done ++ text) new) :
    (change.after (Length.ofList done)).Puts text new := by
  have hle := h.start_le
  have hafter : ∀ (n : Nat) (more : List UInt8), done.length ≤ n ∨ more = [] →
      (Length.ofList ((done ++ text).take n ++ more)).monus (Length.ofList done)
        = Length.ofList (text.take (n - done.length) ++ more) := by
    intro n more hn
    by_cases hlong : done.length ≤ n
    · rw [List.take_append, List.take_of_length_le hlong, List.append_assoc]
      exact Length.monus_ofList_append _ _
    · have hnil := hn.resolve_left hlong
      have hzero : n - done.length = 0 := by omega
      rw [hnil, List.append_nil, List.append_nil, hzero, List.take_zero, Length.ofList_nil,
        Length.monus, if_neg]
      rw [Length.bytes_ofList, Length.bytes_ofList, List.length_take]
      omega
  have hnew : done.length ≤ change.start.bytes ∨ new = [] := h.place.symm
  constructor
  · rw [after_start, after_oldEnd]
    omega
  · have heq := hafter change.start.bytes [] (.inr rfl)
    rw [List.append_nil, List.append_nil, ← h.start] at heq
    rw [after_start, Length.bytes_ofList]
    exact heq
  · have heq := hafter change.oldEnd.bytes [] (.inr rfl)
    rw [List.append_nil, List.append_nil, ← h.oldEnd] at heq
    rw [after_oldEnd, Length.bytes_ofList]
    exact heq
  · have heq := hafter change.start.bytes new hnew
    rw [← h.newEnd] at heq
    rw [after_start, Length.bytes_ofList]
    exact heq

/-- Nothing is left to put in once the new text has gone into an earlier subtree. -/
theorem RelativeEdit.PutsAt.withoutNew {change : RelativeEdit} {place : Nat} {text : List UInt8}
    (h : change.PutsAt place text new) (place' : Nat) :
    change.withoutNew.PutsAt place' text [] :=
  ⟨⟨h.start_le, h.start, h.oldEnd, by rw [List.append_nil]; exact h.start⟩, .inl rfl⟩

section SplicedAt

variable {change : RelativeEdit} {place : Nat} {text u v : List UInt8}

/-- A part that the edit passes by keeps its text. -/
theorem RelativeEdit.splicedAt_append_of_before (h : change.PutsAt place text new)
    (hbefore : place + u.length < change.start.bytes ∨
      place + u.length = change.start.bytes ∧ change.start.bytes ≠ change.oldEnd.bytes) :
    change.splicedAt place new u = u ∧
      change.splicedAt place new (u ++ v) = u ++ change.splicedAt (place + u.length) new v := by
  have hle := h.start_le
  constructor
  · exact spliced_of_untouched (by omega)
  · rw [splicedAt, spliced_append_of_before (by omega) (by omega), splicedAt, Nat.sub_sub,
      Nat.sub_sub]

/-- The new text goes into the first part that reaches its place. -/
theorem RelativeEdit.splicedAt_append_of_within (h : change.PutsAt place text new)
    (hwithin : change.start.bytes < place + u.length ∨
      place + u.length = change.start.bytes ∧ change.start.bytes = change.oldEnd.bytes) :
    change.splicedAt place new (u ++ v)
      = change.splicedAt place new u ++ change.splicedAt (place + u.length) [] v := by
  have hle := h.start_le
  have hzero : change.start.bytes - (place + u.length) = 0 := by omega
  rw [splicedAt, splicedAt, splicedAt, hzero]
  by_cases hplace : place ≤ change.start.bytes
  · rw [spliced_append_of_within (by omega) (by omega), Nat.sub_sub]
  · have hnil : new = [] := h.place.resolve_right hplace
    have hstart : change.start.bytes - place = 0 := by omega
    rw [hnil, hstart, spliced_zero_nil, spliced_zero_nil, spliced_zero_nil, List.drop_append,
      Nat.sub_sub]

/-- Parts behind the edit keep their text. -/
theorem RelativeEdit.splicedAt_of_behind (h : change.oldEnd.bytes ≤ place) (hnew : new = [])
    (hle : change.start.bytes ≤ change.oldEnd.bytes) : change.splicedAt place new w = w := by
  have hstart : change.start.bytes - place = 0 := by omega
  have hstop : change.oldEnd.bytes - place = 0 := by omega
  rw [splicedAt, hstart, hstop, hnew, spliced_zero_nil, List.drop_zero]

/-- At the end of the text nothing changes, unless the new text is put in there. -/
theorem RelativeEdit.splicedAt_nil (h : change.PutsAt place text new)
    (hlater : new = [] ∨ place ≠ change.start.bytes ∨ change.start.bytes ≠ change.oldEnd.bytes) :
    change.splicedAt place new [] = [] := by
  have hle := h.start_le
  by_cases hnil : new = []
  · simp [hnil, splicedAt, spliced]
  · have hplace := h.place.resolve_left hnil
    have hapart := hlater.resolve_left hnil
    refine spliced_of_untouched ?_
    rw [List.length_nil]
    omega

/-- In front of a subtree that the edit is behind, nothing is left to put in. -/
theorem RelativeEdit.PutsAt.of_isBehind (h : change.PutsAt place text new) {left : Length}
    (hleft : left.bytes = place) {isFirst : Bool} {child : Subtree}
    (hbehind : isBehind left change isFirst child = true)
    (hlater : isFirst = false → new = [] ∨ place ≠ change.start.bytes ∨
      change.start.bytes ≠ change.oldEnd.bytes) : change.oldEnd.bytes ≤ place ∧ new = [] := by
  have hle := h.start_le
  simp only [isBehind, hleft, Bool.or_eq_true, Bool.and_eq_true, decide_eq_true_eq, beq_iff_eq,
    Bool.not_eq_true'] at hbehind
  rcases hbehind with hlt | ⟨⟨heq, _⟩, hnotFirst⟩
  · exact ⟨Nat.le_of_lt hlt, h.place.resolve_right (by omega)⟩
  · refine ⟨Nat.le_of_eq heq.symm, ?_⟩
    by_cases hnil : new = []
    · exact hnil
    · have hapart := (hlater hnotFirst).resolve_left hnil
      exact h.place.resolve_right (by omega)

theorem takesNew_eq_true_iff {right : Length} :
    takesNew right change = true ↔ change.start.bytes < right.bytes ∨
      right.bytes = change.start.bytes ∧ change.start.bytes = change.oldEnd.bytes := by
  simp [takesNew, RelativeEdit.isInsertion]

end SplicedAt

mutual

/-- An edited subtree is current for what its part of the text became. -/
theorem current_edit (change : RelativeEdit) (id : Nat) (t : Subtree) (new w after : List UInt8)
    (hputs : change.Puts (w ++ after) new) (h : Current table t w) :
    Current table (t.edit change id).1 (spliced change.start.bytes change.oldEnd.bytes new w) := by
  match t with
  | .mk head children =>
      have hchildren : children ≠ [] → CurrentAll table (editAmong change (id + 1) true Length.zero
          children).1 (spliced change.start.bytes change.oldEnd.bytes new w) := by
        intro hne
        exact currentAll_editAmong change (id + 1) true [] children new w after
          ⟨hputs, .inr (Nat.zero_le _)⟩ (fun _ => hne) nofun (h.currentAll_children hne)
      obtain ⟨padding, size, rfl, hpadding, hsize⟩ := h.exists_eq_append
      obtain ⟨padding', size', hspliced, hlengths⟩ := editedLengths_eq hputs
      have hheadPadding : head.padding = Length.ofList padding := hpadding
      have hheadSize : head.size = Length.ofList size := hsize
      rw [Subtree.edit, hheadPadding, hheadSize, hlengths]
      rw [hspliced] at hchildren ⊢
      refine .changed _ padding' size' rfl rfl rfl ?_
      intro hedited
      refine hchildren ?_
      rintro rfl
      exact hedited rfl

theorem currentAll_editAmong (change : RelativeEdit) (id : Nat) (isFirst : Bool)
    (done : List UInt8) (trees : List Subtree) (new w after : List UInt8)
    (hputs : change.PutsAt done.length (done ++ (w ++ after)) new)
    (hfirst : isFirst = true → trees ≠ [])
    (hlater : isFirst = false → new = [] ∨ done.length ≠ change.start.bytes ∨
      change.start.bytes ≠ change.oldEnd.bytes)
    (h : CurrentAll table trees w) :
    CurrentAll table (editAmong change id isFirst (Length.ofList done) trees).1
      (change.splicedAt done.length new w) := by
  have hle := hputs.start_le
  match trees with
  | [] =>
      cases h
      have hnotFirst : isFirst = false := Bool.eq_false_iff.2 fun heq => hfirst heq rfl
      rw [RelativeEdit.splicedAt_nil hputs (hlater hnotFirst), editAmong]
      exact .nil
  | child :: rest =>
      obtain _ | ⟨_, _, u, v, hchild, hrest⟩ := h
      have hright : Length.ofList done + child.total = Length.ofList (done ++ u) := by
        rw [hchild.total_eq, ← Length.ofList_append]
      have hlength : (done ++ u).length = done.length + u.length := List.length_append
      have htext : done ++ (u ++ v ++ after) = done ++ u ++ (v ++ after) := by
        simp only [List.append_assoc]
      rw [editAmong, hright]
      by_cases hbefore : isBefore (Length.ofList (done ++ u)) change child = true
      · rw [if_pos hbefore]
        have hlt : (Length.ofList (done ++ u)).bytes < change.start.bytes :=
          Nat.lt_of_le_of_lt (Nat.le_add_right _ _) (of_decide_eq_true hbefore)
        rw [Length.bytes_ofList, hlength] at hlt
        obtain ⟨_, happend⟩ :=
          RelativeEdit.splicedAt_append_of_before (v := v) hputs (.inl hlt)
        rw [happend, ← hlength]
        refine .cons child _ u _ hchild (currentAll_editAmong change id false (done ++ u) rest _ v
          after ⟨?_, .inr (by omega)⟩ nofun (fun _ => .inr (.inl (by omega))) hrest)
        rw [← htext]
        exact hputs.toPuts
      · rw [if_neg hbefore]
        by_cases hbehind : isBehind (Length.ofList done) change isFirst child = true
        · rw [if_pos hbehind]
          obtain ⟨hstop, hnil⟩ := hputs.of_isBehind (Length.bytes_ofList _) hbehind hlater
          rw [RelativeEdit.splicedAt_of_behind hstop hnil hle]
          exact .cons child rest u v hchild hrest
        · rw [if_neg hbehind]
          have hputsChild : (change.after (Length.ofList done)).Puts (u ++ (v ++ after)) new := by
            rw [← List.append_assoc]
            exact hputs.puts
          have hedited := current_edit (change.after (Length.ofList done)) id child new u _
            hputsChild hchild
          rw [RelativeEdit.after_start, RelativeEdit.after_oldEnd, Length.bytes_ofList] at hedited
          by_cases htakes : takesNew (Length.ofList (done ++ u)) change = true
          · simp only [if_pos htakes]
            have hwithin := takesNew_eq_true_iff.1 htakes
            rw [Length.bytes_ofList, hlength] at hwithin
            rw [RelativeEdit.splicedAt_append_of_within hputs hwithin, ← hlength]
            refine .cons _ _ _ _ hedited (currentAll_editAmong change.withoutNew _ false (done ++ u)
              rest _ v after ?_ nofun (fun _ => .inl rfl) hrest)
            rw [← htext]
            exact hputs.withoutNew _
          · simp only [if_neg htakes]
            have hbefore : done.length + u.length < change.start.bytes ∨
                done.length + u.length = change.start.bytes ∧
                  change.start.bytes ≠ change.oldEnd.bytes := by
              rw [takesNew_eq_true_iff, Length.bytes_ofList, hlength] at htakes
              omega
            obtain ⟨hkept, happend⟩ :=
              RelativeEdit.splicedAt_append_of_before (v := v) hputs hbefore
            rw [RelativeEdit.splicedAt] at hkept
            rw [hkept] at hedited
            rw [happend, ← hlength]
            refine .cons _ _ u _ hedited (currentAll_editAmong change _ false (done ++ u) rest _ v
              after ⟨?_, .inr (by omega)⟩ nofun (fun _ => .inr (by omega)) hrest)
            rw [← htext]
            exact hputs.toPuts

end

end IncrementalLR
