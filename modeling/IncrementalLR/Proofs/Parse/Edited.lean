import IncrementalLR.Proofs.Parse.Reparse
import IncrementalLR.Proofs.Tree.Kept

/-!
# Trees of parses after edits

A tree that a parse made is edited along with its text, any number of times. It is as long as the
text then, and what is not marked in it is a subtree of the tree that was parsed: it covers the same
bytes, and all that was looked at for it has stayed.
-/

namespace IncrementalLR

open Subtree (editAmong nodesAt nodesAmong totalAll)

/-- One tree and text become another by edits that each replace a part of the text. -/
inductive Tree.EditsTo (tree : Tree) (text : ByteArray) : Tree → ByteArray → Prop
  | refl : EditsTo tree text tree text
  | edit (edited : Tree) (text' new : ByteArray) (start stop id : Nat)
      (h : EditsTo tree text edited text') (hle : start ≤ stop) (hstop : stop ≤ text'.size) :
      EditsTo tree text (edited.edit (InputEdit.replace text' start stop new) id).1
        ((InputEdit.replace text' start stop new).applyTo text' new)

/-- The same subtree in two texts, which agree in all that was looked at for it. -/
structure Placed.SameIn (text text' : ByteArray) (q p : Placed) : Prop where
  subtree : p.subtree = q.subtree
  /-- as far as the text was looked at behind the subtree; there may be no byte any more -/
  bytes : ∀ k ≤ p.subtree.total.bytes + p.subtree.head.lookaheadBytes,
    text'.data.toList[p.offset.bytes + k]? = text.data.toList[q.offset.bytes + k]?

/-- The tree was edited along with its text. -/
structure Tree.IsEditOf (original : Tree) (text : ByteArray) (edited : Tree) (text' : ByteArray) :
    Prop where
  padding : edited.root.padding = Length.zero
  size : edited.root.size = Length.ofBytes text'
  /-- a node under the root is as long as its children together -/
  totals : ∀ p ∈ nodesAmong Length.zero edited.root.children, p.subtree.children ≠ [] →
    p.subtree.total = totalAll p.subtree.children
  /-- what is over a marked node is marked -/
  marks : ∀ p ∈ nodesAt Length.zero edited.root, ∀ q ∈ nodesAmong p.offset p.subtree.children,
    q.subtree.flags.hasChanges = true → p.subtree.flags.hasChanges = true
  /-- what is not marked was there before, and stands at places of the new text -/
  kept : ∀ p ∈ nodesAt Length.zero edited.root, p.subtree.flags.hasChanges = false →
    (∃ q ∈ nodesAt Length.zero original.root, q.SameIn text text' p) ∧
      p.start.IsPlaceIn text' ∧ p.stop.IsPlaceIn text'

variable {table : Table} {tree original edited : Tree} {text text' new : ByteArray}
  {start stop : Nat}

/-! ### One edit -/

/-- What is kept of an edit of the text is at the same place of it or behind the new text. -/
theorem RelativeEdit.Keeps.sameIn (hle : start ≤ stop) (hstop : stop ≤ text.size) {q p : Placed}
    (h : (RelativeEdit.ofInput (InputEdit.replace text start stop new)).Keeps q p) :
    q.SameIn text ((InputEdit.replace text start stop new).applyTo text new) p := by
  obtain ⟨hstart, hold, hputs⟩ := RelativeEdit.puts_ofInput text new hle hstop
  have hnewEnd := hputs.bytes_newEnd
  have hlength : text.data.toList.length = text.size := rfl
  obtain ⟨hsubtree, hplace⟩ := h
  rw [hstart, hold, hnewEnd, hstart] at hplace
  refine ⟨hsubtree, ?_⟩
  intro k hk
  rw [InputEdit.toList_applyTo text new hle hstop, spliced, if_pos (by omega), List.append_assoc]
  rcases hplace with ⟨hoffset, hreach⟩ | ⟨hbehind, hoffset⟩
  · rw [Placed.reach_eq, ← hsubtree] at hreach
    have hfront : p.offset.bytes + k < (text.data.toList.take start).length := by
      rw [List.length_take]
      omega
    rw [List.getElem?_append_left hfront, List.getElem?_take_of_lt (by omega), hoffset]
  · have hfront : (text.data.toList.take start).length = start := by
      rw [List.length_take]
      omega
    rw [List.getElem?_append_right (by omega), List.getElem?_append_right (by omega), hfront,
      List.getElem?_drop]
    congr 1
    omega

theorem Placed.SameIn.trans {text'' : ByteArray} {q r p : Placed} (h : q.SameIn text text' r)
    (h' : r.SameIn text' text'' p) : q.SameIn text text'' p := by
  refine ⟨h'.subtree.trans h.subtree, ?_⟩
  intro k hk
  rw [h'.bytes k hk, h.bytes k (by rw [← h'.subtree]; exact hk)]

/-- The children of the root after an edit. -/
theorem Tree.children_edit (tree : Tree) (edit : InputEdit) (id : Nat) :
    (tree.edit edit id).1.root.children
      = (editAmong (RelativeEdit.ofInput edit) (id + 1) true Length.zero tree.root.children).1 := by
  cases hroot : tree.root with
  | mk head children =>
      rw [Tree.edit, hroot]
      rfl

theorem Tree.hasChanges_edit (tree : Tree) (edit : InputEdit) (id : Nat) :
    (tree.edit edit id).1.root.flags.hasChanges = true :=
  Subtree.hasChanges_edit (RelativeEdit.ofInput edit) id tree.root

theorem Tree.total_edit (new : ByteArray) (id : Nat) (hle : start ≤ stop) (hstop : stop ≤ text.size)
    (htotal : tree.root.total = Length.ofBytes text) :
    let edit := InputEdit.replace text start stop new
    (tree.edit edit id).1.root.padding = Length.zero ∧
      (tree.edit edit id).1.root.size = Length.ofBytes (edit.applyTo text new) := by
  have hlength : text.data.toList.length = text.size := rfl
  have hrest := Length.monus_ofList_take text.data.toList [] stop
  rw [List.append_nil] at hrest
  refine ⟨rfl, ?_⟩
  calc (RelativeEdit.ofInput (InputEdit.replace text start stop new)).newEnd +
        tree.root.total.monus (RelativeEdit.ofInput (InputEdit.replace text start stop new)).oldEnd
      = Length.ofList (text.data.toList.take start ++ new.data.toList) +
          Length.ofList (text.data.toList.drop stop) := by
        rw [RelativeEdit.ofInput_replace text new hle, htotal, Length.ofBytes, hrest]
    _ = Length.ofBytes ((InputEdit.replace text start stop new).applyTo text new) := by
        rw [Length.ofBytes, InputEdit.toList_applyTo text new hle hstop, spliced,
          if_pos (by omega), Length.ofList_append (_ ++ _)]

/-! ### All edits -/

/-- What every edit preserves. -/
structure Tree.Tracks (table : Table) (original : Tree) (text : ByteArray) (edited : Tree)
    (text' : ByteArray) : Prop where
  current : edited.IsCurrent table text'.data.toList
  padding : edited.root.padding = Length.zero
  size : edited.root.size = Length.ofBytes text'
  encloses : ∀ t ∈ edited.root.children, t.Encloses
  kept : ∀ p ∈ nodesAt Length.zero edited.root, p.subtree.flags.hasChanges = false →
    ∃ q ∈ nodesAt Length.zero original.root, q.SameIn text text' p

theorem Tree.Tracks.edit (h : original.Tracks table text edited text') (new : ByteArray)
    (hle : start ≤ stop) (hstop : stop ≤ text'.size) (id : Nat) :
    original.Tracks table text (edited.edit (InputEdit.replace text' start stop new) id).1
      ((InputEdit.replace text' start stop new).applyTo text' new) := by
  have htotal : edited.root.total = Length.ofBytes text' := by
    rw [Subtree.total, h.padding, h.size, Length.zero_add]
  obtain ⟨hpadding, hsize⟩ := Tree.total_edit new id hle hstop htotal
  obtain ⟨hstart, hold, hputs⟩ := RelativeEdit.puts_ofInput text' new hle hstop
  have hnew := Nat.le.intro hputs.bytes_newEnd.symm
  have hstage := (RelativeEdit.ofInput (InputEdit.replace text' start stop new)).stage_start
  refine ⟨h.current.edit hle hstop id, hpadding, hsize, ?_, ?_⟩
  · rw [Tree.children_edit]
    exact encloses_editAmong (id + 1) _ _ hputs.start_le hnew hstage h.encloses
  · intro p hp hflag
    rw [nodesAt_eq] at hp
    cases hp with
    | head =>
        rw [Tree.hasChanges_edit] at hflag
        cases hflag
    | tail _ hp =>
        rw [Tree.children_edit] at hp
        obtain ⟨r, hr, hkeeps⟩ :=
          keeps_editAmong (id + 1) _ _ hputs.start_le hnew hstage h.encloses hp hflag
        have hroot : r ∈ nodesAt Length.zero edited.root := by
          rw [nodesAt_eq]
          exact List.mem_cons_of_mem _ hr
        obtain ⟨q, hq, hsame⟩ := h.kept r hroot (hkeeps.subtree ▸ hflag)
        exact ⟨q, hq, hsame.trans (hkeeps.sameIn hle hstop)⟩

theorem Tree.EditsTo.tracks (h : original.EditsTo text edited text')
    (horiginal : original.Tracks table text original text) :
    original.Tracks table text edited text' := by
  induction h with
  | refl => exact horiginal
  | edit edited text' new start stop id _ hle hstop ih => exact ih.edit new hle hstop id

/-- A root over a text is where edits may start. -/
theorem Tree.tracks_of_isRootOver {covered after : List UInt8}
    (htext : text.data.toList = covered ++ after)
    (h : IsRootOver table covered after original.root) :
    original.Tracks table text original text := by
  have hchildren := h.coversAll_children
  have hroot : original.root.padding = Length.zero ∧ original.root.size = Length.ofBytes text := by
    rw [Length.ofBytes, htext]
    cases hroot : original.root with
    | mk head children =>
        rw [hroot] at h
        cases h
        exact ⟨rfl, rfl⟩
  refine ⟨⟨⟨covered, after, htext, hchildren.currentAll⟩, .inr ⟨covered, after, htext, h⟩⟩, hroot.1,
    hroot.2, hchildren.encloses, ?_⟩
  intro p hp _
  exact ⟨p, hp, rfl, fun _ _ => rfl⟩

theorem Tree.Tracks.isEditOf (h : original.Tracks table text edited text') :
    original.IsEditOf text edited text' := by
  obtain ⟨covered, after, htext, hchildren⟩ := h.current.children
  have hnodes : ∀ p ∈ nodesAmong Length.zero edited.root.children, ∃ front part,
      p.offset = Length.ofList front ∧ Current table p.subtree part ∧
        front ++ part <+: text'.data.toList := by
    intro p hp
    obtain ⟨front, part, hoffset, hcurrent, hinitial⟩ := hchildren.of_mem_nodesAmong [] hp
    refine ⟨front, part, hoffset, hcurrent, hinitial.trans ?_⟩
    rw [htext]
    exact List.prefix_append _ _
  have hunmarked : edited.root.flags.hasChanges = false → ∃ covered after,
      text'.data.toList = covered ++ after ∧ IsRootOver table covered after edited.root := by
    intro hflag
    refine h.current.root.resolve_left ?_
    rw [hflag]
    exact Bool.false_ne_true
  have hcovers : ∀ p ∈ nodesAmong Length.zero edited.root.children,
      p.subtree.flags.hasChanges = false → ∃ front part, p.offset = Length.ofList front ∧
        Covers table p.subtree part ∧ front ++ part <+: text'.data.toList := by
    intro p hp hflag
    obtain ⟨front, part, hoffset, hcurrent, hinitial⟩ := hnodes p hp
    exact ⟨front, part, hoffset, hcurrent.covers hflag, hinitial⟩
  refine ⟨h.padding, h.size, ?_, ?_, ?_⟩
  · intro p hp hne
    obtain ⟨_, part, _, hcurrent, _⟩ := hnodes p hp
    rw [hcurrent.total_eq, (hcurrent.currentAll_children hne).totalAll_eq]
  · intro p hp q hq hmarked
    by_contra hflag
    have hflag := Bool.eq_false_of_not_eq_true hflag
    have hcoversQ : ∃ part, Covers table q.subtree part := by
      rw [nodesAt_eq] at hp
      cases hp with
      | head =>
          obtain ⟨covered', after', _, hroot⟩ := hunmarked hflag
          obtain ⟨_, part, _, hq, _⟩ := hroot.coversAll_children.of_mem_nodesAmong [] hq
          exact ⟨part, hq⟩
      | tail _ hp =>
          obtain ⟨front, part, hoffset, hp, _⟩ := hcovers p hp hflag
          rw [hoffset] at hq
          have hbelow : q ∈ nodesAt (Length.ofList front) p.subtree := by
            rw [nodesAt_eq]
            exact List.mem_cons_of_mem _ hq
          obtain ⟨_, part', _, hq, _⟩ := hp.of_mem_nodesAt front hbelow
          exact ⟨part', hq⟩
    obtain ⟨part, hq⟩ := hcoversQ
    rw [hq.hasChanges_eq_false] at hmarked
    cases hmarked
  · intro p hp hflag
    refine ⟨h.kept p hp hflag, ?_⟩
    rw [nodesAt_eq] at hp
    cases hp with
    | head => exact Subtree.isPlaceIn_of_size h.padding h.size
    | tail _ hp =>
        obtain ⟨front, part, hoffset, hp, hinitial⟩ := hcovers p hp hflag
        exact hp.isPlaceIn hoffset hinitial

/-! ### Parses -/

variable {d : GrammarDef} {policy : ConflictPolicy} {l : Language} {scanner : Option ExternalScanner}
  {number : Nat} {p : Parser} {old : Option Tree}

/-- The tree of a parse, edited along with its text, is as long as the text, and what is not marked in
it stands for the same text as before. -/
theorem Parser.isEditOf_parse (hl : Language.load d policy = .ok l) (hnode : l.table.StartIsNode)
    (hscanner : ∀ x ∈ scanner, x.ReadsForward)
    (hp : p.language = { l with scanner := scanner, id := number })
    (hold : ∀ tree ∈ old, Tree.Obtained p.language text tree ∧ tree.EndsWithChildren l.table)
    (id : Nat) (hedits : (p.parse text old id).tree.EditsTo text edited text') :
    (p.parse text old id).tree.IsEditOf text edited text' := by
  have htable : (p.setting text).table = l.table := by
    rw [ParseSetting.table, show (p.setting text).language = _ from hp]
  have hagrees := Parser.agrees_of_obtained hl hnode hscanner hp hold
  obtain ⟨_, covered, after, htext, hroot, _⟩ := ParseSetting.isRootOver_of_ends
    (Parser.setting_wellFormed hl hscanner hp text) (by rw [htable]; exact hnode)
    (by rw [htable]; exact hagrees) (p.ends_parse text old id)
  exact (hedits.tracks (Tree.tracks_of_isRootOver htext hroot)).isEditOf

/-- A text is replaced and put back, after a parse that took over what it could from an old tree. -/
theorem isEditOf_parse_optionalToken :
    ∃ l, Language.load .optionalToken .strict = .ok l ∧
      let p := Parser.ofLanguage { l with scanner := none, id := 1 }
      let away := InputEdit.replace "x".toUTF8 0 1 "\n".toUTF8
      let text := away.applyTo "x".toUTF8 "\n".toUTF8
      let tree := (p.parse text (some ((p.parse "x".toUTF8 none 0).tree.edit away 8).1) 16).tree
      let back := InputEdit.replace text 0 1 "x".toUTF8
      tree.IsEditOf text (tree.edit back 24).1 (back.applyTo text "x".toUTF8) := by
  obtain ⟨l, hl, hstart⟩ := exists_load_optionalToken
  have hnone : ∀ x ∈ (none : Option ExternalScanner), x.ReadsForward := by
    intro x hx
    cases hx
  have hfresh : Tree.Obtained { l with scanner := none, id := 1 } "x".toUTF8
      ((Parser.ofLanguage { l with scanner := none, id := 1 }).parse "x".toUTF8 none 0).tree :=
    .parse _ _ _ rfl
  have hedited := hfresh.edit "x".toUTF8 "\n".toUTF8 _ 0 1 8 (by decide) (by decide)
  refine ⟨l, hl, Parser.isEditOf_parse hl hstart hnone rfl ?_ 16
    (.edit _ _ _ 0 1 24 .refl (by decide) (by decide))⟩
  intro tree htree
  cases htree
  exact ⟨hedited, Tree.endsWithChildren_edit _ _ _ _⟩

end IncrementalLR
