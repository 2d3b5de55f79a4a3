import IncrementalLR.Proofs.Parse.Spanning
import IncrementalLR.Proofs.Tree.Edits

/-!
# Parses with an old tree

What can be taken over from an old tree covers the text, as long as the tree was edited along with
it. So a parse with an old tree spans its text too. There is one exception: an old tree that was not
edited can be taken over whole, and the new root does not keep what the old one had behind its
children.
-/

namespace IncrementalLR

open Subtree (editAmong interior totalAll)

/-- The tree is current for the text: its root is over the text, or the tree was edited and what is
under its root is current. -/
structure Tree.IsCurrent (table : Table) (tree : Tree) (text : List UInt8) : Prop where
  children : ∃ covered after, text = covered ++ after ∧ CurrentAll table tree.root.children covered
  root : tree.root.flags.hasChanges = true ∨
    ∃ covered after, text = covered ++ after ∧ IsRootOver table covered after tree.root

/-- The root has nothing behind its children if it can be taken over whole. -/
def Tree.EndsWithChildren (table : Table) (tree : Tree) : Prop :=
  ∀ state, ReuseCursor.accepts table state tree.root = true →
    tree.root.total = totalAll tree.root.children

variable {table : Table} {tree : Tree} {text : List UInt8}

/-! ### Edits -/

/-- The places of an edit are the lengths of what is in front of them. -/
theorem RelativeEdit.ofInput_replace (text new : ByteArray) {start stop : Nat} (hle : start ≤ stop) :
    RelativeEdit.ofInput (InputEdit.replace text start stop new)
      = ⟨Length.ofList (text.data.toList.take start), Length.ofList (text.data.toList.take stop),
          Length.ofList (text.data.toList.take start ++ new.data.toList)⟩ := by
  have hfirst : Length.ofBytes (text.extract 0 start) = Length.ofList (text.data.toList.take start) := by
    rw [Length.ofBytes_extract, List.drop_zero]
  have hsplit : text.data.toList.take start ++ (text.data.toList.take stop).drop start
      = text.data.toList.take stop := by
    have htake := List.take_append_drop start (text.data.toList.take stop)
    rwa [List.take_take, Nat.min_eq_left hle] at htake
  calc RelativeEdit.ofInput (InputEdit.replace text start stop new)
      = ⟨Length.ofBytes (text.extract 0 start),
          Length.ofBytes (text.extract 0 start) + Length.ofBytes (text.extract start stop),
          Length.ofBytes (text.extract 0 start) + Length.ofBytes new⟩ := rfl
    _ = _ := by
        rw [hfirst, Length.ofBytes_extract, ← Length.ofList_append, hsplit, Length.ofBytes,
          ← Length.ofList_append]

/-- The edit that replaces a part of a text. -/
theorem RelativeEdit.puts_ofInput (text new : ByteArray) {start stop : Nat} (hle : start ≤ stop)
    (hstop : stop ≤ text.size) :
    let change := RelativeEdit.ofInput (InputEdit.replace text start stop new)
    change.start.bytes = start ∧ change.oldEnd.bytes = stop ∧
      change.Puts text.data.toList new.data.toList := by
  have hlength : text.data.toList.length = text.size := rfl
  have hbytes : ∀ n ≤ stop, (Length.ofList (text.data.toList.take n)).bytes = n := by
    intro n hn
    rw [Length.bytes_ofList, List.length_take]
    omega
  have hstartBytes := hbytes start hle
  have holdBytes := hbytes stop (Nat.le_refl stop)
  rw [ofInput_replace text new hle]
  refine ⟨hstartBytes, holdBytes, ?_, ?_, ?_, ?_⟩
  · simp only [hstartBytes, holdBytes]
    exact hle
  · simp only [hstartBytes]
  · simp only [holdBytes]
  · simp only [hstartBytes]

theorem InputEdit.toList_applyTo (text new : ByteArray) {start stop : Nat} (hle : start ≤ stop)
    (hstop : stop ≤ text.size) :
    ((InputEdit.replace text start stop new).applyTo text new).data.toList
      = spliced start stop new.data.toList text.data.toList := by
  obtain ⟨hstart, hold, _⟩ := RelativeEdit.puts_ofInput text new hle hstop
  have hstartByte : (InputEdit.replace text start stop new).startByte = start := hstart
  have holdEnd : (InputEdit.replace text start stop new).oldEndByte = stop := hold
  have hlength : text.data.toList.length = text.size := rfl
  have htouched : start < text.data.toList.length ∨
      start = text.data.toList.length ∧ stop = text.data.toList.length := by
    omega
  have hdrop : ((text.data.toList.take text.size).drop stop) = text.data.toList.drop stop := by
    rw [List.take_of_length_le (Nat.le_of_eq hlength)]
  rw [applyTo, hstartByte, holdEnd, spliced, if_pos htouched]
  simp only [ByteArray.data_append, ByteArray.data_extract, Array.toList_append,
    Array.toList_extract, List.extract_eq_take_drop, ← List.drop_take]
  rw [hdrop, List.drop_zero]

theorem Tree.IsCurrent.edit {text new : ByteArray} {start stop : Nat}
    (h : tree.IsCurrent table text.data.toList) (hle : start ≤ stop) (hstop : stop ≤ text.size)
    (id : Nat) :
    (tree.edit (InputEdit.replace text start stop new) id).1.IsCurrent table
      ((InputEdit.replace text start stop new).applyTo text new).data.toList := by
  obtain ⟨covered, after, htext, hchildren⟩ := h.children
  obtain ⟨hstart, hold, hputs⟩ := RelativeEdit.puts_ofInput text new hle hstop
  rw [InputEdit.toList_applyTo text new hle hstop, htext]
  generalize InputEdit.replace text start stop new = replaced at hstart hold hputs ⊢
  generalize hchange : RelativeEdit.ofInput replaced = change at hstart hold hputs
  have hroot : (tree.edit replaced id).1.root.children
        = (editAmong change (id + 1) true Length.zero tree.root.children).1 ∧
      (tree.edit replaced id).1.root.flags.hasChanges = true := by
    rw [← hchange]
    cases hroot : tree.root with
    | mk head children =>
        rw [Tree.edit, hroot]
        exact ⟨rfl, rfl⟩
  refine ⟨?_, .inl hroot.2⟩
  rw [hroot.1]
  by_cases hnil : tree.root.children = []
  · rw [hnil]
    exact ⟨[], _, rfl, .nil⟩
  · have hplace : change.PutsAt 0 (covered ++ after) new.data.toList :=
      ⟨htext ▸ hputs, .inr (Nat.zero_le _)⟩
    have hall := currentAll_editAmong change (id + 1) true [] tree.root.children
      new.data.toList covered after hplace (fun _ => hnil) (by simp) hchildren
    have hspliced : spliced start stop new.data.toList (covered ++ after)
        = change.splicedAt 0 new.data.toList (covered ++ after) := by
      rw [RelativeEdit.splicedAt, hstart, hold]
      rfl
    rw [hspliced]
    by_cases hwithin : change.start.bytes < 0 + covered.length ∨
        0 + covered.length = change.start.bytes ∧ change.start.bytes = change.oldEnd.bytes
    · exact ⟨_, _, RelativeEdit.splicedAt_append_of_within hplace hwithin, hall⟩
    · obtain ⟨hkept, happend⟩ := RelativeEdit.splicedAt_append_of_before (u := covered) (v := after)
        hplace (by omega)
      rw [List.length_nil, hkept] at hall
      exact ⟨_, _, happend, hall⟩

/-- An edited tree is not taken over whole. -/
theorem Tree.endsWithChildren_edit (table : Table) (tree : Tree) (edit : InputEdit) (id : Nat) :
    (tree.edit edit id).1.EndsWithChildren table := by
  intro state haccepts
  have hchanged : (tree.edit edit id).1.root.flags.hasChanges = true := by
    cases hroot : tree.root with
    | mk head children =>
        rw [Tree.edit, hroot]
        rfl
  rw [(ParseSetting.intact_of_accepts haccepts).1] at hchanged
  cases hchanged

/-! ### The cursor -/

/-- What is left of an old tree is current for the text from the place of the cursor on. -/
def ReuseCursor.Tracks (c : ReuseCursor) (table : Table) (text : List UInt8) : Prop :=
  c.rest = [] ∨ ∃ done w after, text = done ++ w ++ after ∧ c.offset = done.length ∧
    CurrentAll table c.rest w

theorem ReuseCursor.tracks_advance {c : ReuseCursor} (h : c.Tracks table text) :
    c.advance.Tracks table text := by
  rcases h with hnil | ⟨done, w, after, htext, hoffset, hall⟩
  · rw [advance_of_rest_eq_nil hnil]
    exact .inl hnil
  · cases hcursor : c.rest with
    | nil =>
        rw [advance_of_rest_eq_nil hcursor]
        exact .inl hcursor
    | cons t rest =>
        have hrest : c.advance.rest = rest := by rw [rest_advance, hcursor, List.tail_cons]
        rcases offset_advance hcursor with hnil | hadvance
        · exact .inl (hrest.trans hnil)
        · rw [hcursor] at hall
          obtain _ | ⟨_, _, u, v, ht, hall⟩ := hall
          refine .inr ⟨done ++ u, v, after, ?_, ?_, hrest ▸ hall⟩
          · rw [htext]
            simp only [List.append_assoc]
          · rw [hadvance, List.length_append, ← ht.bytes_total, ← hoffset]

theorem ReuseCursor.tracks_stepInto {c : ReuseCursor} (h : c.Tracks table text) :
    c.stepInto.Tracks table text := by
  rcases c.stepInto_cases with ⟨_, heq⟩ | ⟨t, rest, _, _, heq⟩ | ⟨t, rest, hcursor, hne, hrest, hoffset⟩
  · rwa [heq]
  · rw [heq]
    exact tracks_advance h
  · rcases h with hnil | ⟨done, w, after, htext, hdone, hall⟩
    · rw [hcursor] at hnil
      cases hnil
    · rw [hcursor] at hall
      obtain _ | ⟨_, _, u, v, ht, hall⟩ := hall
      refine .inr ⟨done, u ++ v, after, htext, hoffset.trans hdone, ?_⟩
      rw [hrest]
      exact (ht.currentAll_children hne).append hall

theorem ReuseCursor.tracks_of_reaches {root : Subtree} {covered after : List UInt8}
    (htext : text = covered ++ after) (hchildren : CurrentAll table root.children covered)
    {c : ReuseCursor} (h : (ReuseCursor.ofRoot root).Reaches c) :
    c = ReuseCursor.ofRoot root ∨ c.Tracks table text := by
  induction h with
  | refl => exact .inl rfl
  | advance d _ ih =>
      rcases ih with rfl | htracks
      · exact .inr (.inl rfl)
      · exact .inr (tracks_advance htracks)
  | stepInto d _ ih =>
      rcases ih with rfl | htracks
      · refine .inr ?_
        rcases (ofRoot root).stepInto_cases with
          ⟨hnil, _⟩ | ⟨t, rest, _, _, heq⟩ | ⟨t, rest, hcursor, _, hrest, hoffset⟩
        · cases hnil
        · rw [heq]
          exact .inl rfl
        · cases hcursor
          refine .inr ⟨[], covered, after, htext, hoffset, ?_⟩
          rw [hrest]
          simpa [behind] using hchildren
      · exact .inr (tracks_stepInto htracks)

/-- What is taken over from a tree that is current covers the text at its place. -/
theorem Tree.IsCurrent.agrees (h : tree.IsCurrent table text) (hwhole : tree.EndsWithChildren table) :
    (ReuseCursor.ofRoot tree.root).Agrees table text := by
  obtain ⟨covered, after, htext, hchildren⟩ := h.children
  intro cursor t state hreaches hhead haccepts done rest hdone hoffset
  obtain ⟨hflag, _, _⟩ := ParseSetting.intact_of_accepts haccepts
  rcases ReuseCursor.tracks_of_reaches htext hchildren hreaches with rfl | hnil | htracks
  · cases hhead
    have hnil : done = [] := List.length_eq_zero_iff.1 hoffset.symm
    rw [hnil, List.nil_append] at hdone
    rcases h.root with hchanged | ⟨covered', after', htext', hroot⟩
    · rw [hflag] at hchanged
      cases hchanged
    · have hcovers := hroot.covers_of_total (hwhole state haccepts)
      rw [← htext', hdone] at hcovers
      exact ⟨rest, [], (List.append_nil rest).symm, hcovers⟩
  · rw [hnil] at hhead
    cases hhead
  · obtain ⟨done', w, after', htext', hoffset', hrest⟩ := htracks
    cases hcursor : cursor.rest with
    | nil =>
        rw [hcursor] at hhead
        cases hhead
    | cons t' others =>
        rw [hcursor] at hhead hrest
        cases hhead
        obtain _ | ⟨_, _, u, v, ht, _⟩ := hrest
        refine ⟨u, v ++ after', ?_, ht.covers hflag⟩
        have hsame : done ++ rest = done' ++ (u ++ (v ++ after')) := by
          rw [← hdone, htext']
          simp only [List.append_assoc]
        exact (List.append_inj hsame (hoffset.symm.trans hoffset')).2

/-! ### Parses -/

/-- The trees of a text that parses and edits lead to. An old tree that can be taken over whole has
nothing behind its children. -/
inductive Tree.Obtained (l : Language) : ByteArray → Tree → Prop
  | parse (p : Parser) (text : ByteArray) (id : Nat) (hp : p.language = l) :
      Obtained l text (p.parse text none id).tree
  | reparse (p : Parser) (text : ByteArray) (old : Tree) (id : Nat) (hp : p.language = l)
      (hold : Obtained l text old) (hwhole : old.EndsWithChildren l.table) :
      Obtained l text (p.parse text (some old) id).tree
  | edit (text new : ByteArray) (old : Tree) (start stop id : Nat) (hold : Obtained l text old)
      (hle : start ≤ stop) (hstop : stop ≤ text.size) :
      Obtained l ((InputEdit.replace text start stop new).applyTo text new)
        (old.edit (InputEdit.replace text start stop new) id).1

variable {d : GrammarDef} {policy : ConflictPolicy} {l : Language} {scanner : Option ExternalScanner}
  {number : Nat} {p : Parser}

theorem Parser.agrees_cursor? {old : Tree} (h : old.IsCurrent table text)
    (hwhole : old.EndsWithChildren table) :
    ∀ start ∈ p.cursor? (some old), start.Agrees table text := by
  refine Parser.forall_cursor? fun tree htree _ => ?_
  cases htree
  exact h.agrees hwhole

/-- Trees that parses and edits lead to are current for their text. -/
theorem Tree.Obtained.isCurrent (hl : Language.load d policy = .ok l) (hnode : l.table.StartIsNode)
    (hscanner : ∀ x ∈ scanner, x.ReadsForward) {text : ByteArray} {tree : Tree}
    (h : Tree.Obtained { l with scanner := scanner, id := number } text tree) :
    tree.IsCurrent l.table text.data.toList := by
  have hparse : ∀ (p : Parser) (text : ByteArray) (old : Option Tree) (id : Nat),
      p.language = { l with scanner := scanner, id := number } →
      (∀ start ∈ p.cursor? old, start.Agrees l.table text.data.toList) →
      (p.parse text old id).tree.IsCurrent l.table text.data.toList := by
    intro p text old id hp hold
    have htable := Parser.table_setting hp text
    obtain ⟨_, covered, after, htext, hroot, _⟩ := ParseSetting.isRootOver_of_ends
      (Parser.setting_wellFormed hl hscanner hp text) (by rw [htable]; exact hnode)
      (by rw [htable]; exact hold) (p.ends_parse text old id)
    rw [htable] at hroot
    exact ⟨⟨covered, after, htext, hroot.coversAll_children.currentAll⟩,
      .inr ⟨covered, after, htext, hroot⟩⟩
  induction h with
  | parse p text id hp =>
      refine hparse p text none id hp ?_
      intro start hnone
      cases hnone
  | reparse p text old id hp _ hwhole ih =>
      exact hparse p text (some old) id hp (Parser.agrees_cursor? ih hwhole)
  | edit text new old start stop id _ hle hstop ih => exact ih.edit hle hstop id

/-- What a parse takes over from an old tree covers the text at its place. -/
theorem Parser.agrees_of_obtained (hl : Language.load d policy = .ok l)
    (hnode : l.table.StartIsNode) (hscanner : ∀ x ∈ scanner, x.ReadsForward)
    (hp : p.language = { l with scanner := scanner, id := number }) {text : ByteArray}
    {old : Option Tree}
    (hold : ∀ tree ∈ old, Tree.Obtained p.language text tree ∧ tree.EndsWithChildren l.table) :
    ∀ start ∈ p.cursor? old, start.Agrees l.table text.data.toList := by
  cases old with
  | none => exact fun _ h => absurd h (Option.not_mem_none _)
  | some tree =>
      obtain ⟨hobtained, hwhole⟩ := hold tree rfl
      rw [hp] at hobtained
      exact Parser.agrees_cursor? (hobtained.isCurrent hl hnode hscanner) hwhole

/-- A parse with an old tree that was edited along with the text ends with a tree that spans it. -/
theorem Parser.parse_spans_of_obtained (hl : Language.load d policy = .ok l)
    (hnode : l.table.StartIsNode) (hscanner : ∀ x ∈ scanner, x.ReadsForward)
    (hp : p.language = { l with scanner := scanner, id := number }) {text : ByteArray} {old : Tree}
    (hold : Tree.Obtained p.language text old) (hwhole : old.EndsWithChildren l.table) (id : Nat) :
    (p.parse text (some old) id).tree.language = p.language ∧
      (p.parse text (some old) id).tree.Spans text := by
  have htable : (p.setting text).table = l.table := by
    rw [ParseSetting.table, show (p.setting text).language = _ from hp]
  have hsetting := Parser.setting_wellFormed hl hscanner hp text
  rw [hp] at hold
  have hcurrent := hold.isCurrent hl hnode hscanner
  obtain ⟨hlanguage, hspans, _⟩ := ParseSetting.spans_of_ends hsetting (by rw [htable]; exact hnode)
    (by rw [htable]; exact Parser.agrees_cursor? hcurrent hwhole) (p.ends_parse text (some old) id)
  exact ⟨hlanguage, hspans⟩

/-- A text is spanned after an edit, where the old tree is that of the text before. -/
theorem parse_spans_of_obtained_optionalToken :
    ∃ l, Language.load .optionalToken .strict = .ok l ∧
      let p := Parser.ofLanguage { l with scanner := none, id := 1 }
      let edit := InputEdit.replace "x".toUTF8 0 1 "\n".toUTF8
      let old := (p.parse "x".toUTF8 none 0).tree.edit edit 8
      (p.parse (edit.applyTo "x".toUTF8 "\n".toUTF8) (some old.1) 16).tree.Spans
        (edit.applyTo "x".toUTF8 "\n".toUTF8) := by
  obtain ⟨l, hl, hstart⟩ := exists_load_optionalToken
  have hnone : ∀ x ∈ (none : Option ExternalScanner), x.ReadsForward := by
    intro x hx
    cases hx
  have hfresh : Tree.Obtained { l with scanner := none, id := 1 } "x".toUTF8
      ((Parser.ofLanguage { l with scanner := none, id := 1 }).parse "x".toUTF8 none 0).tree :=
    .parse _ _ _ rfl
  have hedited := hfresh.edit "x".toUTF8 "\n".toUTF8 _ 0 1 8 (by decide) (by decide)
  exact ⟨l, hl, (Parser.parse_spans_of_obtained hl hstart hnone rfl hedited
    (Tree.endsWithChildren_edit _ _ _ _) 16).2⟩

end IncrementalLR
