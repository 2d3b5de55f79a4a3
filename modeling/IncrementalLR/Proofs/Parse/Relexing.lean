import IncrementalLR.Proofs.Lexer.Lookahead
import IncrementalLR.Proofs.Parse.Edited
import IncrementalLR.Proofs.Tree.Leaves

/-!
# Tokens of old trees

A token that is taken over from an old tree is the one that the lexer gives at its place in the new
text, so taking it over only saves time. A parse puts leaves into its tree where it lexed them. Edits
leave those alone for which they did not touch anything that was looked at, and what was not looked
at does not decide a token.
-/

namespace IncrementalLR

open Subtree (leavesAll nodesAt nodesAmong totalAll editAmong)

/-- The token that a leaf was made of. -/
def Subtree.token (t : Subtree) : Lexed :=
  ⟨t.symbol, t.padding, t.size, t.head.lookaheadBytes, t.head.lexMode⟩

/-- The lexer gives the token of a leaf at a place, unless the leaf is empty or the token was lexed
as an error. -/
def Language.Relexes (l : Language) (text : ByteArray) (place : Nat) (leaf : Subtree) : Prop :=
  leaf.size.bytes ≠ 0 → leaf.head.lexMode ≠ LexMode.error →
    l.lex text place leaf.head.lexMode = leaf.token

/-- So it is with leaves one behind the other. -/
def Language.RelexesAll (l : Language) (text : ByteArray) : Nat → List Subtree → Prop
  | _, [] => True
  | place, leaf :: rest =>
    l.Relexes text place leaf ∧ RelexesAll l text (place + leaf.total.bytes) rest

/-- The unmarked leaves of the tree are lexed again to what they are. No subtree was looked at
beyond what the subtree over it was looked at. -/
structure Tree.IsRelexed (l : Language) (text : ByteArray) (tree : Tree) : Prop where
  encloses : ∀ t ∈ tree.root.children, t.Encloses
  leaves : ∀ p ∈ leavesOf (nodesAmong Length.zero tree.root.children),
    p.subtree.flags.hasChanges = false → l.Relexes text p.offset.bytes p.subtree

variable {l : Language} {table : Table} {text text' : ByteArray} {tree : Tree} {t : Subtree}
  {trees : List Subtree} {place : Nat}

/-! ### Tokens -/

namespace Language

/-- A leaf is lexed again where it was lexed. -/
theorem relexes_ofToken (l : Language) (table : Table) (id : Nat) (text : ByteArray) (place : Nat)
    (mode : LexMode) : l.Relexes text place (Subtree.ofToken table id (l.lex text place mode)) := by
  intro _ hmode
  have hkept : (l.lex text place mode).mode = mode :=
    (l.lexer.mode_lex text place mode l.scanner).resolve_right hmode
  exact congrArg (l.lex text place) hkept

theorem relexes_of_empty (l : Language) (text : ByteArray) (place : Nat) {leaf : Subtree}
    (h : leaf.size.bytes = 0) : l.Relexes text place leaf :=
  fun hne => absurd h hne

theorem relexes_of_error (l : Language) (text : ByteArray) (place : Nat) {leaf : Subtree}
    (h : leaf.head.lexMode = LexMode.error) : l.Relexes text place leaf :=
  fun _ hne => absurd h hne

theorem relexesAll_append_iff {leaves rest : List Subtree} :
    l.RelexesAll text place (leaves ++ rest) ↔
      l.RelexesAll text place leaves ∧
        l.RelexesAll text (place + (totalAll leaves).bytes) rest := by
  induction leaves generalizing place with
  | nil => exact (and_iff_right trivial).symm
  | cons leaf leaves ih =>
      rw [List.cons_append, RelexesAll, RelexesAll, ih, totalAll, Length.bytes_add, and_assoc,
        ← Nat.add_assoc]

theorem relexesAll_singleton_iff : l.RelexesAll text place [t] ↔ l.Relexes text place t :=
  and_iff_left trivial

/-- Leaves that stand one behind the other are lexed again at their own places. -/
theorem relexesAll_iff_of_adjacent {start stop : Length} {ps : List Placed}
    (h : Adjacent start ps stop) :
    l.RelexesAll text start.bytes (ps.map (·.subtree)) ↔
      ∀ p ∈ ps, l.Relexes text p.offset.bytes p.subtree := by
  induction h with
  | nil => exact iff_of_true trivial (by simp)
  | cons p rest stop _ ih =>
      rw [List.map_cons, RelexesAll, List.forall_mem_cons, ← ih]
      rfl

end Language

/-- What is the same in two texts, with all that was looked at for it, is lexed alike. -/
theorem Placed.SameIn.relexes {q p : Placed} (h : q.SameIn text text' p)
    (hforward : ∀ x ∈ l.scanner, x.ReadsForward) (hlocal : ∀ x ∈ l.scanner, x.IsLocal)
    (hq : l.Relexes text q.offset.bytes q.subtree) :
    l.Relexes text' p.offset.bytes p.subtree := by
  obtain ⟨hsubtree, hbytes⟩ := h
  rw [hsubtree] at hbytes ⊢
  intro hsize hmode
  have htoken := hq hsize hmode
  rw [Language.lex] at htoken ⊢
  rw [← htoken]
  refine Lexer.lex_eq_of_readsAlike hforward hlocal (fun _ => ?_) ?_
  · rw [htoken]
    exact hmode
  · rw [htoken]
    intro i hi
    rw [getElem?_eq_toList, getElem?_eq_toList]
    exact (hbytes i hi).symm

/-! ### Edits -/

theorem Tree.IsRelexed.edit (h : tree.IsRelexed l text) (hforward : ∀ x ∈ l.scanner, x.ReadsForward)
    (hlocal : ∀ x ∈ l.scanner, x.IsLocal) (new : ByteArray) {start stop : Nat} (hle : start ≤ stop)
    (hstop : stop ≤ text.size) (id : Nat) :
    (tree.edit (InputEdit.replace text start stop new) id).1.IsRelexed l
      ((InputEdit.replace text start stop new).applyTo text new) := by
  obtain ⟨_, _, hputs⟩ := RelativeEdit.puts_ofInput text new hle hstop
  have hnew := Nat.le.intro hputs.bytes_newEnd.symm
  have hstage := (RelativeEdit.ofInput (InputEdit.replace text start stop new)).stage_start
  constructor
  · rw [Tree.children_edit]
    exact encloses_editAmong (id + 1) _ _ hputs.start_le hnew hstage h.encloses
  · intro p hp hflag
    obtain ⟨hp, hleaf⟩ := List.mem_filter.1 hp
    rw [Tree.children_edit] at hp
    obtain ⟨q, hq, hkeeps⟩ :=
      keeps_editAmong (id + 1) _ _ hputs.start_le hnew hstage h.encloses hp hflag
    rw [hkeeps.subtree] at hflag hleaf
    exact (hkeeps.sameIn hle hstop).relexes hforward hlocal
      (h.leaves q (List.mem_filter.2 ⟨hq, hleaf⟩) hflag)

/-! ### Moves -/

/-- The leaves of what can be taken over from an old tree are lexed again to what they are. -/
def ReuseCursor.Relexes (start : ReuseCursor) (l : Language) (text : ByteArray) : Prop :=
  ∀ (cursor : ReuseCursor) (t : Subtree) (state : StateId), start.Reaches cursor →
    cursor.rest.head? = some t → accepts l.table state t = true →
    l.RelexesAll text cursor.offset t.leaves

/-- The leaves of a version are lexed again to what they are, each where it stands. -/
structure Version.IsRelexed (setting : ParseSetting) (v : Version) : Prop where
  stack : setting.language.RelexesAll setting.text 0 (leavesAll v.stack.trees)
  lookahead : ∀ t ∈ v.lookahead, setting.language.RelexesAll setting.text v.position.bytes t.leaves

namespace ParseSetting

variable {setting : ParseSetting} {old : Option ReuseCursor} {v v' : Version}
  {done rest : List UInt8}

theorem relexesAll_of_lexes {mode : LexMode} (h : setting.Lexes place mode t) :
    setting.language.RelexesAll setting.text place t.leaves := by
  obtain ⟨id, rfl⟩ := h
  exact Language.relexesAll_singleton_iff.2 (Language.relexes_ofToken _ _ id _ _ mode)

theorem relexesAll_of_lexesAll {position : Length} (h : setting.LexesAll position trees) :
    setting.language.RelexesAll setting.text position.bytes (leavesAll trees) := by
  induction h with
  | nil => exact trivial
  | cons position tree trees htree _ ih =>
      obtain ⟨id, rfl⟩ := htree
      exact ⟨Language.relexes_ofToken _ _ id _ _ _, ih⟩

/-- The leaves on the stack reach up to the position. -/
theorem totalAll_leavesAll_stack (h : v.Follows setting done rest) :
    totalAll (leavesAll v.stack.trees) = v.position := by
  rw [h.stack.trees.totalAll_leavesAll, h.position]

theorem isRelexed_withStack (h : v.IsRelexed setting) {stack : Stack}
    (hleaves : leavesAll stack.trees = leavesAll v.stack.trees) :
    { v with stack := stack }.IsRelexed setting := by
  refine { h with stack := ?_ }
  rw [hleaves]
  exact h.stack

/-- A subtree of the leaves of the lookahead is shifted. -/
theorem isRelexed_shift (hv : v.Follows setting done rest) (h : v.IsRelexed setting)
    (ht : v.lookahead = some t) {tree : Subtree} (hleaves : tree.leaves = t.leaves) (state : StateId)
    (pending : Bool) :
    Version.IsRelexed setting ⟨v.stack.push state tree pending, v.position + t.total, none⟩ := by
  refine ⟨?_, nofun⟩
  rw [Stack.trees_push, Subtree.leavesAll_append, Subtree.leavesAll_singleton, hleaves,
    Language.relexesAll_append_iff, totalAll_leavesAll_stack hv, Nat.zero_add]
  exact ⟨h.stack, h.lookahead t ht⟩

/-- The lookahead and the tokens behind it, as far as they are passed. -/
theorem relexesAll_passed (hv : v.Follows setting done rest) (h : v.IsRelexed setting)
    (ht : v.lookahead = some t) {more : List Subtree}
    (hmore : setting.LexesAll (v.position + t.total) more) (skipped : Nat) :
    setting.language.RelexesAll setting.text v.position.bytes
      (leavesAll ((t :: more).take skipped)) := by
  obtain ⟨_, _, _, hcovers⟩ := hv.lookahead t ht
  have hall : setting.language.RelexesAll setting.text v.position.bytes (leavesAll (t :: more)) := by
    rw [leavesAll, Language.relexesAll_append_iff, hcovers.totalAll_leaves, ← Length.bytes_add]
    exact ⟨h.lookahead t ht, relexesAll_of_lexesAll hmore⟩
  rw [← List.take_append_drop skipped (t :: more), Subtree.leavesAll_append,
    Language.relexesAll_append_iff] at hall
  exact hall.1

theorem isRelexed_of_moves (hold : ∀ start ∈ old, start.Relexes setting.language setting.text)
    (hv : v.Follows setting done rest) (h : v.IsRelexed setting) (hmove : setting.Moves old v v') :
    v'.IsRelexed setting := by
  cases hmove with
  | lex mode tree hlex =>
      refine { h with lookahead := ?_ }
      rintro _ ⟨⟩
      exact relexesAll_of_lexes hlex
  | reuse start cursor tree hstart hcursor htree hoffset haccepts =>
      refine { h with lookahead := ?_ }
      rintro _ ⟨⟩
      rw [← hoffset]
      exact hold start hstart cursor tree v.stack.state hcursor htree haccepts
  | enter lookahead hlookahead hnode => exact { h with lookahead := nofun }
  | reduce s p forked id hs haction =>
      exact isRelexed_withStack h (leavesAll_trees_reduceStack v.stack forked p id)
  | shift lookahead next hlookahead hleaf haction =>
      exact isRelexed_shift hv h hlookahead rfl next false
  | shiftExtra lookahead hlookahead hleaf hextra hnone =>
      exact isRelexed_shift hv h hlookahead rfl v.stack.state false
  | shiftReused lookahead target next hlookahead hnode haction hnext =>
      exact isRelexed_shift hv h hlookahead rfl next true
  | breakPending lookahead hlookahead hleaf hnone =>
      exact isRelexed_withStack h (leavesAll_trees_breakPending hv.stack)
  | missing s next id hs haction =>
      refine { h with stack := ?_ }
      rw [Stack.trees_push, Subtree.leavesAll_append, Subtree.leavesAll_singleton,
        Language.relexesAll_append_iff]
      exact ⟨h.stack, Language.relexesAll_singleton_iff.2 (Language.relexes_of_empty _ _ _ rfl)⟩
  | skip lookahead relexed more popped skipped id mode hlookahead hleaf hmore hrelexed =>
      refine ⟨?_, ?_⟩
      · rw [leavesAll_trees_skipVersion, Language.relexesAll_append_iff,
          totalAll_leavesAll_stack hv, Nat.zero_add]
        exact ⟨h.stack, relexesAll_passed hv h hlookahead hmore skipped⟩
      · rintro _ ⟨⟩
        exact relexesAll_of_lexes hrelexed
  | skipLookahead lookahead id hlookahead hleaf =>
      exact isRelexed_shift hv h hlookahead
        (by rw [Subtree.leaves_ofSkipped, Subtree.leavesAll_singleton]) v.stack.state false

theorem isRelexed_of_reached (hsetting : setting.WellFormed)
    (hagrees : ∀ start ∈ old, start.Agrees setting.table setting.text.data.toList)
    (hold : ∀ start ∈ old, start.Relexes setting.language setting.text)
    (h : setting.Reached old v) : v.IsRelexed setting := by
  induction h with
  | start => exact ⟨trivial, nofun⟩
  | move v v' hreached hmove ih =>
      obtain ⟨done, rest, hfollows⟩ := exists_follows_of_reached hsetting hagrees hreached
      exact isRelexed_of_moves hold hfollows ih hmove

/-! ### Ends -/

/-- The children of the start symbol in its place are of the same leaves. A leaf that is lost is
missing and has no bytes. -/
theorem relexesAll_of_soleStart (hstart : setting.table.StartIsNode) {w : List UInt8}
    (hcovers : CoversAll setting.table trees w) {before after : List Subtree}
    (hsole : soleStart? setting.table.startSymbol trees = some (before, t, after))
    (h : l.RelexesAll text place (leavesAll trees)) :
    l.RelexesAll text place (leavesAll (before ++ t.children ++ after)) := by
  obtain ⟨rfl, hstructural, hsymbol⟩ := soleStart?_spec hsole
  obtain ⟨x, y, rfl, _, hrest⟩ := hcovers.exists_of_append
  obtain _ | ⟨_, _, u, v, ht, _⟩ := hrest
  rw [Subtree.leavesAll_append, Subtree.leavesAll_append]
  rw [Subtree.leavesAll_append, leavesAll] at h
  cases hleaf : t.isLeaf with
  | false =>
      rw [Subtree.leaves_of_node hleaf, ← List.append_assoc] at h
      exact h
  | true =>
      obtain rfl := eq_nil_of_covers_start hstart ht hleaf hstructural hsymbol
      rw [ht.children_eq_nil hleaf, leavesAll, List.append_nil]
      simp only [Language.relexesAll_append_iff, ht.totalAll_leaves, ht.total_eq, Length.ofList_nil]
        at h ⊢
      exact ⟨h.1, h.2.2⟩

theorem relexesAll_buildRoot (hstart : setting.table.StartIsNode) {w : List UInt8}
    (hcovers : CoversAll setting.table trees w) {tail : List Subtree} (id : Nat) (trailing : Length)
    (h : l.RelexesAll text 0 (leavesAll trees)) (htail : l.RelexesAll text w.length (leavesAll tail)) :
    l.RelexesAll text 0 (leavesAll (setting.buildRoot id trees tail trailing).1.children) := by
  have hbalanced := coversAll_balanceWhere setting.bases (fun _ => true) id hcovers
  have hleaves := Subtree.leavesAll_balanceWhere setting.table setting.bases (fun _ => true) id trees
  rw [← hleaves] at h
  have hroot : ∀ children, CoversAll setting.table children w →
      l.RelexesAll text 0 (leavesAll children) → l.RelexesAll text 0 (leavesAll (children ++ tail)) := by
    intro children hchildren hall
    rw [Subtree.leavesAll_append, Language.relexesAll_append_iff, hchildren.totalAll_leavesAll,
      Length.bytes_ofList, Nat.zero_add]
    exact ⟨hall, htail⟩
  rw [buildRoot]
  simp only
  rw [Subtree.children, Subtree.children_interior]
  refine hroot _ ?_ ?_
  · split
    · rename_i hsole
      exact coversAll_of_soleStart hstart hbalanced hsole
    · split
      · exact coversAll_singleton (hbalanced.covers_ofSkipped _)
      · exact hbalanced
  · split
    · rename_i hsole
      exact relexesAll_of_soleStart hstart hbalanced hsole h
    · split
      · rw [Subtree.leavesAll_singleton, Subtree.leaves_ofSkipped]
        exact h
      · exact h

theorem relexesAll_remainder (id : Nat) (position : Length) :
    l.RelexesAll text place (leavesAll (setting.remainder id position)) := by
  rw [remainder]
  split
  · exact Language.relexesAll_singleton_iff.2 (Language.relexes_of_error _ _ _ rfl)
  · exact trivial

/-- The leaves of the tree at the end of a parse are lexed again to what they are. -/
theorem isRelexed_of_ends (hsetting : setting.WellFormed) (hstart : setting.table.StartIsNode)
    (hagrees : ∀ start ∈ old, start.Agrees setting.table setting.text.data.toList)
    (hold : ∀ start ∈ old, start.Relexes setting.language setting.text) {tree : Tree}
    (h : setting.Ends old tree) : tree.IsRelexed setting.language setting.text := by
  obtain ⟨_, covered, after, _, hroot, _⟩ := isRootOver_of_ends hsetting hstart hagrees h
  have hchildren := hroot.coversAll_children
  have hleaves : setting.language.RelexesAll setting.text 0 (leavesAll tree.root.children) := by
    cases h with
    | accepted v a id hreached haccepted =>
        obtain ⟨done, rest, hfollows⟩ := exists_follows_of_reached hsetting hagrees hreached
        have hv := isRelexed_of_reached hsetting hagrees hold hreached
        refine relexesAll_buildRoot hstart (w := done) ?_ id _ ?_ trivial
        · rw [haccepted.trees]
          exact hfollows.stack.trees
        · rw [haccepted.trees]
          exact hv.stack
    | stopped v id status hreached =>
        obtain ⟨done, rest, hfollows⟩ := exists_follows_of_reached hsetting hagrees hreached
        have hv := isRelexed_of_reached hsetting hagrees hold hreached
        exact relexesAll_buildRoot hstart hfollows.stack.trees (id + 1) _ hv.stack
          (relexesAll_remainder id v.position)
    | nothing id hmax => exact relexesAll_buildRoot hstart .nil id _ trivial trivial
  refine ⟨hchildren.encloses, ?_⟩
  intro p hp _
  have hadjacent := hchildren.adjacent []
  rw [← hchildren.map_leavesOf Length.zero] at hleaves
  exact (Language.relexesAll_iff_of_adjacent hadjacent).1 hleaves p hp

end ParseSetting

end IncrementalLR
