import IncrementalLR.Proofs.Parse.Reparse
import IncrementalLR.Proofs.Tree.Room

/-!
# Parses stay within their text

An old tree that fits into the text can be taken over in parts without running past the end of the
text, whatever the parts cover. The stack of a version fits in front of its position, and the
lookahead fits behind it. So the tree at the end of a parse fits into the text again.
-/

namespace IncrementalLR

open Subtree (totalAll FitIn)

/-- What is left of an old tree fits into so many bytes. -/
structure ReuseCursor.FitsIn (c : ReuseCursor) (n : Nat) : Prop where
  roomy : ∀ t ∈ c.rest, t.Roomy
  bytes : c.offset + (totalAll c.rest).bytes ≤ n

/-- The stack of a version fits in front of its position and the lookahead behind it, in the text.
Only the end of input is empty. -/
structure Version.Within (setting : ParseSetting) (v : Version) : Prop where
  stack : FitIn v.stack.trees v.position.bytes
  position : v.position.bytes ≤ setting.text.size
  lookahead : ∀ t ∈ v.lookahead, t.Roomy ∧ v.position.bytes + t.total.bytes ≤ setting.text.size
  token : ∀ t ∈ v.lookahead, t.symbol ≠ Symbol.eof → 0 < t.total.bytes

/-! ### The cursor -/

namespace ReuseCursor

variable {c d : ReuseCursor} {t : Subtree} {n : Nat}

theorem fitsIn_ofRoot (h : FitIn [t] n) : (ofRoot t).FitsIn n := by
  refine ⟨h.roomy, ?_⟩
  show 0 + (totalAll [t]).bytes ≤ n
  rw [Nat.zero_add]
  exact h.bytes

theorem fitsIn_of_nil (h : c.rest = []) : c.FitsIn n := by
  refine ⟨by simp [h], ?_⟩
  rw [ReuseCursor.offset, stack_eq_nil h, h]
  exact Nat.zero_le n

theorem FitsIn.advance (h : c.FitsIn n) : c.advance.FitsIn n := by
  cases hcursor : c.rest with
  | nil => rwa [advance_of_rest_eq_nil hcursor]
  | cons t rest =>
      have hrest : c.advance.rest = rest := by rw [rest_advance, hcursor, List.tail_cons]
      rcases offset_advance hcursor with hnil | hoffset
      · exact fitsIn_of_nil (hrest.trans hnil)
      · obtain ⟨hroomy, hbytes⟩ := h
        rw [hcursor] at hroomy hbytes
        rw [Subtree.bytes_totalAll_cons] at hbytes
        refine ⟨?_, ?_⟩
        · rw [hrest]
          exact (List.forall_mem_cons.1 hroomy).2
        · rw [hrest, hoffset]
          omega

theorem FitsIn.stepInto (h : c.FitsIn n) : c.stepInto.FitsIn n := by
  rcases c.stepInto_cases with ⟨_, heq⟩ | ⟨t, rest, _, _, heq⟩ | ⟨t, rest, hcursor, _, hrest, hoffset⟩
  · rwa [heq]
  · rw [heq]
    exact h.advance
  · obtain ⟨hroomy, hbytes⟩ := h
    rw [hcursor] at hroomy hbytes
    rw [Subtree.bytes_totalAll_cons] at hbytes
    obtain ⟨ht, hroomy⟩ := List.forall_mem_cons.1 hroomy
    have hchildren := ht.fitIn_children
    have hle := hchildren.bytes
    refine ⟨?_, ?_⟩
    · rw [hrest]
      exact List.forall_mem_append.2 ⟨hchildren.roomy, hroomy⟩
    · rw [hrest, hoffset, Subtree.bytes_totalAll_append]
      omega

theorem FitsIn.of_reaches (h : c.FitsIn n) (hreaches : c.Reaches d) : d.FitsIn n := by
  induction hreaches with
  | refl => exact h
  | advance d _ ih => exact ih.advance
  | stepInto d _ ih => exact ih.stepInto

/-- What can be taken over fits at its place. -/
theorem FitsIn.head (h : c.FitsIn n) (ht : c.rest.head? = some t) :
    t.Roomy ∧ c.offset + t.total.bytes ≤ n := by
  obtain ⟨rest, hrest⟩ := List.head?_eq_some_iff.1 ht
  obtain ⟨hroomy, hbytes⟩ := h
  rw [hrest] at hroomy hbytes
  rw [Subtree.bytes_totalAll_cons] at hbytes
  exact ⟨hroomy t List.mem_cons_self, by omega⟩

end ReuseCursor

namespace Stack

variable {s : Stack} {t : Subtree} {trees : List Subtree} {m n : Nat}

/-! ### Stacks -/

theorem fitIn_push (h : FitIn s.trees m) (ht : FitIn [t] n) (state : StateId) (pending : Bool) :
    FitIn (s.push state t pending).trees (m + n) := by
  rw [trees_push]
  exact h.append ht

theorem fitIn_reduceStack (setting : ParseSetting) (h : FitIn s.trees n) (forked : Bool)
    (p : ProductionId) (id : Nat) : FitIn (setting.reduceStack forked p id s).1.trees n := by
  rw [s.trees_popTrailing] at h
  obtain ⟨m, k, rfl, hrest, htrailing⟩ := h.exists_of_append
  rw [s.popTrailing.2.trees_popStructural (setting.table.production p).rhs.size] at hrest
  obtain ⟨i, j, rfl, hbelow, hchildren⟩ := hrest.exists_of_append
  have hbalanced := hchildren.balanceWhere setting.table setting.bases
    (·.symbol != (setting.table.production p).lhs) id
  have hnode := fun id fragile => hbalanced.ofChildren setting.table id
    (setting.table.production p).lhs (some p) fragile
  rw [ParseSetting.reduceStack]
  simp only
  split
  · rw [trees_pushAll]
    exact (fitIn_push hbelow (hnode _ _) _ false).append htrailing
  · rw [Nat.add_assoc]
    exact fitIn_push hbelow (((hnode _ _).cons htrailing).ofSkipped setting.table _) _ false

theorem fitIn_breakPending (table : Table) (h : FitIn s.trees n) :
    FitIn (ParseSetting.breakPending table s).2.trees n := by
  fun_induction ParseSetting.breakPending table s with
  | case1 => exact h
  | case2 =>
      rename_i s top below hframes _ rest _ state
      rw [trees_push]
      rwa [trees_of_cons hframes] at h
  | case3 =>
      rename_i s top below hframes _ rest pushes hpushes ih
      apply ih
      rw [trees_of_cons hframes] at h
      obtain ⟨m, k, rfl, hbelow, htop⟩ := h.exists_of_append
      rw [ParseSetting.trees_pushPending, ParseSetting.map_snd_of_childStates? hpushes]
      exact hbelow.append htop.children
  | case4 => exact h

end Stack

namespace ParseSetting

variable {setting : ParseSetting} {old : Option ReuseCursor} {v v' : Version} {t : Subtree}
  {trees tail : List Subtree} {m n : Nat}

/-! ### Moves -/

theorem lookahead_of_lexes (hsetting : setting.WellFormed) {position : Nat}
    (hle : position ≤ setting.text.size) {mode : LexMode} (h : setting.Lexes position mode t) :
    t.Roomy ∧ position + t.total.bytes ≤ setting.text.size := by
  refine ⟨.of_children_eq_nil ?_, (bytes_total_of_lexes hsetting hle h).1⟩
  obtain ⟨id, rfl⟩ := h
  rfl

/-- Tokens one behind the other fit into the text. -/
theorem fitIn_of_lexesAll (hsetting : setting.WellFormed) {position : Length}
    (hle : position.bytes ≤ setting.text.size) (h : setting.LexesAll position trees) :
    FitIn trees (setting.text.size - position.bytes) := by
  induction h with
  | nil => exact .nil
  | cons position t rest ht _ ih =>
      obtain ⟨hroomy, hbytes⟩ := lookahead_of_lexes hsetting hle ht
      rw [Length.bytes_add] at ih
      have hfirst : FitIn [t] t.total.bytes := FitIn.singleton_iff.2 ⟨hroomy, Nat.le_refl _⟩
      exact (hfirst.cons (ih hbytes)).mono (by omega)

/-- A version in front of a token that was lexed at its position. -/
theorem within_lex (hsetting : setting.WellFormed) {stack : Stack} {position : Length}
    (hstack : FitIn stack.trees position.bytes) (hposition : position.bytes ≤ setting.text.size)
    {mode : LexMode} (hlex : setting.Lexes position.bytes mode t) :
    (⟨stack, position, some t⟩ : Version).Within setting := by
  refine ⟨hstack, hposition, ?_, ?_⟩
  · rintro _ ⟨⟩
    exact lookahead_of_lexes hsetting hposition hlex
  · rintro _ ⟨⟩
    exact (bytes_total_of_lexes hsetting hposition hlex).2

theorem within_withStack (h : v.Within setting) {stack : Stack}
    (hstack : FitIn stack.trees v.position.bytes) : { v with stack := stack }.Within setting :=
  { h with stack := hstack }

/-- What is shifted takes up no more than what was in front of the version. -/
theorem within_shift (h : v.Within setting) (ht : v.lookahead = some t) {tree : Subtree}
    (htree : FitIn [tree] t.total.bytes) (state : StateId) (pending : Bool) :
    (⟨v.stack.push state tree pending, v.position + t.total, none⟩ : Version).Within setting := by
  refine ⟨Stack.fitIn_push h.stack htree state pending, ?_, nofun, nofun⟩
  exact (h.lookahead t ht).2

/-- Subtrees taken off and tokens passed become skipped text on the stack. -/
theorem fitIn_skipVersion (h : FitIn v.stack.trees m) {tokens : List Subtree}
    (popped skipped id : Nat) (relexed : Subtree) (hpassed : FitIn (tokens.take skipped) n) :
    FitIn (setting.skipVersion v tokens popped skipped id relexed).stack.trees (m + n) := by
  rw [v.stack.trees_drop popped] at h
  obtain ⟨i, j, rfl, hresumed, htaken⟩ := h.exists_of_append
  have hall := htaken.append hpassed
  rw [skipVersion, Nat.add_assoc]
  simp only
  split
  · exact hresumed.mono (Nat.le_add_right i _)
  · exact Stack.fitIn_push hresumed (hall.ofSkipped setting.table id) _ false

/-- The tokens passed are among the lookahead and those lexed behind it, all of them in the text. -/
theorem within_skip (hsetting : setting.WellFormed) (h : v.Within setting)
    (ht : v.lookahead = some t) {more : List Subtree}
    (hmore : setting.LexesAll (v.position + t.total) more) {relexed : Subtree}
    {popped skipped id : Nat} {mode : LexMode}
    (hrelexed : setting.Lexes
      (setting.skipVersion v (t :: more) popped skipped id relexed).position.bytes mode relexed) :
    (setting.skipVersion v (t :: more) popped skipped id relexed).Within setting := by
  obtain ⟨hroomy, hbytes⟩ := h.lookahead t ht
  have hfirst : FitIn [t] t.total.bytes := FitIn.singleton_iff.2 ⟨hroomy, Nat.le_refl _⟩
  have htokens := hfirst.cons (fitIn_of_lexesAll hsetting hbytes hmore)
  rw [← List.take_append_drop skipped (t :: more)] at htokens
  obtain ⟨m, k, hsum, hpassed, _⟩ := htokens.exists_of_append
  have hposition := bytes_skipVersion setting v (t :: more) popped skipped id relexed
  refine within_lex hsetting ?_ ?_ hrelexed
  · change FitIn _ (setting.skipVersion v (t :: more) popped skipped id relexed).position.bytes
    rw [hposition]
    exact fitIn_skipVersion h.stack popped skipped id relexed ⟨hpassed.roomy, Nat.le_refl _⟩
  · change (setting.skipVersion v (t :: more) popped skipped id relexed).position.bytes ≤ _
    have hle := hpassed.bytes
    rw [Length.bytes_add] at hsum
    rw [hposition]
    omega

theorem within_of_moves (hsetting : setting.WellFormed)
    (hold : ∀ start ∈ old, start.FitsIn setting.text.size) (h : v.Within setting)
    (hmove : setting.Moves old v v') : v'.Within setting := by
  have hself : ∀ t, v.lookahead = some t → FitIn [t] t.total.bytes :=
    fun t ht => FitIn.singleton_iff.2 ⟨(h.lookahead t ht).1, Nat.le_refl _⟩
  cases hmove with
  | lex mode tree hlex => exact within_lex hsetting h.stack h.position hlex
  | reuse start cursor tree hstart hcursor htree hoffset haccepts =>
      have hfits := ((hold start hstart).of_reaches hcursor).head htree
      rw [hoffset] at hfits
      refine { h with lookahead := ?_, token := ?_ }
      · rintro _ ⟨⟩
        exact hfits
      · rintro _ ⟨⟩ _
        have hsize := (intact_of_accepts haccepts).2.2
        rw [Subtree.total, Length.bytes_add]
        omega
  | enter => exact { h with lookahead := nofun, token := nofun }
  | reduce s p forked id =>
      exact within_withStack h (Stack.fitIn_reduceStack setting h.stack forked p id)
  | shift lookahead next hlookahead =>
      exact within_shift h hlookahead (hself lookahead hlookahead) next false
  | shiftExtra lookahead hlookahead =>
      exact within_shift h hlookahead (hself lookahead hlookahead) v.stack.state false
  | shiftReused lookahead target next hlookahead =>
      exact within_shift h hlookahead (hself lookahead hlookahead) next true
  | breakPending => exact within_withStack h (Stack.fitIn_breakPending setting.table h.stack)
  | missing s next id =>
      have hmissing : FitIn [Subtree.ofMissing setting.table id s
          (setting.table.lexMode v.stack.state)] 0 :=
        FitIn.singleton_iff.2 ⟨.of_children_eq_nil rfl, Nat.le_refl 0⟩
      exact within_withStack h (Stack.fitIn_push h.stack hmissing next false)
  | skip lookahead relexed more popped skipped id mode hlookahead hleaf hmore hrelexed =>
      exact within_skip hsetting h hlookahead hmore hrelexed
  | skipLookahead lookahead id hlookahead =>
      exact within_shift h hlookahead ((hself lookahead hlookahead).ofSkipped setting.table id)
        v.stack.state false

theorem within_of_reached (hsetting : setting.WellFormed)
    (hold : ∀ start ∈ old, start.FitsIn setting.text.size) (h : setting.Reached old v) :
    v.Within setting := by
  induction h with
  | start => exact ⟨.nil, Nat.zero_le _, nofun, nofun⟩
  | move v v' _ hmove ih => exact within_of_moves hsetting hold ih hmove

/-! ### Ends -/

theorem fitIn_buildRoot (id : Nat) (trailing : Length) (h : FitIn trees m) (htail : FitIn tail n) :
    FitIn [(setting.buildRoot id trees tail trailing).1] (m + n + trailing.bytes) := by
  have hbalanced := h.balanceWhere setting.table setting.bases (fun _ => true) id
  have hroot : ∀ id' children production, FitIn children m →
      let root := Subtree.interior setting.table id' setting.table.startSymbol (children ++ tail)
        production false
      FitIn [root.stretched (root.total + trailing)] (m + n + trailing.bytes) := by
    intro id' children production hchildren
    have hnode := (hchildren.append htail).ofChildren setting.table id'
      setting.table.startSymbol production false
    obtain ⟨hroomy, hbytes⟩ := FitIn.singleton_iff.1 hnode
    generalize Subtree.interior setting.table id' _ _ production false = root at hroomy hbytes
    have htotal : (root.stretched (root.total + trailing)).total.bytes
        = root.total.bytes + trailing.bytes :=
      Nat.zero_add _
    refine FitIn.singleton_iff.2 ⟨⟨_, ?_, hroomy.fitIn_children.roomy⟩, ?_⟩
    · rw [htotal]
      exact Nat.le_trans hroomy.fitIn_children.bytes (Nat.le_add_right _ _)
    · rw [htotal]
      exact Nat.add_le_add_right hbytes _
  rw [buildRoot]
  refine hroot _ _ _ ?_
  split
  · -- a leaf of the start symbol is lost here
    rename_i hsole
    obtain ⟨htrees, _, _⟩ := soleStart?_spec hsole
    rw [htrees] at hbalanced
    obtain ⟨i, j, rfl, hbefore, hrest⟩ := hbalanced.exists_of_append
    obtain ⟨k, l, rfl, ht, hafter⟩ := hrest.exists_of_cons
    rw [List.append_assoc]
    exact hbefore.append (ht.children.append hafter)
  · split
    · exact hbalanced.ofSkipped setting.table _
    · exact hbalanced

theorem fitIn_remainder (id : Nat) (position : Length) :
    FitIn (setting.remainder id position) (setting.text.size - position.bytes) := by
  have hlength : (Length.ofBytes (setting.text.extract position.bytes setting.text.size)).bytes
      = setting.text.size - position.bytes := by
    have hbytes := Lexer.bytes_lengthBetween setting.text position.bytes setting.text.size
    rw [Nat.min_self] at hbytes
    exact hbytes
  rw [remainder]
  split
  · refine FitIn.singleton_iff.2 ⟨.of_children_eq_nil rfl, ?_⟩
    change 0 + (Length.ofBytes _).bytes ≤ _
    rw [hlength, Nat.zero_add]
  · exact .nil

/-- The tree at the end of a parse fits into the text. -/
theorem fitIn_of_ends (hsetting : setting.WellFormed)
    (hold : ∀ start ∈ old, start.FitsIn setting.text.size) {tree : Tree}
    (h : setting.Ends old tree) : FitIn [tree.root] setting.text.size := by
  cases h with
  | accepted v a id hreached haccepted =>
      have hv := within_of_reached hsetting hold hreached
      obtain ⟨t, ht, htrailing, _⟩ := haccepted.lookahead
      have hbytes := (hv.lookahead t ht).2
      rw [Subtree.total, Length.bytes_add] at hbytes
      rw [haccepted.trees, htrailing]
      exact (fitIn_buildRoot id t.padding hv.stack (.nil (n := 0))).mono (by omega)
  | stopped v id status hreached =>
      have hv := within_of_reached hsetting hold hreached
      have hposition := hv.position
      refine (fitIn_buildRoot (id + 1) Length.zero hv.stack
        (fitIn_remainder id v.position)).mono ?_
      rw [Length.bytes_zero]
      omega
  | nothing id =>
      have hbytes : (Length.ofBytes setting.text).bytes = setting.text.size :=
        Length.bytes_ofList _
      refine (fitIn_buildRoot id (Length.ofBytes setting.text) (.nil (n := 0))
        (.nil (n := 0))).mono ?_
      omega

end ParseSetting

/-! ### Edits -/

theorem InputEdit.size_applyTo (text new : ByteArray) {start stop : Nat} (hle : start ≤ stop)
    (hstop : stop ≤ text.size) :
    ((InputEdit.replace text start stop new).applyTo text new).size
      = start + new.size + (text.size - stop) := by
  have hlist := congrArg List.length (InputEdit.toList_applyTo text new hle hstop)
  have hlength : text.data.toList.length = text.size := rfl
  rw [spliced, if_pos (by omega), List.length_append, List.length_append, List.length_take,
    List.length_drop, hlength, Nat.min_eq_left (Nat.le_trans hle hstop)] at hlist
  exact hlist

/-- A tree that fits into a text fits into it after an edit of both. -/
theorem Tree.fitIn_edit {tree : Tree} {text : ByteArray} (h : FitIn [tree.root] text.size)
    (new : ByteArray) {start stop : Nat} (hle : start ≤ stop) (hstop : stop ≤ text.size) (id : Nat) :
    FitIn [(tree.edit (InputEdit.replace text start stop new) id).1.root]
      ((InputEdit.replace text start stop new).applyTo text new).size := by
  obtain ⟨hroomy, hbytes⟩ := FitIn.singleton_iff.1 h
  obtain ⟨hstart, hold, hputs⟩ := RelativeEdit.puts_ofInput text new hle hstop
  have hnewEnd := hputs.bytes_newEnd
  refine FitIn.singleton_iff.2
    ⟨Tree.roomy_edit hroomy _ id hputs.start_le (Nat.le.intro hnewEnd.symm), ?_⟩
  have hroot := tree.bytes_total_root_edit (InputEdit.replace text start stop new) id
  have hsize : new.data.toList.length = new.size := rfl
  simp only [RelativeEdit.ofInput] at hstart hold hnewEnd
  rw [hroot, InputEdit.size_applyTo text new hle hstop]
  omega

end IncrementalLR
