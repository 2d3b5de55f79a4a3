import IncrementalLR.Proofs.Parse.Lookups
import IncrementalLR.Proofs.Parse.Productions
import IncrementalLR.Proofs.Tree.Known

/-!
# Lookups in bounds

The states of a stack exist and its subtrees are known, whatever moves lead there, so all that is
looked up in the course of a parse is there. A table that was read from bytes is therefore safe to
use, as far as the numbers that are not checked are in range. In a compiled table they are.
-/

namespace IncrementalLR

open Subtree (chainBase? balanceWhere)

/-! ### States and subtrees of versions -/

/-- The states of a stack exist, and its subtrees are known. -/
structure Stack.InRange (t : Table) (s : Stack) : Prop where
  base : s.base.toNat < t.stateCount
  frames : ∀ frame ∈ s.frames, frame.state.toNat < t.stateCount ∧ frame.tree.Known t

structure Version.InRange (t : Table) (v : Version) : Prop where
  stack : v.stack.InRange t
  lookahead : ∀ tree ∈ v.lookahead, tree.Known t

namespace Stack.InRange

variable {t : Table} {s : Stack} {state : StateId} {tree : Subtree} {trees : List Subtree}

theorem state_lt (h : s.InRange t) : s.state.toNat < t.stateCount := by
  rw [Stack.state]
  split
  · exact h.base
  · rename_i top below hframes
    exact (h.frames top (by simp [hframes])).1

theorem of_subset (h : s.InRange t) {frames : List Frame} (hsubset : frames ⊆ s.frames) :
    { s with frames := frames }.InRange t :=
  ⟨h.base, fun frame hframe => h.frames frame (hsubset hframe)⟩

theorem push (h : s.InRange t) (hstate : state.toNat < t.stateCount) (htree : tree.Known t)
    (pending : Bool) : (s.push state tree pending).InRange t :=
  ⟨h.base, List.forall_mem_cons.2 ⟨⟨hstate, htree⟩, h.frames⟩⟩

theorem pushAll (h : s.InRange t) (hstate : state.toNat < t.stateCount)
    (htrees : ∀ tree ∈ trees, tree.Known t) : (s.pushAll state trees).InRange t := by
  induction trees generalizing s with
  | nil => exact h
  | cons tree rest ih =>
      obtain ⟨htree, hrest⟩ := List.forall_mem_cons.1 htrees
      exact ih (h.push hstate htree false) hrest

theorem trees_known (h : s.InRange t) : ∀ tree ∈ s.trees, tree.Known t := by
  intro tree htree
  obtain ⟨frame, hframe, rfl⟩ := List.mem_map.1 (List.mem_reverse.1 htree)
  exact (h.frames frame hframe).2

theorem structuralStates_lt (h : s.InRange t) :
    ∀ state ∈ s.structuralStates, state.toNat < t.stateCount := by
  intro state hstate
  rcases List.mem_append.1 hstate with hstate | hstate
  · obtain ⟨frame, hframe, rfl⟩ := List.mem_map.1 hstate
    exact (h.frames frame (List.mem_filter.1 hframe).1).1
  · rw [List.mem_singleton.1 hstate]
    exact h.base

theorem popTrailing (h : s.InRange t) :
    (∀ tree ∈ s.popTrailing.1, tree.Known t) ∧ s.popTrailing.2.InRange t := by
  refine ⟨fun tree htree => ?_, h.of_subset (List.dropWhile_suffix _).subset⟩
  obtain ⟨frame, hframe, rfl⟩ := List.mem_map.1 htree
  exact (h.frames frame ((List.takeWhile_sublist _).subset (List.mem_reverse.1 hframe))).2

theorem popStructural (h : s.InRange t) (count : Nat) :
    (∀ tree ∈ (s.popStructural count).1, tree.Known t) ∧ (s.popStructural count).2.InRange t := by
  refine ⟨fun tree htree => ?_, h.of_subset (suffix_popFrames _ _ _).subset⟩
  obtain ⟨htrees, _⟩ := popFrames_spec count s.frames []
  rw [List.append_nil] at htrees
  refine h.trees_known tree ?_
  rw [Stack.trees, htrees]
  exact List.mem_append_right _ htree

end Stack.InRange

/-- What is in front of a cursor over known subtrees is known. -/
theorem ReuseCursor.Reaches.known {t : Table} {c d : ReuseCursor} (h : c.Reaches d)
    (hc : ∀ tree ∈ c.rest, tree.Known t) : ∀ tree ∈ d.rest, tree.Known t :=
  h.forall_mem (fun _ ht => ht.child) hc

namespace ParseSetting

variable {setting : ParseSetting} {old : Option ReuseCursor} {v v' : Version} {s : Symbol}
  {stack : Stack} {t : Subtree} {trees : List Subtree} {k : Lookup}

/-- The numbers in the table are in range, and the lexer and the bases were made from it. -/
structure IsClosed (setting : ParseSetting) : Prop where
  table : setting.table.IsClosed
  lexer : setting.language.lexer.MadeFrom setting.table
  bases : setting.bases = RepetitionBases.ofTable setting.table

/-- All subtrees that a cursor can come to are known. -/
def KnowsOld (setting : ParseSetting) (old : Option ReuseCursor) : Prop :=
  ∀ start ∈ old, ∀ tree ∈ start.rest, tree.Known setting.table

theorem inRange_skipVersion (hv : v.InRange setting.table) {tokens : List Subtree}
    (htokens : ∀ token ∈ tokens, token.Known setting.table) (popped skipped id : Nat)
    {relexed : Subtree} (hrelexed : relexed.Known setting.table) :
    (setting.skipVersion v tokens popped skipped id relexed).InRange setting.table := by
  have hresumed := hv.stack.of_subset (List.drop_subset popped v.stack.frames)
  refine ⟨?_, fun tree htree => ?_⟩
  · rw [skipVersion]
    simp only
    split
    · exact hresumed
    · refine hresumed.push hresumed.state_lt (.ofSkipped id ?_) false
      intro tree htree
      rcases List.mem_append.1 htree with htree | htree
      · obtain ⟨frame, hframe, rfl⟩ := List.mem_map.1 (List.mem_reverse.1 htree)
        exact (hv.stack.frames frame (List.mem_of_mem_take hframe)).2
      · exact htokens tree (List.mem_of_mem_take htree)
  · cases htree
    exact hrelexed

theorem inBounds_nodeLookups (hs : setting.table.Has s) {production : Option ProductionId}
    (hproduction : ∀ p ∈ production, p.toNat < setting.table.productions.size)
    (hk : k ∈ Subtree.nodeLookups s production) : k.InBounds setting.language := by
  rcases List.mem_append.1 hk with hk | hk
  · exact Table.IsClosed.inBounds_ofInfo hs hk
  · obtain ⟨p, hp, rfl⟩ := List.mem_map.1 hk
    exact hproduction p (Option.mem_toList.1 hp)

namespace IsClosed

variable (h : setting.IsClosed)

include h

theorem inRange_bases : setting.bases.InRange setting.table := by
  rw [h.bases]
  exact RepetitionBases.inRange_ofTable setting.table

theorem has_lex (position : Nat) (mode : LexMode) :
    setting.table.Has (setting.language.lex setting.text position mode).symbol := by
  have hlt : ∀ s : Symbol, s.index < setting.table.terminalCount →
      s.index < setting.table.symbols.size :=
    fun s hs => Nat.lt_of_lt_of_le hs h.table.terminals.2
  have hgives : setting.language.lexer.Gives (·.index < setting.table.symbols.size) := by
    refine ⟨fun s literal hs => ?_, fun s i hs => ?_, fun spelled s hs => ?_, fun s hs => ?_⟩
    · obtain ⟨token, htoken, rfl⟩ := h.lexer.tokens s literal hs
      exact hlt _ (h.table.tokens token htoken)
    · obtain ⟨token, htoken, rfl⟩ := h.lexer.word s i hs
      exact hlt _ (h.table.tokens token htoken)
    · obtain ⟨keyword, hkeyword, rfl⟩ := h.lexer.keywords spelled s hs
      exact hlt _ (h.table.keywords keyword hkeyword)
    · rw [h.lexer.externals] at hs
      exact h.table.externals s hs
  rcases hgives.symbol_lex setting.language.scanner position mode with heof | herror | hsymbol
  · rw [Language.lex, heof]
    exact .inr (hlt Symbol.eof h.table.terminals.1)
  · exact .inl herror
  · exact .inr hsymbol

theorem known_of_lexes {position : Nat} {mode : LexMode} (hlex : setting.Lexes position mode t) :
    t.Known setting.table := by
  obtain ⟨id, rfl⟩ := hlex
  exact .ofToken id _ (h.has_lex position mode)

theorem known_of_lexesAll {position : Length} (hlex : setting.LexesAll position trees) :
    ∀ t ∈ trees, t.Known setting.table := by
  induction hlex with
  | nil => exact fun t ht => absurd ht List.not_mem_nil
  | cons position tree rest htree _ ih =>
      exact List.forall_mem_cons.2 ⟨h.known_of_lexes htree, ih⟩

theorem has_of_insertable (hs : s ∈ Recovery.insertable setting.table) : setting.table.Has s := by
  obtain ⟨i, hi, rfl⟩ := List.mem_map.1 (List.mem_filter.1 hs).1
  have hlt := List.mem_range.1 (List.mem_of_mem_drop hi)
  exact .inr (Nat.lt_of_lt_of_le (toNat_toUInt16_lt hlt) h.table.terminals.2)

/-! ### Moves -/

theorem inRange_reduceStack (hstack : stack.InRange setting.table) {p : ProductionId}
    (hp : p.toNat < setting.table.productions.size) (forked : Bool) (id : Nat) :
    (setting.reduceStack forked p id stack).1.InRange setting.table := by
  obtain ⟨htrailing, hrest⟩ := hstack.popTrailing
  obtain ⟨hchildren, hbelow⟩ := hrest.popStructural (setting.table.production p).rhs.size
  have hbalanced := Subtree.Known.balanceWhere h.inRange_bases
    (·.symbol != (setting.table.production p).lhs) id hchildren
  have hnode : ∀ (id : Nat) (fragile : Bool) (trees : List Subtree),
      (∀ t ∈ trees, t.Known setting.table) → (Subtree.interior setting.table id
        (setting.table.production p).lhs trees (some p) fragile).Known setting.table := by
    intro id fragile trees htrees
    refine .interior id fragile (h.table.has_lhs p) (fun p' hp' => ?_) htrees
    rw [Option.mem_some_iff] at hp'
    rwa [← hp']
  rw [reduceStack]
  simp only
  split
  · rename_i next hgoto
    have hnext := h.table.lt_of_goto? hgoto
    exact (hbelow.push hnext (hnode _ _ _ hbalanced) false).pushAll hnext htrailing
  · refine hbelow.push hbelow.state_lt (.ofSkipped _ ?_) false
    exact List.forall_mem_cons.2 ⟨hnode _ _ _ hbalanced, htrailing⟩

theorem inRange_pushPending (hstack : stack.InRange setting.table) {children : List Subtree}
    {pushes : List (StateId × Subtree)} (hchildren : ∀ child ∈ children, child.Known setting.table)
    (hpushes : childStates? setting.table stack.state children = some pushes) :
    (pushPending stack pushes).InRange setting.table := by
  induction children generalizing stack pushes with
  | nil =>
      cases hpushes
      exact hstack
  | cons child rest ih =>
      obtain ⟨hchild, hrest⟩ := List.forall_mem_cons.1 hchildren
      rw [childStates?] at hpushes
      split at hpushes
      · split at hpushes
        · cases hpushes
        · rename_i next hnext
          obtain ⟨tail, htail, rfl⟩ := Option.map_eq_some_iff.1 hpushes
          exact ih (hstack.push (h.table.lt_of_nextState? hnext) hchild _) hrest htail
      · obtain ⟨tail, htail, rfl⟩ := Option.map_eq_some_iff.1 hpushes
        exact ih (hstack.push hstack.state_lt hchild _) hrest htail

theorem inRange_breakPending (hstack : stack.InRange setting.table) :
    (breakPending setting.table stack).2.InRange setting.table := by
  fun_induction breakPending setting.table stack with
  | case1 => exact hstack
  | case2 stack top below hframes _ rest _ state =>
      obtain ⟨_, htop⟩ := hstack.frames top (by simp [hframes])
      have hrest : rest.InRange setting.table :=
        hstack.of_subset (by rw [hframes]; exact List.subset_cons_self top below)
      refine hrest.push ?_ htop false
      cases hnext : setting.table.nextState? rest.state top.tree.symbol with
      | none =>
          simp only [state, hnext, Option.getD_none]
          exact hrest.state_lt
      | some next =>
          simp only [state, hnext, Option.getD_some]
          exact h.table.lt_of_nextState? hnext
  | case3 stack top below hframes _ rest pushes hpushes ih =>
      obtain ⟨_, htop⟩ := hstack.frames top (by simp [hframes])
      have hrest : rest.InRange setting.table :=
        hstack.of_subset (by rw [hframes]; exact List.subset_cons_self top below)
      exact ih (h.inRange_pushPending hrest htop.child hpushes)
  | case4 => exact hstack

/-- Moves lead to versions whose states exist and whose subtrees are known. -/
theorem inRange_of_moves (hold : setting.KnowsOld old) (hv : v.InRange setting.table)
    (hmove : setting.Moves old v v') : v'.InRange setting.table := by
  have hlook : ∀ tree, tree.Known setting.table →
      ({ v with lookahead := some tree } : Version).InRange setting.table := by
    intro tree htree
    refine ⟨hv.stack, fun t ht => ?_⟩
    cases ht
    exact htree
  have hnone : ∀ {stack : Stack}, stack.InRange setting.table → ∀ position,
      (⟨stack, position, none⟩ : Version).InRange setting.table :=
    fun hstack _ => ⟨hstack, fun t ht => absurd ht (Option.not_mem_none t)⟩
  cases hmove with
  | lex mode tree hlex => exact hlook tree (h.known_of_lexes hlex)
  | reuse start cursor tree hstart hcursor htree =>
      exact hlook tree (hcursor.known (hold start hstart) tree (List.mem_of_mem_head? htree))
  | enter lookahead => exact hnone hv.stack _
  | reduce s p forked id hs haction =>
      exact ⟨h.inRange_reduceStack hv.stack (h.table.lt_of_reduce haction) forked id, hv.lookahead⟩
  | shift lookahead next hlookahead hleaf haction =>
      exact hnone (hv.stack.push (h.table.lt_of_shift haction) (hv.lookahead _ hlookahead) false) _
  | shiftExtra lookahead hlookahead =>
      exact hnone (hv.stack.push hv.stack.state_lt (hv.lookahead _ hlookahead) false) _
  | shiftReused lookahead target next hlookahead hnode haction hnext =>
      exact hnone (hv.stack.push (h.table.lt_of_nextState? hnext) (hv.lookahead _ hlookahead) true) _
  | breakPending lookahead => exact ⟨h.inRange_breakPending hv.stack, hv.lookahead⟩
  | missing s next id hs haction =>
      refine ⟨hv.stack.push (h.table.lt_of_shift (List.mem_of_mem_head? haction)) ?_ false,
        hv.lookahead⟩
      exact .ofMissing id _ (h.has_of_insertable hs)
  | skip lookahead relexed more popped skipped id mode hlookahead hleaf hmore hrelexed =>
      refine inRange_skipVersion hv ?_ popped skipped id (h.known_of_lexes hrelexed)
      exact List.forall_mem_cons.2 ⟨hv.lookahead _ hlookahead, h.known_of_lexesAll hmore⟩
  | skipLookahead lookahead id hlookahead =>
      refine hnone (hv.stack.push hv.stack.state_lt (.ofSkipped id ?_) false) _
      exact List.forall_mem_singleton.2 (hv.lookahead _ hlookahead)

theorem inRange_of_reached (hold : setting.KnowsOld old) (hreached : setting.Reached old v) :
    v.InRange setting.table := by
  induction hreached with
  | start =>
      exact ⟨⟨h.table.startState, fun frame hframe => absurd hframe List.not_mem_nil⟩,
        fun t ht => absurd ht (Option.not_mem_none t)⟩
  | move v v' _ hmove ih => exact h.inRange_of_moves hold ih hmove

/-! ### Lookups -/

theorem inBounds_unchainLookups (ht : t.Known setting.table)
    (hk : k ∈ t.unchainLookups setting.bases) : k.InBounds setting.language := by
  fun_induction Subtree.unchainLookups setting.bases t with
  | case1 => cases hk
  | case2 => cases hk
  | case3 head first rest base hbase ih =>
      rcases List.mem_append.1 hk with hk | hk
      · refine inBounds_nodeLookups ht.has (fun p hp => ?_) hk
        cases hp
        exact Subtree.Known.lt_of_chainBase? h.inRange_bases hbase
      · exact ih (ht.child first List.mem_cons_self) hk

theorem inBounds_balanceLookups (htrees : ∀ t ∈ trees, t.Known setting.table)
    (hk : k ∈ trees.flatMap (Subtree.balanceLookups setting.bases)) :
    k.InBounds setting.language := by
  obtain ⟨t, ht, hk⟩ := List.mem_flatMap.1 hk
  rw [Subtree.balanceLookups] at hk
  split at hk
  · cases hk
  · rcases List.mem_append.1 hk with hk | hk
    · exact h.inBounds_unchainLookups (htrees t ht) hk
    · exact inBounds_nodeLookups (htrees t ht).has
        (fun p hp => absurd hp (Option.not_mem_none p)) hk

theorem inBounds_reduceLookups (hstack : stack.InRange setting.table) {p : ProductionId}
    (hp : p.toNat < setting.table.productions.size) (hk : k ∈ setting.reduceLookups p stack) :
    k.InBounds setting.language := by
  obtain ⟨hchildren, hbelow⟩ :=
    hstack.popTrailing.2.popStructural (setting.table.production p).rhs.size
  rcases List.mem_append.1 hk with hk | hk
  · rcases List.mem_append.1 hk with hk | hk
    · exact h.table.inBounds_reduceLookups hp hbelow.state_lt hk
    · exact h.inBounds_balanceLookups (fun t ht => hchildren t (List.mem_filter.1 ht).1) hk
  · refine inBounds_nodeLookups (h.table.has_lhs p) (fun p' hp' => ?_) hk
    cases hp'
    exact hp

theorem inBounds_rootLookups (htrees : ∀ t ∈ trees, t.Known setting.table) (id : Nat)
    (hk : k ∈ setting.rootLookups id trees) : k.InBounds setting.language := by
  rcases List.mem_append.1 hk with hk | hk
  · exact h.inBounds_balanceLookups htrees hk
  · refine inBounds_nodeLookups (.inr h.table.startSymbol) (fun p hp => ?_) hk
    obtain ⟨⟨before, t, after⟩, hsole, hp⟩ := Option.bind_eq_some_iff.1 hp
    obtain ⟨hsplit, _⟩ := soleStart?_spec hsole
    have hbalanced := Subtree.Known.balanceWhere h.inRange_bases (fun _ => true) id htrees
    rw [hsplit] at hbalanced
    exact (hbalanced t (List.mem_append_right before List.mem_cons_self)).production_lt p hp

theorem inBounds_childLookups {children : List Subtree} {state : StateId}
    (hstate : state.toNat < setting.table.stateCount)
    (hchildren : ∀ child ∈ children, child.Known setting.table)
    (hk : k ∈ setting.table.childLookups state children) : k.InBounds setting.language := by
  induction children generalizing state with
  | nil => cases hk
  | cons child rest ih =>
      obtain ⟨hchild, hrest⟩ := List.forall_mem_cons.1 hchildren
      rw [Table.childLookups] at hk
      split at hk
      · rcases List.mem_append.1 hk with hk | hk
        · exact h.table.inBounds_actionLookups hstate hchild.has hk
        · split at hk
          · cases hk
          · rename_i next hnext
            exact ih (h.table.lt_of_nextState? hnext) hrest hk
      · exact ih hstate hrest hk

theorem inBounds_breakLookups (hstack : stack.InRange setting.table)
    (hk : stack.BreakLooksUp setting.table k) : k.InBounds setting.language := by
  have hsplit : ∀ {stack : Stack} {top : Stack.Frame} {below : List Stack.Frame},
      stack.InRange setting.table → stack.frames = top :: below →
      top.tree.Known setting.table ∧ { stack with frames := below }.InRange setting.table := by
    intro stack top below hstack hframes
    refine ⟨(hstack.frames top (by simp [hframes])).2, hstack.of_subset ?_⟩
    rw [hframes]
    exact List.subset_cons_self top below
  induction hk with
  | children hframes _ hk =>
      obtain ⟨htop, hbelow⟩ := hsplit hstack hframes
      exact h.inBounds_childLookups hbelow.state_lt htop.child hk
  | stays hframes _ hk =>
      obtain ⟨htop, hbelow⟩ := hsplit hstack hframes
      exact h.table.inBounds_actionLookups hbelow.state_lt htop.has hk
  | next hframes _ hpushes _ ih =>
      obtain ⟨htop, hbelow⟩ := hsplit hstack hframes
      exact ih (h.inRange_pushPending hbelow htop.child hpushes)

theorem lt_of_inserts {states after : List StateId}
    (hstates : ∀ q ∈ states, q.toNat < setting.table.stateCount)
    (hinserts : setting.Inserts states after) :
    ∀ q ∈ after, q.toNat < setting.table.stateCount := by
  induction hinserts with
  | refl => exact hstates
  | insert _ _ hafter ih => exact h.table.lt_of_mem_consume ih hafter

theorem lt_of_lexesAt (hold : setting.KnowsOld old) {state : StateId}
    (hstate : setting.LexesAt old state) : state.toNat < setting.table.stateCount := by
  cases hstate with
  | resumed hv popped =>
      exact ((h.inRange_of_reached hold hv).stack.of_subset (List.drop_subset popped _)).state_lt
  | @inserted v hv states hstates =>
      have hall := h.lt_of_inserts (h.inRange_of_reached hold hv).stack.structuralStates_lt hstates
      cases states with
      | nil => exact h.table.startState
      | cons top rest => exact hall top List.mem_cons_self

theorem has_of_seesToken (hv : v.InRange setting.table) (hs : setting.SeesToken v s) :
    setting.table.Has s := by
  cases hs with
  | lookahead tree htree => exact (hv.lookahead tree htree).has
  | upcoming position mode => exact h.has_lex position mode

/-- All that is looked up in the course of a parse is there. -/
theorem inBounds_of_looksUp (hold : setting.KnowsOld old) (hk : setting.LooksUp old k) :
    k.InBounds setting.language := by
  cases hk with
  | base hp hk => exact Table.IsClosed.inBounds_ofInfo (.inr (h.table.productions _ hp)) hk
  | lexMode hstate => exact h.table.inBounds_stateMode (h.lt_of_lexesAt hold hstate)
  | lex hstate hk => exact Lexer.inBounds_of_looksUp h.lexer h.table (h.table.lexMode_lt _) hk
  | upcoming hk =>
      have hmode : LexMode.error.toNat < setting.table.lexModes.size := h.table.size_lexModes
      exact Lexer.inBounds_of_looksUp h.lexer h.table hmode hk
  | leaf position mode hk => exact Table.IsClosed.inBounds_ofInfo (h.has_lex position mode) hk
  | reuse hv hstart hcursor htree hk =>
      have hstate := (h.inRange_of_reached hold hv).stack.state_lt
      have hfirst := (hcursor.known (hold _ hstart) _ (List.mem_of_mem_head? htree)).has_firstLeaf
      rcases List.mem_cons.1 hk with rfl | hk
      · exact h.table.inBounds_stateMode hstate
      · rcases List.mem_append.1 hk with hk | hk
        · exact Table.IsClosed.inBounds_ofInfo hfirst hk
        · exact h.table.inBounds_ofEntry hstate hfirst hk
  | act hv htree hs hk =>
      have hrange := h.inRange_of_reached hold hv
      have hknown := hrange.lookahead _ htree
      refine h.table.inBounds_actionLookups hrange.stack.state_lt ?_ hk
      rcases hs with rfl | rfl
      · exact hknown.has
      · exact hknown.has_firstLeaf
  | reduce hv hs haction hk =>
      exact h.inBounds_reduceLookups (h.inRange_of_reached hold hv).stack
        (h.table.lt_of_reduce haction) hk
  | breakPending hv hk => exact h.inBounds_breakLookups (h.inRange_of_reached hold hv).stack hk
  | search hv hstates hs hk =>
      have hrange := h.inRange_of_reached hold hv
      refine h.table.inBounds_consumeLookups
        (h.lt_of_inserts hrange.stack.structuralStates_lt hstates) ?_ hk
      exact hs.elim h.has_of_insertable (h.has_of_seesToken hrange)
  | resume hv popped hs hk =>
      have hrange := h.inRange_of_reached hold hv
      exact h.table.inBounds_consumeLookups
        (hrange.stack.of_subset (List.drop_subset popped _)).structuralStates_lt
        (h.has_of_seesToken hrange hs) hk
  | missing hv hs hk =>
      have hstate := (h.inRange_of_reached hold hv).stack.state_lt
      have hsymbol := h.has_of_insertable hs
      rcases List.mem_cons.1 hk with rfl | hk
      · exact h.table.inBounds_stateMode hstate
      · rcases List.mem_append.1 hk with hk | hk
        · exact h.table.inBounds_actionLookups hstate hsymbol hk
        · exact Table.IsClosed.inBounds_ofInfo hsymbol hk
  | root hv id hk =>
      exact h.inBounds_rootLookups (h.inRange_of_reached hold hv).stack.trees_known id hk
  | emptyRoot id hk => exact h.inBounds_rootLookups (fun t ht => absurd ht List.not_mem_nil) id hk

/-! ### Roots -/

theorem known_buildRoot (htrees : ∀ t ∈ trees, t.Known setting.table) {tail : List Subtree}
    (htail : ∀ t ∈ tail, t.Known setting.table) (id : Nat) (trailing : Length) :
    (setting.buildRoot id trees tail trailing).1.Known setting.table := by
  have hbalanced := Subtree.Known.balanceWhere h.inRange_bases (fun _ => true) id htrees
  have hroot : ∀ (id : Nat) (children : List Subtree) (production : Option ProductionId)
      (padding size : Length), (∀ t ∈ children, t.Known setting.table) →
      (∀ p ∈ production, p.toNat < setting.table.productions.size) →
      let root := Subtree.interior setting.table id setting.table.startSymbol (children ++ tail)
        production false
      (Subtree.mk { root.head with padding := padding, size := size } root.children).Known
        setting.table := by
    intro id children production padding size hchildren hproduction
    have hknown := Subtree.Known.interior id false (.inr h.table.startSymbol) hproduction
      (List.forall_mem_append.2 ⟨hchildren, htail⟩)
    exact .mk _ _ hknown.has hknown.has_firstLeaf hknown.production_lt hknown.child
  have hnone : ∀ p ∈ (none : Option ProductionId), p.toNat < setting.table.productions.size :=
    fun p hp => absurd hp (Option.not_mem_none p)
  rw [buildRoot]
  simp only
  generalize (balanceWhere setting.table setting.bases (fun _ => true) id trees).1 = balanced
    at hbalanced ⊢
  cases hsole : soleStart? setting.table.startSymbol balanced with
  | some found =>
      obtain ⟨before, t, after⟩ := found
      obtain ⟨rfl, _⟩ := soleStart?_spec hsole
      obtain ⟨hbefore, hrest⟩ := List.forall_mem_append.1 hbalanced
      obtain ⟨ht, hafter⟩ := List.forall_mem_cons.1 hrest
      refine hroot _ _ _ _ _ ?_ ht.production_lt
      exact List.forall_mem_append.2 ⟨List.forall_mem_append.2 ⟨hbefore, ht.child⟩, hafter⟩
  | none =>
      simp only
      split
      · exact hroot _ _ _ _ _ (List.forall_mem_singleton.2 (.ofSkipped _ hbalanced)) hnone
      · exact hroot _ _ _ _ _ hbalanced hnone

theorem known_of_ends (hold : setting.KnowsOld old) {tree : Tree} (hends : setting.Ends old tree) :
    tree.root.Known setting.table := by
  have hnil : ∀ t ∈ ([] : List Subtree), t.Known setting.table :=
    fun t ht => absurd ht List.not_mem_nil
  cases hends with
  | accepted v a id hv haccepted =>
      refine h.known_buildRoot ?_ hnil id a.trailing
      rw [haccepted.trees]
      exact (h.inRange_of_reached hold hv).stack.trees_known
  | stopped v id status hv =>
      refine h.known_buildRoot (h.inRange_of_reached hold hv).stack.trees_known ?_ _ _
      intro t ht
      rw [remainder] at ht
      split at ht
      · rw [List.mem_singleton.1 ht]
        exact .ofToken _ _ (.inl rfl)
      · cases ht
  | nothing id => exact h.known_buildRoot hnil hnil id _

end IsClosed

end ParseSetting

/-! ### Languages -/

variable {l : Language} {scanner : Option ExternalScanner} {number : Nat} {p : Parser}
  {old : Option Tree}

theorem Parser.setting_isClosed (ht : l.table.IsClosed) (hlexer : l.lexer.MadeFrom l.table)
    (hp : p.language = { l with scanner := scanner, id := number })
    (hbases : p.bases = RepetitionBases.ofTable l.table) (text : ByteArray) :
    (p.setting text).IsClosed := by
  obtain ⟨language, options, strategy, cancelled, bases⟩ := p
  simp only at hp hbases
  subst hp hbases
  exact ⟨ht, hlexer, rfl⟩

theorem Parser.knowsOld_cursor? (hold : ∀ tree ∈ old, tree.language.isSame p.language = true →
      tree.root.Known p.language.table) (text : ByteArray) :
    (p.setting text).KnowsOld (p.cursor? old) :=
  Parser.forall_cursor? fun tree htree hsame => List.forall_mem_singleton.2 (hold tree htree hsame)

theorem Tree.Made.known (ht : l.table.IsClosed) (hlexer : l.lexer.MadeFrom l.table) {tree : Tree}
    (h : tree.Made { l with scanner := scanner, id := number }) : tree.root.Known l.table := by
  induction h with
  | parse p text old id hp hbases _ ih =>
      have hclosed := Parser.setting_isClosed ht hlexer hp hbases text
      have htable : p.language.table = l.table := by rw [hp]
      rw [← hp] at ih
      rw [← htable] at ih ⊢
      exact hclosed.known_of_ends (Parser.knowsOld_cursor? ih text) (p.ends_parse text old id)
  | edit tree change id _ ih =>
      have hknown := ih.edit (RelativeEdit.ofInput change) id
      exact .mk _ _ hknown.has hknown.has_firstLeaf hknown.production_lt hknown.child

/-- Making the lexer of a language, and any parse, look up nothing that is not there. The tree of an
earlier parse may be used, also when it was edited. -/
structure Language.LooksUpInBounds (l : Language) : Prop where
  lexer : ∀ k ∈ Lexer.buildLookups l.table, k.InBounds l
  parse : ∀ (scanner : Option ExternalScanner) (number : Nat) (p : Parser) (old : Option Tree)
    (text : ByteArray) (k : Lookup), p.language = { l with scanner := scanner, id := number } →
    p.bases = RepetitionBases.ofTable l.table →
    (∀ tree ∈ old, tree.language.isSame p.language = true → tree.Made p.language) →
    (p.setting text).LooksUp (p.cursor? old) k → k.InBounds p.language

theorem Language.looksUpInBounds_of_isClosed (ht : l.table.IsClosed)
    (hlexer : l.lexer.MadeFrom l.table) : l.LooksUpInBounds := by
  refine ⟨fun k hk => Lexer.inBounds_buildLookups hlexer ht hk, ?_⟩
  intro scanner number p old text k hp hbases hold hk
  have htable : p.language.table = l.table := by rw [hp]
  refine (Parser.setting_isClosed ht hlexer hp hbases text).inBounds_of_looksUp
    (Parser.knowsOld_cursor? (fun tree htree hsame => ?_) text) hk
  rw [htable]
  exact Tree.Made.known ht hlexer (hp ▸ hold tree htree hsame)

/-- The numbers of a compiled table that are not checked when it is read are in range. -/
theorem Table.uncheckedInRange_of_compile {g : Grammar} (hg : g.WellFormed)
    {policy : ConflictPolicy} {t : Table} (h : Table.compile g policy = .ok t) :
    t.UncheckedInRange := by
  rw [Table.compile] at h
  obtain ⟨rows, hrows, h⟩ := exists_of_bind_eq_ok h
  cases h
  have hmodes := Compile.lexModesInRange hg rows.actions (KernelFollows.states g).kernels.size
  exact {
    tokens := fun token htoken => (hg.tokens token htoken).2
    keywords := fun k hk => (hg.keywords k (List.mem_toArray.1 hk)).2
    lexModes := hmodes.symbols
    breakdown := by
      intro entry hentry
      obtain ⟨cell, hcell, target, htarget, rfl⟩ :=
        (Compile.inOrder_buildRows hg hrows).lost entry (List.mem_reverse.1 hentry)
      obtain ⟨q, _, hcell⟩ := List.mem_flatMap.1 hcell
      obtain ⟨i, _, rfl⟩ := Compile.mem_terminalCells.1 hcell
      exact toNat_toUInt32_lt ((Compile.inRange_offerOf hg q).edges _ target htarget) }

/-- Bytes are refused as a table, or they are a language. If the lexer of that has only terminals and
lost shifts lead to states, nothing that it looks up is out of bounds. -/
theorem Language.looksUpInBounds_ofBytes (bytes : List UInt8) :
    (∃ cause, Language.ofBytes bytes = .error (.invalidTable cause)) ∨
      ∃ l, Language.ofBytes bytes = .ok l ∧ (l.table.UncheckedInRange → l.LooksUpInBounds) := by
  rw [Language.ofBytes]
  cases hdecode : Table.decode bytes with
  | error cause => exact .inl ⟨cause, rfl⟩
  | ok t =>
      simp only [Except.mapError, bind, Except.bind]
      rw [Language.ofTable]
      cases hlexer : Lexer.ofTable t with
      | error cause => exact .inl ⟨cause, rfl⟩
      | ok lexer =>
          refine .inr ⟨_, rfl, fun hunchecked => ?_⟩
          exact Language.looksUpInBounds_of_isClosed (Table.isClosed_of_decode hdecode hunchecked)
            (Lexer.madeFrom_ofTable hlexer)

/-- The table of a grammar with one optional token is stored and read back. -/
theorem looksUpInBounds_optionalToken : ∃ t l, Table.compile .optionalToken .strict = .ok t ∧
    Language.ofBytes (Table.encode t) = .ok l ∧ l.LooksUpInBounds := by
  obtain ⟨t, ht, _⟩ := exists_compile_optionalToken
  obtain ⟨hfits, hproblem⟩ := (obtained_optionalToken ht).fits
  have hdecode := Table.decode_encode_of_fits hfits hproblem
  have hunchecked :=
    Table.uncheckedInRange_of_compile (Grammar.load_wellFormed load_optionalToken) ht
  obtain ⟨loaded, hloaded, rfl⟩ := Language.exists_load load_optionalToken ht (by decide +kernel)
  obtain ⟨g, _, hlexer⟩ := Language.exists_compiledFrom_of_load hloaded
  have hread : Language.ofBytes (Table.encode loaded.table)
      = .ok { table := loaded.table, lexer := loaded.lexer, warnings := [] } := by
    rw [Language.ofBytes, hdecode]
    simp only [Except.mapError, bind, Except.bind]
    rw [Language.ofTable, hlexer.lexer]
    rfl
  rcases Language.looksUpInBounds_ofBytes (Table.encode loaded.table)
    with ⟨cause, hcause⟩ | ⟨l, hl, hsafe⟩
  · rw [hread] at hcause
    cases hcause
  · rw [hread, Except.ok.injEq] at hl
    subst hl
    exact ⟨loaded.table, _, ht, hread, hsafe hunchecked⟩

end IncrementalLR
