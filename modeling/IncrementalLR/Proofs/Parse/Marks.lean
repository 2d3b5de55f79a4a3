import IncrementalLR.Proofs.Parse.Productions
import IncrementalLR.Proofs.Tree.Applied

/-!
# Marks of errors

A node is marked when it is skipped text or one of its children is marked. Balancing a repetition
takes nodes apart and puts others together, and no mark is lost or added. A version whose stack has a
marked subtree keeps one through all that is done to it: reductions take marked subtrees into marked
nodes, and what is taken off becomes skipped text. In a fresh parse no node is ever taken apart again.
-/

namespace IncrementalLR

/-! ### Nodes -/

section Nodes

open Subtree (interior unchain joinPairs joinBalanced balance balanceWhere chainBase? anyError)

variable {table : Table} {bases : RepetitionBases} {t : Subtree} {trees rest : List Subtree}
  {s : Symbol}

@[simp] theorem anyError_nil : anyError [] = false := rfl

@[simp] theorem anyError_cons : anyError (t :: rest) = (t.flags.hasError || anyError rest) := rfl

@[simp] theorem anyError_append : anyError (trees ++ rest) = (anyError trees || anyError rest) :=
  List.any_append

theorem anyError_of_mem (ht : t ∈ trees) (herror : t.flags.hasError = true) :
    anyError trees = true :=
  List.any_eq_true.2 ⟨t, ht, herror⟩

theorem hasError_interior_of_ne (id : Nat) (production : Option ProductionId) (fragile : Bool)
    (hs : s ≠ Symbol.error) :
    (interior table id s trees production fragile).flags.hasError = anyError trees := by
  rw [Subtree.hasError_interior, beq_eq_false_iff_ne.2 hs, Bool.false_or]

/-- A node with children has the marks of its children. -/
theorem Applied.hasError_of_cons (h : Applied table t) {first : Subtree}
    (hchildren : t.children = first :: rest) (hs : t.symbol ≠ Symbol.error) :
    t.flags.hasError = (first.flags.hasError || anyError rest) := by
  cases h with
  | leaf _ h =>
      rw [h.children] at hchildren
      cases hchildren
  | node _ h =>
      rw [h.errors, hchildren, beq_eq_false_iff_ne.2 hs]
      rfl

theorem anyError_unchain (hbases : bases.FitTable table) (id : Nat) (parts : List Subtree)
    (h : IsPart table s t) :
    anyError (unchain table bases id parts t).1 = (t.flags.hasError || anyError parts) := by
  fun_induction unchain table bases id parts t with
  | case1 id parts head => rfl
  | case2 id parts head first rest _ => rfl
  | case3 id parts head first rest base hbase part ih =>
      obtain ⟨hauxiliary, _, hlinks⟩ := chainBase?_spec hbases h.1 hbase
      obtain ⟨hfirst, _⟩ := hlinks first rest rfl
      obtain rfl : (Subtree.mk head (first :: rest)).symbol = s := (Prod.mk.inj h.2).2
      have hne := hauxiliary.ne_error
      have hpart : part.flags.hasError = anyError rest := hasError_interior_of_ne id _ _ hne
      rw [ih hfirst, anyError_cons, hpart, h.1.hasError_of_cons rfl hne, Bool.or_assoc]

theorem anyError_joinPairs (id : Nat) (hs : s ≠ Symbol.error) (trees : List Subtree) :
    anyError (joinPairs table s id trees).1 = anyError trees := by
  fun_induction joinPairs table s id trees with
  | case1 id left right rest node joined next heq ih =>
      have hnode : node.flags.hasError = anyError [left, right] :=
        hasError_interior_of_ne id _ _ hs
      rw [heq] at ih
      rw [anyError_cons, hnode, ih, ← anyError_append]
      rfl
  | case2 => rfl
  | case3 => rfl

theorem hasError_joinBalanced (id : Nat) (hs : s ≠ Symbol.error) (first : Subtree)
    (rest : List Subtree) :
    (joinBalanced table s id first rest).1.flags.hasError = anyError (first :: rest) := by
  fun_induction joinBalanced table s id first rest with
  | case1 id first => simp
  | case2 id first second rest node ih =>
      have hnode : node.flags.hasError = anyError [first, second] :=
        hasError_interior_of_ne id _ _ hs
      rw [ih, anyError_cons, hnode, anyError_joinPairs _ hs, ← anyError_append]
      rfl

theorem hasError_balance (hbases : bases.FitTable table) (id : Nat) (h : Applied table t) :
    (balance table bases id t).1.flags.hasError = t.flags.hasError := by
  rw [balance]
  cases hbase : chainBase? bases t with
  | none => rfl
  | some base =>
      obtain ⟨hauxiliary, hself, _⟩ := chainBase?_spec hbases h hbase
      have hparts := anyError_unchain hbases id [] hself
      simp only
      split
      · rfl
      · rename_i first rest next hunchain
        rw [hunchain] at hparts
        rw [hasError_joinBalanced next hauxiliary.ne_error, hparts, anyError_nil, Bool.or_false]

theorem anyError_balanceWhere (hbases : bases.FitTable table) (condition : Subtree → Bool) (id : Nat)
    (h : ∀ t ∈ trees, Applied table t) :
    anyError (balanceWhere table bases condition id trees).1 = anyError trees := by
  induction trees generalizing id with
  | nil => rfl
  | cons t rest ih =>
      obtain ⟨ht, hrest⟩ := List.forall_mem_cons.1 h
      rw [balanceWhere]
      simp only [anyError_cons]
      rw [ih _ hrest]
      split
      · rw [hasError_balance hbases id ht]
      · rfl

theorem hasError_ofSkipped (id : Nat) (trees : List Subtree) :
    (Subtree.ofSkipped table id trees).flags.hasError = true := by
  rw [Subtree.ofSkipped, Subtree.hasError_interior]
  rfl

end Nodes

/-! ### Stacks -/

open Subtree (anyError interior)

/-- A subtree of the stack is or contains skipped text or a missing token. -/
def Stack.hasError (s : Stack) : Bool := anyError (s.frames.map (·.tree))

/-- No frame is pending. -/
def Stack.Settled (s : Stack) : Prop := ∀ frame ∈ s.frames, frame.pending = false

/-- Without an old tree lookaheads are tokens and no frame is pending. -/
structure Version.IsFresh (v : Version) : Prop where
  lookahead : ∀ t ∈ v.lookahead, t.isLeaf = true
  settled : v.stack.Settled

namespace Stack

variable {table : Table} {s : Stack} {t : Subtree} {trees : List Subtree} {state : StateId}

@[simp] theorem hasError_push (pending : Bool) :
    (s.push state t pending).hasError = (t.flags.hasError || s.hasError) := rfl

theorem hasError_push_of_hasError (pending : Bool) (h : s.hasError = true) :
    (s.push state t pending).hasError = true := by
  rw [hasError_push, h, Bool.or_true]

@[simp] theorem hasError_pushAll :
    (s.pushAll state trees).hasError = (anyError trees || s.hasError) := by
  induction trees generalizing s with
  | nil => rfl
  | cons t rest ih =>
      have hrest : (s.pushAll state (t :: rest)) = (s.push state t false).pushAll state rest := rfl
      rw [hrest, ih, hasError_push, anyError_cons, ← Bool.or_assoc,
        Bool.or_comm (anyError rest) t.flags.hasError]

theorem anyError_trees (s : Stack) : anyError s.trees = s.hasError :=
  List.any_reverse

theorem hasError_popTrailing (s : Stack) :
    s.hasError = (anyError s.popTrailing.1 || s.popTrailing.2.hasError) := by
  have hsplit := List.takeWhile_append_dropWhile (p := fun frame : Frame => !frame.tree.isStructural)
    (l := s.frames)
  have htrailing : anyError s.popTrailing.1
      = anyError ((s.frames.takeWhile (!·.tree.isStructural)).map (·.tree)) := by
    rw [popTrailing, List.map_reverse]
    exact List.any_reverse
  rw [htrailing, hasError, hasError, popTrailing, ← anyError_append, ← List.map_append, hsplit]

theorem hasError_popStructural (s : Stack) (count : Nat) :
    s.hasError = (anyError (s.popStructural count).1 || (s.popStructural count).2.hasError) := by
  obtain ⟨htrees, _⟩ := popFrames_spec count s.frames []
  have hall := congrArg anyError htrees
  rw [List.append_nil, anyError_append, Bool.or_comm] at hall
  rw [← anyError_trees, ← anyError_trees]
  exact hall

theorem hasError_drop (s : Stack) (count : Nat) :
    s.hasError = (anyError ((s.frames.take count).map (·.tree)).reverse ||
      { s with frames := s.frames.drop count }.hasError) := by
  have htaken : anyError ((s.frames.take count).map (·.tree)).reverse
      = anyError ((s.frames.take count).map (·.tree)) := List.any_reverse
  rw [htaken, hasError, hasError, ← anyError_append, ← List.map_append, List.take_append_drop]

theorem Settled.push (h : s.Settled) : (s.push state t false).Settled :=
  List.forall_mem_cons.2 ⟨rfl, h⟩

theorem Settled.pushAll (h : s.Settled) : (s.pushAll state trees).Settled := by
  induction trees generalizing s with
  | nil => exact h
  | cons t rest ih => exact ih h.push

theorem Settled.of_suffix (h : s.Settled) {frames : List Frame} (hsuffix : frames <:+ s.frames) :
    { s with frames := frames }.Settled :=
  fun frame hframe => h frame (hsuffix.subset hframe)

end Stack

namespace ParseSetting

variable {g : Grammar} {policy : ConflictPolicy} {setting : ParseSetting} {v v' : Version}
  {s : Stack}

/-- The new node has the marks of what it is over, and the trees behind it stay. -/
theorem hasError_reduceStack (hbases : setting.bases.FitTable setting.table)
    (hpath : s.Path g setting.table) (forked : Bool) (p : ProductionId) (id : Nat)
    (herror : s.hasError = true) : (setting.reduceStack forked p id s).1.hasError = true := by
  have hrest : s.popTrailing.2.Path g setting.table := hpath.of_suffix (List.dropWhile_suffix _)
  have happlied := hrest.applied_popStructural (setting.table.production p).rhs.size
  have hchildren := anyError_balanceWhere hbases (·.symbol != (setting.table.production p).lhs) id
    happlied
  rw [s.hasError_popTrailing,
    s.popTrailing.2.hasError_popStructural (setting.table.production p).rhs.size, ← hchildren]
    at herror
  rw [reduceStack]
  simp only
  split
  · rw [Stack.hasError_pushAll, Stack.hasError_push, Subtree.hasError_interior]
    simp only [Bool.or_eq_true] at herror ⊢
    tauto
  · rw [Stack.hasError_push, hasError_ofSkipped, Bool.true_or]

theorem hasError_skipVersion {tokens : List Subtree} {popped skipped id : Nat} {relexed : Subtree}
    (herror : v.stack.hasError = true ∨ ((v.stack.frames.take popped).map (·.tree)).reverse ++
      tokens.take skipped ≠ []) :
    (setting.skipVersion v tokens popped skipped id relexed).stack.hasError = true := by
  rw [skipVersion]
  simp only
  split
  · rename_i hempty
    have hnil := List.isEmpty_iff.1 hempty
    rcases herror with herror | hne
    · rw [v.stack.hasError_drop popped, (List.append_eq_nil_iff.1 hnil).1] at herror
      exact herror
    · exact absurd hnil hne
  · rw [Stack.hasError_push, hasError_ofSkipped, Bool.true_or]

/-! ### Fresh parses -/

theorem breakPending_of_settled {table : Table} (h : s.Settled) :
    breakPending table s = (false, s) := by
  rw [breakPending]
  split
  · rfl
  · rename_i top below hframes
    rw [Stack.Settled, hframes] at h
    rw [if_neg (by simp [h top List.mem_cons_self])]

theorem settled_reduceStack (h : s.Settled) (forked : Bool) (p : ProductionId) (id : Nat) :
    (setting.reduceStack forked p id s).1.Settled := by
  have hrest : s.popTrailing.2.Settled := h.of_suffix (List.dropWhile_suffix _)
  have hbelow := hrest.of_suffix
    (Stack.suffix_popFrames (setting.table.production p).rhs.size s.popTrailing.2.frames [])
  rw [reduceStack]
  simp only
  split
  · exact Stack.Settled.pushAll (Stack.Settled.push hbelow)
  · exact Stack.Settled.push hbelow

theorem isFresh_of_reached (h : setting.Reached none v) : v.IsFresh := by
  have hnothing : ∀ t ∈ (none : Option Subtree), t.isLeaf = true :=
    fun t ht => absurd ht (Option.not_mem_none t)
  induction h with
  | start => exact ⟨hnothing, fun _ h => absurd h List.not_mem_nil⟩
  | move v v' _ hmove ih =>
      have hlex : ∀ {position : Nat} {mode : LexMode} {tree : Subtree},
          setting.Lexes position mode tree → ∀ t ∈ some tree, t.isLeaf = true := by
        rintro position mode tree ⟨id, rfl⟩ _ ⟨⟩
        rfl
      cases hmove with
      | lex mode tree htree => exact ⟨hlex htree, ih.settled⟩
      | reuse start cursor tree hstart => cases hstart
      | enter => exact ⟨hnothing, ih.settled⟩
      | reduce s p forked id => exact ⟨ih.lookahead, settled_reduceStack ih.settled forked p id⟩
      | shift => exact ⟨hnothing, ih.settled.push⟩
      | shiftExtra => exact ⟨hnothing, ih.settled.push⟩
      | shiftReused lookahead target next hlookahead hnode =>
          rw [ih.lookahead lookahead hlookahead] at hnode
          cases hnode
      | breakPending =>
          rw [breakPending_of_settled ih.settled]
          exact ih
      | missing => exact ⟨ih.lookahead, ih.settled.push⟩
      | skip lookahead relexed more popped skipped id mode _ _ _ hrelexed =>
          refine ⟨hlex hrelexed, ?_⟩
          have hresumed := ih.settled.of_suffix (List.drop_suffix popped v.stack.frames)
          rw [skipVersion]
          simp only
          split
          · exact hresumed
          · exact Stack.Settled.push hresumed
      | skipLookahead => exact ⟨hnothing, ih.settled.push⟩

theorem CompiledFrom.onPath_of_fresh (h : setting.CompiledFrom g policy)
    (hv : setting.Reached none v) : v.OnPath g setting.table :=
  h.onPath_of_reached (fun start hstart => absurd hstart (Option.not_mem_none start)) hv

/-- No move of a fresh parse loses the mark of a version. -/
theorem CompiledFrom.hasError_of_moves (h : setting.CompiledFrom g policy)
    (hv : setting.Reached none v) (herror : v.stack.hasError = true)
    (hmove : setting.Moves none v v') : v'.stack.hasError = true := by
  have hfresh := isFresh_of_reached hv
  have hpath := (h.onPath_of_fresh hv).stack
  cases hmove with
  | lex => exact herror
  | reuse => exact herror
  | enter => exact herror
  | reduce s p forked id => exact hasError_reduceStack h.fitTable hpath forked p id herror
  | shift => exact Stack.hasError_push_of_hasError _ herror
  | shiftExtra => exact Stack.hasError_push_of_hasError _ herror
  | shiftReused => exact Stack.hasError_push_of_hasError _ herror
  | breakPending =>
      rw [breakPending_of_settled hfresh.settled]
      exact herror
  | missing => exact Stack.hasError_push_of_hasError _ herror
  | skip => exact hasError_skipVersion (.inl herror)
  | skipLookahead => exact Stack.hasError_push_of_hasError _ herror

end ParseSetting

end IncrementalLR
