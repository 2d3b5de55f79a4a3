import IncrementalLR.Proofs.Parse.Moves
import IncrementalLR.Proofs.Tree.Leaves

/-!
# Stacks over a text

The subtrees of a stack cover a text, one after the other. Reductions, breaking up pending nodes and
skipping subtrees move them into other nodes, and the stack still covers the same text, by the same
leaves.
-/

namespace IncrementalLR

/-- The subtrees of the stack cover the text, and nodes are the only pending ones. -/
structure Stack.Tiles (table : Table) (s : Stack) (w : List UInt8) : Prop where
  trees : CoversAll table s.trees w
  pending : ∀ frame ∈ s.frames, frame.pending = true → frame.tree.isLeaf = false

namespace Stack

variable {table : Table} {s rest : Stack} {t : Subtree} {trees : List Subtree} {u w : List UInt8}

/-! ### Pushing -/

theorem trees_push (s : Stack) (state : StateId) (t : Subtree) (pending : Bool) :
    (s.push state t pending).trees = s.trees ++ [t] := by
  rw [trees, push, List.map_cons, List.reverse_cons]
  rfl

theorem trees_pushAll (s : Stack) (state : StateId) (trees : List Subtree) :
    (s.pushAll state trees).trees = s.trees ++ trees := by
  induction trees generalizing s with
  | nil => exact (List.append_nil _).symm
  | cons t trees ih =>
      refine (ih (s.push state t false)).trans ?_
      rw [trees_push, List.append_assoc]
      rfl

theorem Tiles.push (h : s.Tiles table w) (ht : Covers table t u) (state : StateId) (pending : Bool)
    (hpending : pending = true → t.isLeaf = false) : (s.push state t pending).Tiles table (w ++ u) := by
  refine ⟨?_, ?_⟩
  · rw [trees_push]
    exact h.trees.append (coversAll_singleton ht)
  · intro frame hframe
    rcases List.mem_cons.1 hframe with rfl | hframe
    · exact hpending
    · exact h.pending frame hframe

theorem Tiles.pushAll (h : s.Tiles table w) (hall : CoversAll table trees u) (state : StateId) :
    (s.pushAll state trees).Tiles table (w ++ u) := by
  induction trees generalizing s w u with
  | nil =>
      cases hall
      rw [List.append_nil]
      exact h
  | cons t trees ih =>
      obtain _ | ⟨_, _, x, y, ht, hall⟩ := hall
      rw [← List.append_assoc]
      exact ih (h.push ht state false nofun) hall

/-! ### Popping -/

/-- A stack that is left when others are taken off covers the beginning of the text. -/
theorem Tiles.of_append (h : s.Tiles table w) (htrees : s.trees = rest.trees ++ trees)
    (hframes : ∀ frame ∈ rest.frames, frame ∈ s.frames) :
    ∃ u v, w = u ++ v ∧ rest.Tiles table u ∧ CoversAll table trees v := by
  have hall := h.trees
  rw [htrees] at hall
  obtain ⟨u, v, heq, hrest, htaken⟩ := hall.exists_of_append
  exact ⟨u, v, heq, ⟨hrest, fun frame hframe => h.pending frame (hframes frame hframe)⟩, htaken⟩

theorem trees_of_cons {top : Frame} {below : List Frame} (hframes : s.frames = top :: below) :
    s.trees = { s with frames := below }.trees ++ [top.tree] := by
  rw [Stack.trees, hframes, List.map_cons, List.reverse_cons]
  rfl

theorem Tiles.pop (h : s.Tiles table w) {top : Frame} {below : List Frame}
    (hframes : s.frames = top :: below) :
    ∃ u v, w = u ++ v ∧ { s with frames := below }.Tiles table u ∧ Covers table top.tree v := by
  obtain ⟨u, v, heq, hbelow, htop⟩ := h.of_append (trees_of_cons hframes) (by
    intro frame hframe
    rw [hframes]
    exact List.mem_cons_of_mem top hframe)
  exact ⟨u, v, heq, hbelow, covers_of_coversAll_singleton htop⟩

theorem trees_popTrailing (s : Stack) : s.trees = s.popTrailing.2.trees ++ s.popTrailing.1 := by
  have htrees : s.trees
      = ((s.frames.takeWhile (!·.tree.isStructural) ++
          s.frames.dropWhile (!·.tree.isStructural)).map (·.tree)).reverse := by
    rw [List.takeWhile_append_dropWhile]
    rfl
  rw [htrees, List.map_append, List.reverse_append, Stack.popTrailing, List.map_reverse]
  rfl

theorem Tiles.popTrailing (h : s.Tiles table w) :
    ∃ u v, w = u ++ v ∧ s.popTrailing.2.Tiles table u ∧ CoversAll table s.popTrailing.1 v :=
  h.of_append s.trees_popTrailing fun _ hframe => (List.dropWhile_sublist _).subset hframe

theorem popFrames_spec (count : Nat) (frames : List Frame) (taken : List Subtree) :
    (frames.map (·.tree)).reverse ++ taken
        = ((popFrames count frames taken).2.map (·.tree)).reverse ++ (popFrames count frames taken).1 ∧
      ∀ frame ∈ (popFrames count frames taken).2, frame ∈ frames := by
  fun_induction popFrames count frames taken with
  | case1 frames taken => exact ⟨rfl, fun _ h => h⟩
  | case2 count taken => exact ⟨rfl, fun _ h => h⟩
  | case3 count top below taken ih =>
      obtain ⟨htrees, hframes⟩ := ih
      refine ⟨?_, fun frame hframe => List.mem_cons_of_mem top (hframes frame hframe)⟩
      rw [← htrees]
      simp

theorem trees_popStructural (s : Stack) (count : Nat) :
    s.trees = (s.popStructural count).2.trees ++ (s.popStructural count).1 := by
  obtain ⟨htrees, _⟩ := popFrames_spec count s.frames []
  rw [List.append_nil] at htrees
  exact htrees

theorem Tiles.popStructural (h : s.Tiles table w) (count : Nat) :
    ∃ u v, w = u ++ v ∧ (s.popStructural count).2.Tiles table u ∧
      CoversAll table (s.popStructural count).1 v :=
  h.of_append (s.trees_popStructural count) (popFrames_spec count s.frames []).2

theorem trees_drop (s : Stack) (count : Nat) :
    s.trees = { s with frames := s.frames.drop count }.trees ++
      ((s.frames.take count).map (·.tree)).reverse := by
  rw [Stack.trees, Stack.trees, ← List.reverse_append, ← List.map_append, List.take_append_drop]

/-- Frames taken off the top. -/
theorem Tiles.drop (h : s.Tiles table w) (count : Nat) :
    ∃ u v, w = u ++ v ∧ { s with frames := s.frames.drop count }.Tiles table u ∧
      CoversAll table ((s.frames.take count).map (·.tree)).reverse v :=
  h.of_append (s.trees_drop count) fun _ hframe => List.mem_of_mem_drop hframe

end Stack

namespace ParseSetting

variable {setting : ParseSetting} {s : Stack} {t : Subtree} {trees : List Subtree}
  {u w : List UInt8}

open Stack (Tiles)

open Subtree (leavesAll)

/-! ### Operations -/

theorem tiles_reduceStack (h : s.Tiles setting.table w) (forked : Bool) (p : ProductionId)
    (id : Nat) : (setting.reduceStack forked p id s).1.Tiles setting.table w := by
  obtain ⟨x, y, rfl, hrest, htrailing⟩ := h.popTrailing
  obtain ⟨u, v, rfl, hbelow, hchildren⟩ :=
    hrest.popStructural (setting.table.production p).rhs.size
  have hbalanced := coversAll_balanceWhere setting.bases
    (·.symbol != (setting.table.production p).lhs) id hchildren
  have hnode := fun id fragile => Covers.interior id (setting.table.production p).lhs _ (some p)
    fragile v hbalanced
  rw [reduceStack]
  simp only
  split
  · exact (hbelow.push (hnode _ _) _ false nofun).pushAll htrailing _
  · rw [List.append_assoc]
    exact hbelow.push
      ((CoversAll.cons _ _ v y (hnode _ _) htrailing).covers_ofSkipped _) _ false nofun

theorem tiles_pushPending {table : Table} (h : s.Tiles table w) {pushes : List (StateId × Subtree)}
    (hall : CoversAll table (pushes.map (·.2)) u) : (pushPending s pushes).Tiles table (w ++ u) := by
  induction pushes generalizing s w u with
  | nil =>
      cases hall
      rw [List.append_nil]
      exact h
  | cons push pushes ih =>
      obtain _ | ⟨_, _, x, y, ht, hall⟩ := hall
      rw [← List.append_assoc]
      exact ih (h.push ht push.1 _ (by simp)) hall

theorem tiles_breakPending {table : Table} (h : s.Tiles table w) :
    (breakPending table s).2.Tiles table w := by
  fun_induction breakPending table s with
  | case1 => exact h
  | case2 =>
      rename_i s top below hframes _ rest _ state
      obtain ⟨u, v, rfl, hbelow, htop⟩ := h.pop hframes
      exact hbelow.push htop state false nofun
  | case3 =>
      rename_i s top below hframes hpending rest pushes hpushes ih
      refine ih ?_
      obtain ⟨u, v, rfl, hbelow, htop⟩ := h.pop hframes
      have hnode : top.tree.isLeaf = false :=
        h.pending top (by rw [hframes]; exact List.mem_cons_self) hpending
      refine tiles_pushPending hbelow ?_
      rw [map_snd_of_childStates? hpushes]
      exact htop.coversAll_children hnode
  | case4 => exact h

/-- Subtrees taken off and tokens passed become skipped text on the stack. -/
theorem tiles_skipVersion {v : Version} (h : v.stack.Tiles setting.table w) {tokens : List Subtree}
    (popped skipped id : Nat) (relexed : Subtree)
    (hpassed : CoversAll setting.table (tokens.take skipped) u) :
    (setting.skipVersion v tokens popped skipped id relexed).stack.Tiles setting.table (w ++ u) := by
  obtain ⟨x, y, rfl, hresumed, htaken⟩ := h.drop popped
  have hall := htaken.append hpassed
  rw [skipVersion, List.append_assoc]
  generalize y ++ u = covered at hall
  simp only
  split
  · rename_i hempty
    rw [List.isEmpty_iff.1 hempty] at hall
    cases hall
    rw [List.append_nil]
    exact hresumed
  · exact hresumed.push (hall.covers_ofSkipped id) _ false nofun

/-- Tokens that are passed take their version on by their lengths. -/
theorem bytes_skipVersion (setting : ParseSetting) (v : Version) (tokens : List Subtree)
    (popped skipped id : Nat) (relexed : Subtree) :
    (setting.skipVersion v tokens popped skipped id relexed).position.bytes
      = v.position.bytes + (Subtree.totalAll (tokens.take skipped)).bytes := by
  rw [skipVersion, Subtree.foldl_add_total, Length.bytes_add]

/-! ### Leaves -/

theorem leavesAll_trees_reduceStack (s : Stack) (forked : Bool) (p : ProductionId) (id : Nat) :
    leavesAll (setting.reduceStack forked p id s).1.trees = leavesAll s.trees := by
  have htrees := s.trees_popTrailing
  rw [s.popTrailing.2.trees_popStructural (setting.table.production p).rhs.size] at htrees
  rw [reduceStack]
  simp only
  split
  · rw [Stack.trees_pushAll, Stack.trees_push, htrees]
    simp only [Subtree.leavesAll_append, Subtree.leavesAll_singleton, Subtree.leaves_interior,
      Subtree.leavesAll_balanceWhere]
  · rw [Stack.trees_push, htrees]
    simp only [Subtree.leavesAll_append, Subtree.leaves_ofSkipped, leavesAll,
      Subtree.leaves_interior, Subtree.leavesAll_balanceWhere, List.append_assoc, List.append_nil]

theorem trees_pushPending (s : Stack) (pushes : List (StateId × Subtree)) :
    (pushPending s pushes).trees = s.trees ++ pushes.map (·.2) := by
  induction pushes generalizing s with
  | nil => exact (List.append_nil _).symm
  | cons push pushes ih =>
      refine (ih (s.push push.1 push.2 !push.2.isLeaf)).trans ?_
      rw [Stack.trees_push, List.append_assoc]
      rfl

theorem leavesAll_trees_breakPending {table : Table} (h : s.Tiles table w) :
    leavesAll (breakPending table s).2.trees = leavesAll s.trees := by
  fun_induction breakPending table s generalizing w with
  | case1 => rfl
  | case2 =>
      rename_i s top below hframes _ rest _ state
      rw [Stack.trees_push, Stack.trees_of_cons hframes]
  | case3 =>
      rename_i s top below hframes hpending rest pushes hpushes ih
      obtain ⟨u, v, rfl, hbelow, htop⟩ := h.pop hframes
      have hnode : top.tree.isLeaf = false :=
        h.pending top (by rw [hframes]; exact List.mem_cons_self) hpending
      have hchildren : CoversAll table (pushes.map (·.2)) v := by
        rw [map_snd_of_childStates? hpushes]
        exact htop.coversAll_children hnode
      rw [ih (tiles_pushPending hbelow hchildren), trees_pushPending, map_snd_of_childStates? hpushes,
        Stack.trees_of_cons hframes, Subtree.leavesAll_append, Subtree.leavesAll_append,
        Subtree.leavesAll_singleton, Subtree.leaves_of_node hnode]
  | case4 => rfl

theorem leavesAll_trees_skipVersion (v : Version) (tokens : List Subtree) (popped skipped id : Nat)
    (relexed : Subtree) :
    leavesAll (setting.skipVersion v tokens popped skipped id relexed).stack.trees
      = leavesAll v.stack.trees ++ leavesAll (tokens.take skipped) := by
  rw [v.stack.trees_drop popped, Subtree.leavesAll_append, List.append_assoc,
    ← Subtree.leavesAll_append, skipVersion]
  simp only
  split
  · rename_i hempty
    rw [List.isEmpty_iff.1 hempty, leavesAll, List.append_nil]
  · rw [Stack.trees_push, Subtree.leavesAll_append, Subtree.leavesAll_singleton,
      Subtree.leaves_ofSkipped]

end ParseSetting

end IncrementalLR
