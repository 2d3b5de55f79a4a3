import IncrementalLR.Proofs.Parse.Navigating

/-!
# Searching an old tree

What a cursor has in front of it is the end of a walk over the old tree, each node in front of those
under it. Nodes under the root are as long as their children, so behind the last child of a node the
walk goes on where the node ends, and nothing under a node that ends in front of a place starts behind
it. A search for what can be taken over at a place therefore passes nothing that is wanted there, and
it passes nothing that starts behind the place. The root of a parsed tree may be longer than its children
but never shorter, and edits that do not end before they start leave it so.
-/

namespace IncrementalLR

open Subtree (nodesAt nodesAmong totalAll)

namespace Subtree

/-- The subtree is as long as its children together if it has some, and so is every subtree in it. -/
abbrev Exact : Subtree → Prop :=
  Throughout fun t => t.children ≠ [] → t.total.bytes = (totalAll t.children).bytes

/-- The nodes of subtrees one behind the other, each in front of those under it, with the bytes at
which they start. -/
def walk (offset : Nat) (trees : List Subtree) : List (Nat × Subtree) :=
  (nodesAmong ⟨offset, Point.zero⟩ trees).map fun p => (p.offset.bytes, p.subtree)

end Subtree

open Subtree (walk)

namespace ReuseCursor

/-- What is left of the walk, from the node in front of the cursor on. -/
def ahead (c : ReuseCursor) : List (Nat × Subtree) := walk c.offset c.rest

/-- The entries lead from the root to a node, each child at its index, and start where the nodes start
in the text: behind the siblings in front of them, counted from where their parent starts. -/
inductive OnPath (root : Subtree) : List ReuseEntry → Prop
  | done : OnPath root []
  | root : OnPath root [⟨root, 0, 0⟩]
  | child (parent : ReuseEntry) (above : List ReuseEntry) (before : List Subtree) (tree : Subtree)
      (after : List Subtree) (h : OnPath root (parent :: above))
      (hchildren : parent.tree.children = before ++ tree :: after) :
      OnPath root (⟨tree, before.length, parent.offset + (totalAll before).bytes⟩ :: parent :: above)

/-- What is called on a cursor, and the cursor behind the call. -/
inductive Call (t : Table) (c : ReuseCursor) : ReuseCursor → Prop
  | take (position : Nat) (state : StateId) : Call t c (c.take t position state).2
  | descend : Call t c (c.descend?.getD c)
  | advance : Call t c c.advance

/-- The cursors behind all sequences of calls. -/
abbrev Called (t : Table) (root : Subtree) : ReuseCursor → Prop :=
  Relation.ReflTransGen (Call t) (ofRoot root)

/-- What stands between the two cursors starts no later than a place, and is not wanted there. -/
def Passes (t : Table) (position : Nat) (state : StateId) (c d : ReuseCursor) : Prop :=
  ∃ passed, c.ahead = passed ++ d.ahead ∧
    ∀ p ∈ passed, p.1 ≤ position ∧ (p.1 = position → accepts t state p.2 = false)

/-- What a search finds in front of a cursor, and where it leaves the cursor. -/
structure FindsFirst (c : ReuseCursor) (t : Table) (position : Nat) (state : StateId)
    (found : Option Subtree × ReuseCursor) : Prop where
  /-- nothing is found only if there is nothing -/
  first : found.1 = (c.ahead.find? fun p => p.1 == position && accepts t state p.2).map (·.2)
  stays : ∀ tree ∈ found.1, found.2.ahead.head? = some (position, tree)
  largest : ∀ tree ∈ found.1, ∀ p ∈ c.ahead, p.1 = position → accepts t state p.2 = true →
    p.2.total.bytes ≤ tree.total.bytes
  passes : Passes t position state c found.2

end ReuseCursor

/-! ### Walks -/

namespace Subtree

variable {t : Subtree} {trees rest : List Subtree} {offset : Nat} {p : Nat × Subtree}

theorem Exact.roomy (h : t.Exact) : t.Roomy := by
  induction h with
  | mk t hbytes _ ih =>
      refine ⟨t, ?_, ih⟩
      by_cases hne : t.children = []
      · rw [hne]
        exact Nat.zero_le _
      · exact Nat.le_of_eq (hbytes hne).symm

theorem walk_nil (offset : Nat) : walk offset [] = [] := rfl

/-- The row and column at which a walk starts do not matter for it. -/
theorem walk_bytes (place : Length) (trees : List Subtree) :
    walk place.bytes trees
      = (nodesAmong place trees).map fun p => (p.offset.bytes, p.subtree) := by
  have hmoved : ∀ place : Length, nodesAmong place trees
      = (nodesAmong Length.zero trees).map fun p => p.movedBy place := by
    intro place
    have h := nodesAmong_add place Length.zero trees
    rwa [Length.add_zero] at h
  rw [walk, hmoved, hmoved place, List.map_map, List.map_map]
  rfl

theorem walk_cons (offset : Nat) (t : Subtree) (rest : List Subtree) :
    walk offset (t :: rest)
      = (offset, t) :: (walk offset t.children ++ walk (offset + t.total.bytes) rest) := by
  have hrest : walk (offset + t.total.bytes) rest
      = (nodesAmong (⟨offset, Point.zero⟩ + t.total) rest).map fun p => (p.offset.bytes, p.subtree) :=
    walk_bytes (.add ⟨offset, Point.zero⟩ t.total) rest
  rw [hrest, walk, nodesAmong, nodesAt_eq, List.map_append]
  rfl

theorem walk_append (offset : Nat) (a b : List Subtree) :
    walk offset (a ++ b) = walk offset a ++ walk (offset + (totalAll a).bytes) b := by
  induction a generalizing offset with
  | nil => rfl
  | cons t a ih =>
      rw [List.cons_append, walk_cons, walk_cons, ih, bytes_totalAll_cons, Nat.add_assoc,
        List.cons_append, List.append_assoc]

theorem le_of_mem_walk (h : p ∈ walk offset trees) : offset ≤ p.1 := by
  obtain ⟨q, hq, rfl⟩ := List.mem_map.1 h
  exact le_offset_of_mem_nodesAmong hq

/-- What is under a subtree ends inside of it. -/
theorem Roomy.end_le_of_mem_walk (h : t.Roomy) (hp : p ∈ walk offset t.children) :
    p.1 + p.2.total.bytes ≤ offset + t.total.bytes := by
  obtain ⟨q, hq, rfl⟩ := List.mem_map.1 hp
  have hmem : q ∈ nodesAt ⟨offset, Point.zero⟩ t := by
    rw [nodesAt_eq]
    exact List.mem_cons_of_mem _ hq
  exact h.next_le hmem

end Subtree

open Subtree (walk_nil walk_cons walk_append le_of_mem_walk)

namespace ReuseCursor

variable {t : Table} {root tree : Subtree} {c d : ReuseCursor} {rest : List Subtree}
  {stack : List ReuseEntry} {position : Nat} {state : StateId}

/-! ### Paths -/

/-- Only the root may be longer than its children. -/
theorem OnPath.exact_children (h : OnPath root stack) (hexact : ∀ child ∈ root.children, child.Exact) :
    ∀ entry ∈ stack.head?, ∀ child ∈ entry.tree.children, child.Exact := by
  induction h with
  | done => exact nofun
  | root =>
      rintro _ ⟨⟩
      exact hexact
  | child parent above before tree after _ hchildren ih =>
      rintro _ ⟨⟩
      have htree : tree ∈ parent.tree.children := by simp [hchildren]
      exact (ih parent rfl tree htree).child

theorem OnPath.exact {entry parent : ReuseEntry} {above : List ReuseEntry}
    (h : OnPath root (entry :: parent :: above)) (hexact : ∀ child ∈ root.children, child.Exact) :
    entry.tree.Exact := by
  cases h with
  | child _ _ before tree after h hchildren =>
      exact h.exact_children hexact parent rfl tree (by simp [hchildren])

/-- Behind its last child a node ends where its children do. -/
theorem OnPath.advance (h : OnPath root stack) (hexact : ∀ child ∈ root.children, child.Exact) :
    OnPath root (ReuseCursor.advance ⟨stack⟩).stack := by
  induction h with
  | done => exact .done
  | root => exact .done
  | child parent above before tree after h hchildren ih =>
      have hend : parent.offset + (totalAll before).bytes + tree.total.bytes
          = parent.offset + (totalAll (before ++ [tree])).bytes := by
        rw [Subtree.bytes_totalAll_append, Subtree.bytes_totalAll_cons, Nat.add_assoc]
        rfl
      have hsibling : parent.tree.children[before.length + 1]? = after.head? := by
        rw [hchildren, List.getElem?_append_right (Nat.le_add_right _ 1), Nat.add_sub_cancel_left]
        exact List.head?_eq_getElem?.symm
      change OnPath root (next before.length
        (parent.offset + (totalAll before).bytes + tree.total.bytes) (parent :: above))
      rw [next, hsibling, hend]
      cases after with
      | cons sibling after =>
          have hpath : OnPath root (⟨sibling, (before ++ [tree]).length, _⟩ :: parent :: above) :=
            .child parent above (before ++ [tree]) sibling after h (by simp [hchildren])
          rwa [List.length_append] at hpath
      | nil =>
          cases above with
          | nil => exact .done
          | cons grandparent above =>
              have hparent : parent.tree.total.bytes = (totalAll (before ++ [tree])).bytes := by
                rw [(h.exact hexact).self (by simp [hchildren]), hchildren]
              rw [← hparent]
              exact ih

theorem OnPath.stepInto (h : OnPath root stack) (hexact : ∀ child ∈ root.children, child.Exact) :
    OnPath root (ReuseCursor.stepInto ⟨stack⟩).stack := by
  cases stack with
  | nil => exact .done
  | cons entry above =>
      rw [ReuseCursor.stepInto, descend?]
      cases hchildren : entry.tree.children with
      | nil =>
          simp only [hchildren, List.head?_nil, Option.map_none, Option.getD_none]
          exact h.advance hexact
      | cons first more =>
          simp only [hchildren, List.head?_cons, Option.map_some, Option.getD_some]
          exact .child entry above [] first more h hchildren

theorem OnPath.of_reaches (h : OnPath root c.stack) (hexact : ∀ child ∈ root.children, child.Exact)
    (hreaches : c.Reaches d) : OnPath root d.stack := by
  induction hreaches with
  | refl => exact h
  | advance d _ ih => exact ih.advance hexact
  | stepInto d _ ih => exact ih.stepInto hexact

/-! ### What is left of the walk -/

/-- Behind the root, which may be longer than its children, there is nothing. -/
theorem eq_ofRoot_or_exact_of_reaches (hexact : ∀ child ∈ root.children, child.Exact)
    (h : c = ofRoot root ∨ ∀ tree ∈ c.rest, tree.Exact) (hreaches : c.Reaches d) :
    d = ofRoot root ∨ ∀ tree ∈ d.rest, tree.Exact := by
  induction hreaches with
  | refl => exact h
  | advance d _ ih =>
      rw [rest_advance]
      rcases ih with rfl | hrest
      · exact .inr (List.forall_mem_nil _)
      · exact .inr fun tree htree => hrest tree (List.mem_of_mem_tail htree)
  | stepInto d _ ih =>
      rw [rest_stepInto]
      rcases ih with rfl | hrest
      · refine .inr ?_
        show ∀ tree ∈ root.children ++ [], tree.Exact
        rwa [List.append_nil]
      · refine .inr ?_
        cases hcursor : d.rest with
        | nil => exact List.forall_mem_nil _
        | cons tree rest =>
            rw [hcursor] at hrest
            obtain ⟨htree, hrest⟩ := List.forall_mem_cons.1 hrest
            exact List.forall_mem_append.2 ⟨htree.child, hrest⟩

theorem rest_eq_nil_or_exact (h : c = ofRoot root ∨ ∀ tree ∈ c.rest, tree.Exact)
    (hcursor : c.rest = tree :: rest) : rest = [] ∨ tree.Exact := by
  rcases h with rfl | hrest
  · cases hcursor
    exact .inl rfl
  · rw [hcursor] at hrest
    exact .inr (hrest tree List.mem_cons_self)

theorem ahead_of_rest_eq_nil (h : c.rest = []) : c.ahead = [] := by
  rw [ahead, h, walk_nil]

theorem ahead_eq_append_advance (h : c.rest = tree :: rest) :
    c.ahead = ((c.offset, tree) :: walk c.offset tree.children) ++ c.advance.ahead := by
  have hrest : c.advance.rest = rest := by rw [rest_advance, h, List.tail_cons]
  rw [ahead, h, walk_cons, ahead, hrest]
  rcases offset_advance h with rfl | hoffset
  · rfl
  · rw [hoffset, List.cons_append]

/-- The children of a node fill it, so what is behind it is still behind them. -/
theorem ahead_eq_cons_stepInto (h : c.rest = tree :: rest) (hexact : rest = [] ∨ tree.Exact) :
    c.ahead = (c.offset, tree) :: c.stepInto.ahead := by
  by_cases hchildren : tree.children = []
  · rw [stepInto_of_children_eq_nil h hchildren, ahead_eq_append_advance h, hchildren, walk_nil]
    rfl
  · have hrest : c.stepInto.rest = tree.children ++ rest := by rw [rest_stepInto, h]
    rw [ahead, h, walk_cons, ahead, hrest, offset_stepInto h hchildren, walk_append]
    rcases hexact with rfl | hexact
    · rfl
    · rw [hexact.self hchildren]

/-- A cursor never moves back. -/
theorem ahead_suffix_of_reaches (hexact : ∀ child ∈ root.children, child.Exact)
    (h : c = ofRoot root ∨ ∀ tree ∈ c.rest, tree.Exact) (hreaches : c.Reaches d) :
    d.ahead <:+ c.ahead := by
  induction hreaches with
  | refl => exact List.suffix_rfl
  | advance d _ ih =>
      refine List.IsSuffix.trans ?_ ih
      cases hcursor : d.rest with
      | nil => rw [advance_of_rest_eq_nil hcursor]
      | cons tree rest =>
          rw [ahead_eq_append_advance hcursor]
          exact List.suffix_append _ _
  | stepInto d hreaches ih =>
      refine List.IsSuffix.trans ?_ ih
      cases hcursor : d.rest with
      | nil => rw [stepInto_of_rest_eq_nil hcursor]
      | cons tree rest =>
          have hd := eq_ofRoot_or_exact_of_reaches hexact h hreaches
          rw [ahead_eq_cons_stepInto hcursor (rest_eq_nil_or_exact hd hcursor)]
          exact List.suffix_cons _ _

/-! ### Searches -/

/-- A cursor whose way through what is left of the old tree is told by the lengths of the nodes. -/
structure Measured (root : Subtree) (c : ReuseCursor) : Prop where
  exact : c = ofRoot root ∨ ∀ tree ∈ c.rest, tree.Exact
  roomy : ∀ tree ∈ c.rest, tree.Roomy

theorem Measured.of_reaches (h : Measured root c) (hexact : ∀ child ∈ root.children, child.Exact)
    (hreaches : c.Reaches d) : Measured root d :=
  ⟨eq_ofRoot_or_exact_of_reaches hexact h.exact hreaches,
    hreaches.forall_mem (fun _ hroomy => hroomy.fitIn_children.roomy) h.roomy⟩

theorem bytes_total_pos_of_accepts (h : accepts t state tree = true) : 0 < tree.total.bytes := by
  have hsize := (ParseSetting.intact_of_accepts h).2.2
  rw [Subtree.total, Length.bytes_add]
  omega

namespace Passes

theorem refl (t : Table) (position : Nat) (state : StateId) (c : ReuseCursor) :
    Passes t position state c c := ⟨[], rfl, List.forall_mem_nil _⟩

theorem trans {e : ReuseCursor} (h : Passes t position state c d) (h' : Passes t position state d e) :
    Passes t position state c e := by
  obtain ⟨passed, hahead, hpassed⟩ := h
  obtain ⟨passed', hahead', hpassed'⟩ := h'
  refine ⟨passed ++ passed', ?_, List.forall_mem_append.2 ⟨hpassed, hpassed'⟩⟩
  rw [hahead, hahead', List.append_assoc]

/-- A node that ends in front of a place holds nothing but empty nodes there, which are not wanted. -/
theorem advance (hcursor : c.rest = tree :: rest) (hroomy : tree.Roomy)
    (hend : c.offset + tree.total.bytes ≤ position) : Passes t position state c c.advance := by
  have hinside : ∀ p ∈ (c.offset, tree) :: walk c.offset tree.children,
      p.1 + p.2.total.bytes ≤ position := by
    refine List.forall_mem_cons.2 ⟨hend, fun p hp => ?_⟩
    exact Nat.le_trans (hroomy.end_le_of_mem_walk hp) hend
  refine ⟨_, ahead_eq_append_advance hcursor, fun p hp => ?_⟩
  have hle := hinside p hp
  refine ⟨Nat.le_trans (Nat.le_add_right _ _) hle, fun hplace => ?_⟩
  rw [Bool.eq_false_iff]
  intro haccepts
  have hpos := bytes_total_pos_of_accepts haccepts
  omega

theorem stepInto (hcursor : c.rest = tree :: rest) (hexact : rest = [] ∨ tree.Exact)
    (hle : c.offset ≤ position) (hunwanted : c.offset = position → accepts t state tree = false) :
    Passes t position state c c.stepInto :=
  ⟨[(c.offset, tree)], ahead_eq_cons_stepInto hcursor hexact,
    List.forall_mem_singleton.2 ⟨hle, hunwanted⟩⟩

end Passes

theorem rest_of_stack_eq_cons {entry : ReuseEntry} {above : List ReuseEntry}
    (h : c.stack = entry :: above) : c.rest = entry.tree :: behind entry.index above := by
  rw [ReuseCursor.rest, h]

theorem offset_of_stack_eq_cons {entry : ReuseEntry} {above : List ReuseEntry}
    (h : c.stack = entry :: above) : c.offset = entry.offset := by
  rw [ReuseCursor.offset, h]

/-- A search steps into a node that starts in front of the place or is not wanted there. -/
theorem Measured.passes_stepInto (h : Measured root c) {entry : ReuseEntry}
    {above : List ReuseEntry} (hstack : c.stack = entry :: above) (hle : entry.offset ≤ position)
    (hunwanted : entry.offset = position → accepts t state entry.tree = false) :
    Passes t position state c c.stepInto := by
  have hcursor := rest_of_stack_eq_cons hstack
  rw [← offset_of_stack_eq_cons hstack] at hle hunwanted
  exact .stepInto hcursor (rest_eq_nil_or_exact h.exact hcursor) hle hunwanted

/-- A search passes a node that ends in front of the place or is not wanted there, nothing else. -/
theorem passes_take (t : Table) (position : Nat) (state : StateId) (h : Measured root c)
    (hexact : ∀ child ∈ root.children, child.Exact) :
    Passes t position state c (c.take t position state).2 := by
  fun_induction ReuseCursor.take c t position state with
  | case1 c => exact .refl ..
  | case2 c => exact .refl ..
  | case3 c entry above hstack _ _ hend ih =>
      have hcursor := rest_of_stack_eq_cons hstack
      have hroomy := h.roomy entry.tree (by simp [hcursor])
      rw [← offset_of_stack_eq_cons hstack] at hend
      exact (Passes.advance hcursor hroomy hend).trans
        (ih (h.of_reaches hexact (.advance c .refl)))
  | case4 c entry above hstack _ hlt _ ih =>
      have hstep : Passes t position state c c.stepInto :=
        h.passes_stepInto hstack (Nat.le_of_lt hlt) fun heq => absurd heq (Nat.ne_of_lt hlt)
      exact hstep.trans (ih (h.of_reaches hexact (.stepInto c .refl)))
  | case5 c => exact .refl ..
  | case6 c entry above hstack hle _ hrejected ih =>
      have hstep : Passes t position state c c.stepInto :=
        h.passes_stepInto hstack (Nat.le_of_not_lt hle) fun _ => Bool.eq_false_iff.2 hrejected
      exact hstep.trans (ih (h.of_reaches hexact (.stepInto c .refl)))

/-- A search gives up at the end of the walk, or in front of what starts behind the place. -/
theorem lt_of_take_eq_none (h : (c.take t position state).1 = none) :
    ∀ p ∈ (c.take t position state).2.ahead, position < p.1 := by
  fun_induction ReuseCursor.take c t position state with
  | case1 c hstack =>
      rw [ahead_of_rest_eq_nil (by rw [ReuseCursor.rest, hstack])]
      exact List.forall_mem_nil _
  | case2 c entry above hstack hbehind =>
      intro p hp
      have hle : c.offset ≤ p.1 := le_of_mem_walk hp
      rw [offset_of_stack_eq_cons hstack] at hle
      exact Nat.lt_of_lt_of_le hbehind hle
  | case3 c entry above hstack _ _ _ ih => exact ih h
  | case4 c entry above hstack _ _ _ ih => exact ih h
  | case5 => cases h
  | case6 c entry above hstack _ _ _ ih => exact ih h

/-- What is wanted at the same place is under what is found, or is empty. -/
theorem le_of_mem_ahead (hcursor : c.rest = tree :: rest) (hroomy : tree.Roomy)
    (haccepts : accepts t state tree = true) {p : Nat × Subtree} (hp : p ∈ c.ahead)
    (hplace : p.1 = c.offset) : p.2.total.bytes ≤ tree.total.bytes := by
  have hpos := bytes_total_pos_of_accepts haccepts
  rw [ahead, hcursor, walk_cons] at hp
  rcases List.mem_cons.1 hp with rfl | hp
  · exact Nat.le_refl _
  · rcases List.mem_append.1 hp with hunder | hbehind
    · have hend := hroomy.end_le_of_mem_walk hunder
      omega
    · have hle := le_of_mem_walk hbehind
      omega

theorem findsFirst_take (t : Table) (position : Nat) (state : StateId) (h : Measured root c)
    (hexact : ∀ child ∈ root.children, child.Exact) :
    FindsFirst c t position state (c.take t position state) := by
  have hpasses := passes_take t position state h hexact
  obtain ⟨hreaches, hfound⟩ := c.take_spec t position state
  have hmeasured := h.of_reaches hexact hreaches
  have hgivesUp : (c.take t position state).1 = none →
      ∀ p ∈ (c.take t position state).2.ahead, position < p.1 := lt_of_take_eq_none
  generalize c.take t position state = found at *
  obtain ⟨result, d⟩ := found
  obtain ⟨passed, hahead, hpassed⟩ := hpasses
  have hnone : passed.find? (fun p => p.1 == position && accepts t state p.2) = none := by
    refine List.find?_eq_none.2 fun p hp => ?_
    rw [Bool.and_eq_true, beq_iff_eq, not_and, Bool.not_eq_true]
    exact (hpassed p hp).2
  cases result with
  | none =>
      have hbehind : d.ahead.find? (fun p => p.1 == position && accepts t state p.2) = none := by
        refine List.find?_eq_none.2 fun p hp => ?_
        have hlt := hgivesUp rfl p hp
        rw [Bool.and_eq_true, beq_iff_eq, not_and]
        omega
      refine ⟨?_, nofun, nofun, ⟨passed, hahead, hpassed⟩⟩
      rw [hahead, List.find?_append, hnone, hbehind]
      rfl
  | some tree =>
      obtain ⟨hhead, hplace, haccepts⟩ := hfound tree rfl
      obtain ⟨rest, hcursor⟩ := List.head?_eq_some_iff.1 hhead
      have hd : d.ahead = (position, tree) :: (walk d.offset tree.children ++ d.advance.ahead) := by
        rw [ahead_eq_append_advance hcursor, hplace, List.cons_append]
      refine ⟨?_, ?_, ?_, ⟨passed, hahead, hpassed⟩⟩
      · rw [hahead, List.find?_append, hnone, hd, List.find?_cons_of_pos (by simp [haccepts])]
        rfl
      · rintro _ ⟨⟩
        rw [hd, List.head?_cons]
      · rintro _ ⟨⟩ p hp hstart hwanted
        rw [hahead] at hp
        rcases List.mem_append.1 hp with hp | hp
        · exact absurd hwanted (Bool.eq_false_iff.1 ((hpassed p hp).2 hstart))
        · exact le_of_mem_ahead hcursor (hmeasured.roomy tree (by simp [hcursor])) haccepts hp
            (hstart.trans hplace.symm)

/-! ### Calls -/

theorem Call.reaches (h : Call t c d) : c.Reaches d := by
  cases h with
  | take position state => exact (c.take_spec t position state).1
  | advance => exact .advance c .refl
  | descend =>
      cases hdescend : c.descend? with
      | none => exact .refl
      | some d =>
          have hstep : c.stepInto = d := by rw [ReuseCursor.stepInto, hdescend, Option.getD_some]
          rw [Option.getD_some, ← hstep]
          exact .stepInto c .refl

theorem reaches_of_called (h : Called t root c) : (ofRoot root).Reaches c := by
  induction h with
  | refl => exact .refl
  | tail _ hcall ih => exact ih.trans hcall.reaches

end ReuseCursor

end IncrementalLR
