import IncrementalLR.Proofs.Parse.Stack
import IncrementalLR.Proofs.Tree.Applied
import Mathlib.Data.List.TakeWhile

/-!
# Paths on a stack

The structural subtrees of a stack spell a path of the automaton from the first state, and between
them stand extras and skipped text, which repeat the state below. So when the table says to reduce,
the right-hand side is on top of the stack and the state below it goes on with the left-hand side.
-/

namespace IncrementalLR

open KernelFollows (states)

open Subtree (interior ofSkipped balanceWhere structuralSymbols role)

/-- A frame on top of a state holds the state behind its subtree. -/
structure Stack.Frame.Follows (g : Grammar) (t : Table) (below : StateId) (frame : Stack.Frame) :
    Prop where
  tree : Applied t frame.tree
  step : frame.tree.isStructural = true →
    (states g).step? below.toNat frame.tree.symbol = some frame.state.toNat
  other : frame.tree.isStructural = false → frame.state = below
  /-- the state of a pending node can be found again -/
  pending : frame.pending = true → frame.tree.isLeaf = false ∧
    (frame.tree.isStructural = true → t.nextState? below frame.tree.symbol = some frame.state)

/-- Every frame follows on the state below it, down to the first state. -/
inductive Stack.Path (g : Grammar) (t : Table) : Stack → Prop
  | start : Path g t (Stack.ofBase t.startState)
  | push (s : Stack) (frame : Stack.Frame) (h : Path g t s) (hframe : frame.Follows g t s.state) :
      Path g t { s with frames := frame :: s.frames }

/-- The frames that count towards a right-hand side. -/
def Stack.parts (s : Stack) : List Stack.Frame := s.frames.filter (·.tree.isStructural)

/-- The right-hand side of the production is on top of the stack, and the state below it goes on with
the left-hand side. -/
structure Stack.Reduces (t : Table) (p : ProductionId) (s : Stack) : Prop where
  lt : p.toNat < t.productions.size
  enough : (t.production p).rhs.size ≤ s.parts.length
  children : structuralSymbols (s.popTrailing.2.popStructural (t.production p).rhs.size).1
    = (t.production p).rhs.toList
  goto : ∃ next, t.goto? (s.popTrailing.2.popStructural (t.production p).rhs.size).2.state
    (t.production p).lhs = some next

namespace Stack

variable {g : Grammar} {t : Table} {policy : ConflictPolicy} {s : Stack} {tree : Subtree}
  {trees : List Subtree} {state next : StateId}

/-! ### Pushing -/

theorem Path.push_other (h : s.Path g t) (htree : Applied t tree)
    (hother : tree.isStructural = false) : (s.push s.state tree false).Path g t := by
  refine .push s _ h ⟨htree, fun hstructural => ?_, fun _ => rfl, nofun⟩
  rw [hother] at hstructural
  cases hstructural

theorem Path.push_structural (h : s.Path g t) (htree : Applied t tree)
    (hstructural : tree.isStructural = true)
    (hstep : (states g).step? s.state.toNat tree.symbol = some next.toNat) :
    (s.push next tree false).Path g t := by
  refine .push s _ h ⟨htree, fun _ => hstep, fun hother => ?_, nofun⟩
  rw [hstructural] at hother
  cases hother

theorem Path.pushAll (h : s.Path g t) (hall : ∀ tree ∈ trees, Applied t tree)
    (hothers : ∀ tree ∈ trees, tree.isStructural = false) :
    (s.pushAll s.state trees).Path g t := by
  induction trees generalizing s with
  | nil => exact h
  | cons tree rest ih =>
      obtain ⟨htree, hall⟩ := List.forall_mem_cons.1 hall
      obtain ⟨hother, hothers⟩ := List.forall_mem_cons.1 hothers
      exact ih (h.push_other htree hother) hall hothers

/-! ### Popping -/

theorem parts_cons_of_structural {frame : Frame} (h : frame.tree.isStructural = true) :
    ({ s with frames := frame :: s.frames } : Stack).parts = frame :: s.parts :=
  List.filter_cons_of_pos h

theorem parts_cons_of_other {frame : Frame} (h : frame.tree.isStructural = false) :
    ({ s with frames := frame :: s.frames } : Stack).parts = s.parts :=
  List.filter_cons_of_neg (by simp [h])

theorem structuralStates_eq (s : Stack) :
    s.structuralStates = s.parts.map (·.state) ++ [s.base] := rfl

theorem structuralSymbols_trees (s : Stack) :
    structuralSymbols s.trees = (s.parts.map (·.tree.symbol)).reverse := by
  rw [structuralSymbols, trees, List.filter_reverse, List.map_reverse, List.filter_map, List.map_map]
  rfl

theorem parts_popTrailing (s : Stack) : s.popTrailing.2.parts = s.parts := by
  obtain ⟨base, frames⟩ := s
  induction frames with
  | nil => rfl
  | cons frame frames ih =>
      cases hstructural : frame.tree.isStructural with
      | true => simp [popTrailing, hstructural]
      | false =>
          rw [parts_cons_of_other (s := ⟨base, frames⟩) hstructural, ← ih]
          simp [popTrailing, hstructural]

theorem Path.applied (h : s.Path g t) : ∀ frame ∈ s.frames, Applied t frame.tree := by
  induction h with
  | start => exact nofun
  | push s frame _ hframe ih => exact List.forall_mem_cons.2 ⟨hframe.tree, ih⟩

theorem Path.of_suffix (h : s.Path g t) {frames : List Frame} (hsuffix : frames <:+ s.frames) :
    { s with frames := frames }.Path g t := by
  induction h with
  | start =>
      have hnil : frames = [] := List.suffix_nil.1 hsuffix
      subst hnil
      exact .start
  | push s frame hs hframe ih =>
      rcases List.suffix_cons_iff.1 hsuffix with rfl | hsuffix
      · exact .push s frame hs hframe
      · exact ih hsuffix

theorem suffix_popFrames (count : Nat) (frames : List Frame) (taken : List Subtree) :
    (popFrames count frames taken).2 <:+ frames := by
  fun_induction popFrames count frames taken with
  | case1 frames taken => exact List.suffix_refl _
  | case2 count taken => exact List.suffix_refl _
  | case3 count top below taken ih => exact ih.trans (List.suffix_cons top below)

theorem exists_frame_of_mem_popStructural {count : Nat} (h : tree ∈ (s.popStructural count).1) :
    ∃ frame ∈ s.frames, frame.tree = tree := by
  obtain ⟨htrees, _⟩ := popFrames_spec count s.frames []
  have hmem : tree ∈ (s.frames.map (·.tree)).reverse ++ [] := by
    rw [htrees]
    exact List.mem_append_right _ h
  rw [List.append_nil, List.mem_reverse] at hmem
  exact List.mem_map.1 hmem

theorem exists_frame_of_mem_popTrailing (h : tree ∈ s.popTrailing.1) :
    ∃ frame ∈ s.frames, frame.tree = tree := by
  obtain ⟨frame, hframe, rfl⟩ := List.mem_map.1 h
  exact ⟨frame, (List.takeWhile_sublist _).subset (List.mem_reverse.1 hframe), rfl⟩

theorem Path.applied_popStructural (h : s.Path g t) (count : Nat) :
    ∀ tree ∈ (s.popStructural count).1, Applied t tree := by
  intro tree htree
  obtain ⟨frame, hframe, rfl⟩ := exists_frame_of_mem_popStructural htree
  exact h.applied frame hframe

/-- What is taken off are the frames on top, as many that count as asked for. -/
theorem structural_popStructural (s : Stack) (count : Nat) :
    structuralSymbols (s.popStructural count).1
        = ((s.parts.take count).map (·.tree.symbol)).reverse ∧
      (s.popStructural count).2.parts = s.parts.drop count := by
  have hpop : ∀ (count : Nat) (frames : List Frame) (taken : List Subtree),
      structuralSymbols (popFrames count frames taken).1
          = (((frames.filter (·.tree.isStructural)).take count).map (·.tree.symbol)).reverse
            ++ structuralSymbols taken ∧
        (popFrames count frames taken).2.filter (·.tree.isStructural)
          = (frames.filter (·.tree.isStructural)).drop count := by
    intro count frames taken
    fun_induction popFrames count frames taken with
    | case1 frames taken => exact ⟨rfl, rfl⟩
    | case2 count taken => exact ⟨rfl, rfl⟩
    | case3 count top below taken ih =>
        obtain ⟨hsymbols, hframes⟩ := ih
        rw [hsymbols, hframes]
        cases hstructural : top.tree.isStructural with
        | true => simp [structuralSymbols, hstructural]
        | false => simp [structuralSymbols, hstructural]
  obtain ⟨hsymbols, hparts⟩ := hpop count s.frames []
  exact ⟨hsymbols.trans (List.append_nil _), hparts⟩

/-- A right-hand side taken off uncovers the state below it. -/
theorem structuralStates_popStructural (s : Stack) {count : Nat} (h : count ≤ s.parts.length) :
    (s.popTrailing.2.popStructural count).2.structuralStates = s.structuralStates.drop count := by
  obtain ⟨_, hparts⟩ := structural_popStructural s.popTrailing.2 count
  rw [parts_popTrailing] at hparts
  rw [structuralStates_eq, structuralStates_eq, hparts,
    List.drop_append_of_le_length (by simpa using h), List.map_drop]
  rfl

theorem structuralStates_push (pending : Bool) (h : tree.isStructural = true) :
    (s.push next tree pending).structuralStates = next :: s.structuralStates := by
  rw [structuralStates_eq, structuralStates_eq, push, parts_cons_of_structural h]
  rfl

theorem structuralStates_push_other (pending : Bool) (h : tree.isStructural = false) :
    (s.push next tree pending).structuralStates = s.structuralStates := by
  rw [structuralStates_eq, structuralStates_eq, push, parts_cons_of_other h]

theorem structuralStates_pushAll (h : ∀ tree ∈ trees, tree.isStructural = false) :
    (s.pushAll state trees).structuralStates = s.structuralStates := by
  induction trees generalizing s with
  | nil => rfl
  | cons tree rest ih =>
      obtain ⟨htree, hrest⟩ := List.forall_mem_cons.1 h
      exact (ih hrest).trans (structuralStates_push_other false htree)

theorem structural_popTrailing (s : Stack) : ∀ tree ∈ s.popTrailing.1, tree.isStructural = false := by
  intro tree htree
  obtain ⟨frame, hframe, rfl⟩ := List.mem_map.1 htree
  simpa using List.mem_takeWhile_imp (List.mem_reverse.1 hframe)

/-- The state on top is that behind the last part. -/
theorem Path.exists_structuralStates (h : s.Path g t) :
    ∃ rest, s.structuralStates = s.state :: rest := by
  induction h with
  | start => exact ⟨[], rfl⟩
  | push s frame _ hframe ih =>
      rw [structuralStates_eq]
      cases hstructural : frame.tree.isStructural with
      | true =>
          rw [parts_cons_of_structural hstructural]
          exact ⟨_, rfl⟩
      | false =>
          rw [parts_cons_of_other hstructural]
          have hstate : ({ s with frames := frame :: s.frames } : Stack).state = s.state :=
            hframe.other hstructural
          rw [hstate]
          exact ih

/-- The parts spell a path of the automaton. -/
theorem Path.stackPath (hfrom : t.CompiledFrom g) (h : s.Path g t) :
    StackPath g (s.structuralStates.map UInt32.toNat) (s.parts.map (·.tree.symbol)) := by
  induction h with
  | start =>
      rw [hfrom.startState]
      exact .start
  | push s frame hs hframe ih =>
      rw [structuralStates_eq]
      cases hstructural : frame.tree.isStructural with
      | true =>
          obtain ⟨rest, hrest⟩ := hs.exists_structuralStates
          rw [parts_cons_of_structural hstructural, List.map_cons, List.cons_append,
            ← structuralStates_eq]
          rw [hrest] at ih ⊢
          exact .push _ _ _ _ _ ih (hframe.step hstructural)
      | false =>
          rw [parts_cons_of_other hstructural]
          exact ih

/-! ### Reductions -/

section Compiled

variable (hg : g.WellFormed) (h : Table.compile g policy = .ok t) (hfit : t.EntriesFit)

include hg h hfit

/-- A reduction that the table says can be made. -/
theorem Path.reduces (hpath : s.Path g t) {x : Symbol} (hx : t.Has x) {p : ProductionId}
    (haction : .reduce p ∈ t.actionList s.state x) : s.Reduces t p := by
  obtain ⟨hfrom, _⟩ := Table.compile_eq_ok h
  obtain ⟨hp, hcomplete⟩ := Table.completes_of_reduce hg h hfit hx haction
  obtain ⟨production, hproduction⟩ := exists_production_of_completes hcomplete
  have hinfo : t.production p = Compile.productionInfo production := by
    rw [← production_eq hfrom hfit.toNumbersFit hproduction]
    simp
  have hsize : (t.production p).rhs.size = production.rhs.length := by
    rw [hinfo, size_rhs_productionInfo]
  have hrhs : (t.production p).rhs.toList = production.rhs := by
    rw [hinfo]
    exact Array.toList_map
  have hlhs : (t.production p).lhs = production.lhs := by rw [hinfo]; rfl
  have hlt : p.toNat < t.productions.size := by
    obtain ⟨hlt, _⟩ := Array.getElem?_eq_some_iff.1 hproduction
    rwa [hfrom.productions, Array.size_map]
  obtain ⟨rest, hrest⟩ := hpath.exists_structuralStates
  have hstackPath := hpath.stackPath hfrom
  rw [hrest] at hstackPath
  obtain ⟨hle, htake⟩ := hstackPath.reads_rhs hg hproduction hcomplete
  obtain ⟨below, left, target, hdrop, hstep⟩ :=
    hstackPath.exists_step?_lhs hg hproduction hp hcomplete
  obtain ⟨hsymbols, _⟩ :=
    structural_popStructural s.popTrailing.2 (t.production p).rhs.size
  rw [parts_popTrailing] at hsymbols
  rw [List.length_map, ← hsize] at hle
  refine ⟨hlt, hle, ?_, ?_⟩
  · rw [hsymbols, hsize, List.map_take, htake, List.reverse_reverse, hrhs]
  · have hbelow : (s.popTrailing.2.popStructural (t.production p).rhs.size).2.Path g t :=
      (hpath.of_suffix (List.dropWhile_suffix _)).of_suffix (suffix_popFrames _ _ _)
    obtain ⟨others, hothers⟩ := hbelow.exists_structuralStates
    rw [structuralStates_popStructural s hle, hrest] at hothers
    rw [← List.map_cons, ← List.map_drop, ← hsize, hothers, List.map_cons, List.cons.injEq] at hdrop
    have hmem := hg.lhs production (Array.mem_of_getElem? hproduction)
    refine ⟨target.toUInt32, ?_⟩
    rw [hlhs, Table.goto?_eq hg h _ (by simpa [Grammar.isTerminal] using hmem.1) hmem.2,
      hdrop.1, hstep]
    rfl

/-- A stack is accepted with nothing but the start symbol on it. -/
theorem Path.structuralSymbols_of_accept (hpath : s.Path g t) {x : Symbol} (hx : t.Has x)
    (haccept : .accept ∈ t.actionList s.state x) : structuralSymbols s.trees = [g.start] := by
  obtain ⟨hfrom, _⟩ := Table.compile_eq_ok h
  obtain ⟨i, hi, hcomplete⟩ : ∃ i, Candidates.reduceAction i = .accept ∧
      Compile.Completes g s.state.toNat i x := by
    have hoffers := Table.offers_of_mem_actionList hg h hfit hx haccept
    generalize haction : Action.accept = action at hoffers ⊢
    cases hoffers with
    | shift => cases haction
    | goto => cases haction
    | reduce i _ hcomplete => exact ⟨i, rfl, hcomplete⟩
  obtain rfl := Candidates.eq_zero_of_reduceAction_eq_accept hi
  obtain ⟨p, hp, _, hrhs⟩ := hg.start
  obtain ⟨rest, hrest⟩ := hpath.exists_structuralStates
  have hstackPath := hpath.stackPath hfrom
  rw [hrest, List.map_cons] at hstackPath
  obtain ⟨hle, htake⟩ := hstackPath.reads_rhs hg hp hcomplete
  obtain ⟨d, hd, hlooks⟩ := hcomplete
  obtain rfl : d = p.rhs.length := by
    rw [Grammar.isComplete, hp] at hd
    simpa [Production.rhs] using hd
  obtain ⟨_, _, below, left, hdrop, hitem⟩ :=
    hstackPath.reads_item hg hp (mem_closure_of_looks hg hlooks)
  have hbelow := hstackPath.drop hle
  rw [hdrop] at hbelow
  have hnil := hbelow.eq_nil_of_start hg hitem
  have hsymbols : s.parts.map (·.tree.symbol) = [g.start] := by
    rw [← List.take_append_drop p.rhs.length (s.parts.map (·.tree.symbol)), htake, hnil, hrhs]
    rfl
  rw [structuralSymbols_trees, hsymbols]
  rfl

/-- A stack with nothing but the start symbol on it can be accepted, or reduced further. -/
theorem Path.actionList_eof_ne_nil (hpath : s.Path g t)
    (hsole : structuralSymbols s.trees = [g.start]) : t.actionList s.state Symbol.eof ≠ [] := by
  obtain ⟨hfrom, _⟩ := Table.compile_eq_ok h
  have hsymbols : s.parts.map (·.tree.symbol) = [g.start] := by
    rw [structuralSymbols_trees] at hsole
    simpa using congrArg List.reverse hsole
  obtain ⟨rest, hrest⟩ := hpath.exists_structuralStates
  have hstackPath := hpath.stackPath hfrom
  rw [hrest, hsymbols, List.map_cons] at hstackPath
  obtain ⟨hlt, hcompletes⟩ : s.state.toNat < (states g).kernels.size ∧
      Compile.Completes g s.state.toNat 0 Symbol.eof := by
    generalize s.state.toNat = q at hstackPath ⊢
    generalize rest.map UInt32.toNat = stack at hstackPath
    cases hstackPath with
    | push q q' stack symbols x hbelow hstep =>
        cases hbelow
        exact Table.completes_start hg hstep
  exact Table.actionList_eof_ne_nil hg h hfit hlt hcompletes

end Compiled

end Stack

namespace ParseSetting

variable {g : Grammar} {policy : ConflictPolicy} {setting : ParseSetting} {s : Stack}

/-- Subtrees taken off and tokens passed become skipped text on the stack. -/
theorem path_skipVersion {v : Version} (h : v.stack.Path g setting.table) {tokens : List Subtree}
    (htokens : ∀ token ∈ tokens, Applied setting.table token) (popped skipped id : Nat)
    (relexed : Subtree) :
    (setting.skipVersion v tokens popped skipped id relexed).stack.Path g setting.table := by
  have hresumed := h.of_suffix (List.drop_suffix popped v.stack.frames)
  rw [skipVersion]
  simp only
  split
  · exact hresumed
  · refine hresumed.push_other (applied_ofSkipped id ?_) (by simp [Subtree.isStructural])
    intro tree htree
    rcases List.mem_append.1 htree with htree | htree
    · obtain ⟨frame, hframe, rfl⟩ := List.mem_map.1 (List.mem_reverse.1 htree)
      exact h.applied frame (List.mem_of_mem_take hframe)
    · exact htokens tree (List.mem_of_mem_take htree)

/-- A reduction does to the states of the stack what its simulation on states does. -/
theorem reduceStates_structuralStates (hg : g.WellFormed) (hfrom : setting.table.CompiledFrom g)
    (hpath : s.Path g setting.table) {p : ProductionId} (hreduces : s.Reduces setting.table p)
    (forked : Bool) (id : Nat) :
    Recovery.reduceStates setting.table p s.structuralStates
      = some (setting.reduceStack forked p id s).1.structuralStates := by
  obtain ⟨hlt, hle, _, next, hgoto⟩ := hreduces
  have hne := Table.lhs_ne_error hg hfrom hlt
  have hrest : s.popTrailing.2.Path g setting.table := hpath.of_suffix (List.dropWhile_suffix _)
  have hbelow := hrest.of_suffix (Stack.suffix_popFrames (setting.table.production p).rhs.size _ [])
  obtain ⟨rest, hstates⟩ := hbelow.exists_structuralStates
  have hdrop := s.structuralStates_popStructural hle
  rw [Stack.popStructural] at hdrop hgoto
  rw [hstates] at hdrop
  rw [Recovery.reduceStates, ← hdrop]
  simp only
  rw [hgoto, Option.map_some, reduceStack]
  simp only
  rw [Stack.popStructural, hgoto]
  simp only
  rw [Stack.structuralStates_pushAll s.structural_popTrailing,
    Stack.structuralStates_push false (by simp [Subtree.isStructural, hne]), hstates]

section Compiled

variable (hg : g.WellFormed) (h : Table.compile g policy = .ok setting.table)
  (hfit : setting.table.EntriesFit)

include hg h hfit

theorem path_reduceStack (hbases : setting.bases.FitTable setting.table)
    (hpath : s.Path g setting.table) {p : ProductionId} (hreduces : s.Reduces setting.table p)
    (forked : Bool) (id : Nat) :
    (setting.reduceStack forked p id s).1.Path g setting.table := by
  obtain ⟨hlt, _, hchildren, next, hgoto⟩ := hreduces
  obtain ⟨hfrom, _⟩ := Table.compile_eq_ok h
  have hlhs := Table.index_lhs_lt hg hfrom hlt
  have hne := Table.lhs_ne_error hg hfrom hlt
  have htrailing : ∀ tree ∈ s.popTrailing.1, Applied setting.table tree := by
    intro tree htree
    obtain ⟨frame, hframe, rfl⟩ := s.exists_frame_of_mem_popTrailing htree
    exact hpath.applied frame hframe
  have hrest : s.popTrailing.2.Path g setting.table := hpath.of_suffix (List.dropWhile_suffix _)
  have hbelow := hrest.of_suffix (Stack.suffix_popFrames (setting.table.production p).rhs.size _ [])
  have htaken := hrest.applied_popStructural (setting.table.production p).rhs.size
  obtain ⟨hbalanced, hroles⟩ := applied_balanceWhere hbases
    (·.symbol != (setting.table.production p).lhs) id htaken
  have hnode := fun id fragile => applied_interior id fragile hlt (.inr hlhs) hbalanced
    ((structuralSymbols_eq_of_map_role hroles).trans hchildren)
  rw [reduceStack]
  simp only
  rw [hgoto]
  simp only
  have hstep := Table.step?_of_goto? hg h hfit (.inr hlhs) hgoto
  refine Stack.Path.pushAll (hbelow.push_structural (hnode _ _) ?_ ?_) htrailing
    s.structural_popTrailing
  · simp [Subtree.isStructural, hne]
  · rw [Subtree.symbol_interior]
    exact hstep

/-- Children with states of their own follow on the state below them. -/
theorem path_pushPending {children : List Subtree} {pushes : List (StateId × Subtree)}
    (hpath : s.Path g setting.table) (hchildren : ∀ child ∈ children, Applied setting.table child)
    (hpushes : childStates? setting.table s.state children = some pushes) :
    (pushPending s pushes).Path g setting.table := by
  induction children generalizing s pushes with
  | nil =>
      cases hpushes
      exact hpath
  | cons child rest ih =>
      obtain ⟨hchild, hrest⟩ := List.forall_mem_cons.1 hchildren
      rw [childStates?] at hpushes
      cases hstructural : child.isStructural with
      | true =>
          rw [if_pos hstructural] at hpushes
          cases hnext : setting.table.nextState? s.state child.symbol with
          | none =>
              rw [hnext] at hpushes
              cases hpushes
          | some next =>
              rw [hnext] at hpushes
              obtain ⟨tail, htail, rfl⟩ := Option.map_eq_some_iff.1 hpushes
              have hpushed : (s.push next child !child.isLeaf).Path g setting.table := by
                refine .push s _ hpath ⟨hchild, fun _ => ?_, fun hother => ?_,
                  fun hpending => ⟨by simpa using hpending, fun _ => hnext⟩⟩
                · exact Table.step?_of_nextState? hg h hfit hchild.has hnext
                · rw [hstructural] at hother
                  cases hother
              have hall := ih hpushed hrest htail
              exact hall
      | false =>
          rw [if_neg (by simp [hstructural])] at hpushes
          obtain ⟨tail, htail, rfl⟩ := Option.map_eq_some_iff.1 hpushes
          have hnone : child.isStructural ≠ true := by simp [hstructural]
          have hpushed : (s.push s.state child !child.isLeaf).Path g setting.table :=
            .push s _ hpath ⟨hchild, fun hpart => absurd hpart hnone, fun _ => rfl,
              fun hpending => ⟨by simpa using hpending, fun hpart => absurd hpart hnone⟩⟩
          have hall := ih hpushed hrest htail
          exact hall

theorem path_breakPending (hpath : s.Path g setting.table) :
    (breakPending setting.table s).2.Path g setting.table := by
  fun_induction breakPending setting.table s with
  | case1 => exact hpath
  | case2 =>
      rename_i s top below hframes hpending rest _ state
      obtain ⟨base, frames⟩ := s
      subst hframes
      cases hpath with
      | push s frame hbelow hframe =>
          obtain ⟨hnode, hnext⟩ := hframe.pending hpending
          cases hstructural : top.tree.isStructural with
          | true =>
              have hsame : state = top.state := by
                simp only [state]
                rw [hnext hstructural]
                rfl
              rw [hsame]
              exact hbelow.push_structural hframe.tree hstructural (hframe.step hstructural)
          | false =>
              have herror : top.tree.symbol = Symbol.error := hframe.tree.error_of_node hnode
                hstructural
              have hsame : state = rest.state := by
                simp only [state]
                rw [herror, Table.nextState?_error hg h hfit]
                rfl
              rw [hsame]
              exact hbelow.push_other hframe.tree hstructural
  | case3 =>
      rename_i s top below hframes _ rest pushes hpushes ih
      obtain ⟨base, frames⟩ := s
      subst hframes
      cases hpath with
      | push s frame hbelow hframe =>
          exact ih (path_pushPending hg h hfit hbelow hframe.tree.child hpushes)
  | case4 => exact hpath

end Compiled

end ParseSetting

end IncrementalLR
