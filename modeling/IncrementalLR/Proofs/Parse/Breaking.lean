import IncrementalLR.Proofs.Parse.Productions
import IncrementalLR.Proofs.Parse.Reparse
import IncrementalLR.Proofs.Table.Transitions

/-!
# Breaking up pending nodes

A node of an old tree is taken over for its first leaf and for the state behind it. If nothing confirms
it, its children take its place, and so on with the last of them until a leaf is on top. The children
have states: the node is over the right-hand side of a production, the state below goes on with the
left-hand side, so it has an item with the dot in front of that right-hand side, along which a path of
the automaton leads. The exception are nodes that join two parts of a repetition. They are over no
right-hand side, and behind the first part nothing need go on with the second.
-/

namespace IncrementalLR

open KernelFollows (states)

open Subtree (structuralSymbols role leavesAll IsJoined)

open ParseSetting (childStates? pushPending breakPending tiles_breakPending leavesAll_trees_breakPending)

open Relation (ReflTransGen)

/-- The pending node on top makes room for its children, which all have states. -/
inductive Stack.Opens (t : Table) : Stack → Stack → Prop
  | children (base : StateId) (top : Frame) (below : List Frame)
      (pushes : List (StateId × Subtree)) (hpending : top.pending = true)
      (hpushes : childStates? t (Stack.mk base below).state top.tree.children = some pushes) :
      Opens t ⟨base, top :: below⟩ (pushPending ⟨base, below⟩ pushes)

/-- Above these frames the stack has subtrees without errors that cover the text. Just the nodes among
them are pending. -/
inductive Stack.Carries (t : Table) (under : List Stack.Frame) : Stack → List UInt8 → Prop
  | nothing (base : StateId) : Carries t under ⟨base, under⟩ []
  | push (base : StateId) (frame : Frame) (frames : List Frame) (w u : List UInt8)
      (h : Carries t under ⟨base, frames⟩ w) (hcovers : Covers t frame.tree u)
      (herror : frame.tree.flags.hasError = false) (hpending : frame.pending = !frame.tree.isLeaf) :
      Carries t under ⟨base, frame :: frames⟩ (w ++ u)

/-- Pending nodes on top of the stack are opened one after the other, and all of them can be that do not
join two parts of a repetition. So in the end a leaf is on top, or a node that joins two parts and stays. -/
structure Stack.BreaksUp (t : Table) (s : Stack) : Prop where
  opens : ∀ passed, ReflTransGen (Stack.Opens t) s passed → ∀ top ∈ passed.frames.head?,
    top.pending = true → top.tree.IsJoined t ∨ ∃ next, passed.Opens t next
  ends : ∃ last, ReflTransGen (Stack.Opens t) s last ∧ ∃ top ∈ last.frames.head?,
    top.tree.isLeaf = true ∧ breakPending t s = (true, last) ∨
    top.pending = true ∧ top.tree.IsJoined t ∧ ∃ kept ∈ (breakPending t s).2.frames.head?,
      kept.tree = top.tree ∧ kept.state = top.state ∧ kept.pending = false

/-- The node on top of the stack is no pending one. -/
def Stack.IsConfirmed (s : Stack) : Prop := ∀ top ∈ s.frames.head?, top.pending = false

/-- The subtree has no errors and is not empty. -/
def Subtree.IsIntact (t : Subtree) : Prop := t.flags.hasError = false ∧ t.size.bytes ≠ 0

/-- What the version takes over whole from an old tree is intact. -/
structure Version.TakesWhole (v : Version) : Prop where
  lookahead : ∀ t ∈ v.lookahead, t.isLeaf = false → t.IsIntact
  stack : ∀ top ∈ v.stack.frames.head?, top.pending = true → top.tree.IsIntact

/-! ### Paths along right-hand sides -/

namespace Lr0

variable {g : Grammar} {i d q next : Nat} {p : Production}

/-- From a state with an item a path leads along what is behind the dot. -/
theorem exists_foldlM_step?_of_item (hg : g.WellFormed) (hp : g.productions[i]? = some p)
    (hq : q < (states g).kernels.size)
    (hitem : ⟨i, d⟩ ∈ g.closure g.productionsByLhs ((states g).kernel q)) :
    ∃ last, (p.rhs.drop d).foldlM (states g).step? q = some last := by
  generalize hrest : p.rhs.drop d = rest
  induction rest generalizing q d with
  | nil => exact ⟨q, rfl⟩
  | cons s rest ih =>
      have hs : p.rhs[d]? = some s := by
        rw [← List.head?_drop, hrest]
        rfl
      have hdrop : p.rhs.drop (d + 1) = rest := by
        rw [← List.tail_drop, hrest]
        rfl
      obtain ⟨q', hstep, hkernel⟩ :=
        exists_step? hg hq hitem (Grammar.nextSymbol?_eq_some.2 ⟨p, hp, hs⟩)
      obtain ⟨last, hlast⟩ :=
        ih (kernel_of_step? hg hstep).1 (g.subset_closure _ hkernel) hdrop
      refine ⟨last, ?_⟩
      rw [List.foldlM_cons, hstep]
      exact hlast

/-- A state that goes on with a left-hand side goes on along the right-hand side. -/
theorem exists_foldlM_step?_rhs (hg : g.WellFormed) (hp : g.productions[i]? = some p)
    (hstep : (states g).step? q p.lhs = some next) :
    ∃ last, p.rhs.foldlM (states g).step? q = some last := by
  obtain ⟨item, hitem, hnext⟩ := exists_nextSymbol?_of_step? hg hstep
  have hnonterminal : g.isTerminal p.lhs = false := by
    simpa [Grammar.isTerminal] using (hg.lhs p (Array.mem_of_getElem? hp)).1
  have hstart := g.mem_closure_of_nextNonterminal? hg hitem hp
    (Grammar.nextNonterminal?_eq_some.2 ⟨hnext, hnonterminal⟩)
  exact exists_foldlM_step?_of_item hg hp (Table.step?_lt hg hstep) hstart

end Lr0

/-! ### Rounds -/

/-- The children of a node without errors have none. -/
theorem Applied.hasError_child {t : Table} {tree : Subtree} (h : Applied t tree)
    (hnode : tree.isLeaf = false) (herror : tree.flags.hasError = false) :
    ∀ child ∈ tree.children, child.flags.hasError = false := by
  cases h with
  | leaf _ hleaf =>
      rw [hleaf.isLeaf] at hnode
      cases hnode
  | node _ hof => exact (hof.of_hasError_eq_false herror).2

namespace Stack

variable {t : Table} {s : Stack} {under : List Frame} {u w : List UInt8}

theorem Carries.exists_top (h : s.Carries t under w) (hw : w ≠ []) :
    ∃ top rest, s.frames = top :: rest ∧ top.tree.flags.hasError = false ∧
      top.pending = !top.tree.isLeaf := by
  cases h with
  | nothing => exact absurd rfl hw
  | push base frame frames w u _ _ herror hpending => exact ⟨frame, frames, rfl, herror, hpending⟩

theorem Carries.pushPending (h : s.Carries t under w) {pushes : List (StateId × Subtree)}
    (hall : CoversAll t (pushes.map (·.2)) u)
    (herrors : ∀ push ∈ pushes, push.2.flags.hasError = false) :
    (pushPending s pushes).Carries t under (w ++ u) := by
  induction pushes generalizing s w u with
  | nil =>
      cases hall
      rw [List.append_nil]
      exact h
  | cons push pushes ih =>
      obtain _ | ⟨_, _, x, y, hcovers, hall⟩ := hall
      obtain ⟨herror, herrors⟩ := List.forall_mem_cons.1 herrors
      rw [← List.append_assoc]
      exact ih (.push s.base _ s.frames w x h hcovers herror rfl) hall herrors

end Stack

namespace ParseSetting

variable {g : Grammar} {policy : ConflictPolicy} {setting : ParseSetting} {s s' : Stack}
  {under : List Stack.Frame} {w : List UInt8} (h : setting.CompiledFrom g policy)

include h

/-- Children along a path of the automaton have states. -/
theorem CompiledFrom.exists_childStates? (hfound : ∀ state s, ¬ setting.table.ForgetsShift state s)
    {children : List Subtree} (hall : ∀ child ∈ children, Applied setting.table child)
    {state : StateId} {last : Nat}
    (hpath : (structuralSymbols children).foldlM (states g).step? state.toNat = some last) :
    ∃ pushes, childStates? setting.table state children = some pushes := by
  induction children generalizing state with
  | nil => exact ⟨[], rfl⟩
  | cons child rest ih =>
      obtain ⟨hchild, hall⟩ := List.forall_mem_cons.1 hall
      rw [childStates?]
      by_cases hstructural : child.isStructural = true
      · have hrole : child.role = (true, child.symbol) := by rw [role, hstructural]
        rw [structuralSymbols_cons_of_role rest hrole, List.foldlM_cons] at hpath
        obtain ⟨target, hstep, hrest⟩ := Option.bind_eq_some_iff.1 hpath
        obtain ⟨next, hnext⟩ := (Table.exists_nextState? h.grammar h.table h.fit hstep).resolve_right
          (hfound state child.symbol)
        have hsame := Table.step?_of_nextState? h.grammar h.table h.fit hchild.has hnext
        rw [hstep, Option.some.injEq] at hsame
        rw [hsame] at hrest
        obtain ⟨pushes, hpushes⟩ := ih hall hrest
        rw [if_pos hstructural, hnext]
        simp only [hpushes]
        exact ⟨_, rfl⟩
      · have hsame : structuralSymbols (child :: rest) = structuralSymbols rest := by
          rw [structuralSymbols, List.filter_cons_of_neg hstructural]
          rfl
        rw [hsame] at hpath
        obtain ⟨pushes, hpushes⟩ := ih hall hpath
        rw [if_neg hstructural, hpushes]
        exact ⟨_, rfl⟩

/-- A pending node without errors can be opened, unless it joins two parts of a repetition. -/
theorem CompiledFrom.joined_or_opens (hfound : ∀ state s, ¬ setting.table.ForgetsShift state s)
    (hpath : s.Path g setting.table) {top : Stack.Frame} (htop : top ∈ s.frames.head?)
    (hpending : top.pending = true) (herror : top.tree.flags.hasError = false) :
    top.tree.IsJoined setting.table ∨ ∃ next, s.Opens setting.table next := by
  obtain ⟨hfrom, _⟩ := Table.compile_eq_ok h.table
  cases hpath with
  | start => cases htop
  | push s frame hbelow hframe =>
      cases htop
      obtain ⟨hnode, _⟩ := hframe.pending hpending
      cases hframe.tree with
      | leaf _ hleaf =>
          rw [hleaf.isLeaf] at hnode
          cases hnode
      | node _ hof hmade hchildren =>
          obtain ⟨hne, _⟩ := hof.of_hasError_eq_false herror
          have hstructural : top.tree.isStructural = true := by
            simp [Subtree.isStructural, hof.extra, hne]
          rw [Subtree.IsMade] at hmade
          split at hmade
          · right
            obtain ⟨production, hproduction, hlhs, hrhs⟩ := Table.exists_production hfrom hmade.lt
            have hstep := hframe.step hstructural
            rw [hmade.symbol, hlhs] at hstep
            obtain ⟨last, hlast⟩ := Lr0.exists_foldlM_step?_rhs h.grammar hproduction hstep
            rw [← hrhs, ← hmade.children] at hlast
            obtain ⟨pushes, hpushes⟩ := h.exists_childStates? hfound hchildren hlast
            exact ⟨_, .children s.base top s.frames pushes hpending hpushes⟩
          · exact .inl (hmade.resolve_left hne).1

/-- A round keeps the path, and the children cover what their node covered. -/
theorem CompiledFrom.keeps_of_opens (hopens : s.Opens setting.table s')
    (hpath : s.Path g setting.table) (hcarries : s.Carries setting.table under w) (hw : w ≠ []) :
    s'.Path g setting.table ∧ s'.Carries setting.table under w := by
  cases hopens with
  | children base top below pushes hpending hpushes =>
      cases hcarries with
      | nothing => exact absurd rfl hw
      | push base top below x u hcarries hcovers herror hnode =>
          have hnode : top.tree.isLeaf = false := by simpa [hpending] using hnode
          cases hpath with
          | push s frame hbelow hframe =>
              refine ⟨path_pushPending h.grammar h.table h.fit hbelow hframe.tree.child hpushes, ?_⟩
              have hchildren := hcovers.coversAll_children hnode
              have herrors := hframe.tree.hasError_child hnode herror
              rw [← map_snd_of_childStates? hpushes] at hchildren herrors
              exact hcarries.pushPending hchildren (List.forall_mem_map.1 herrors)

/-- Rounds keep what one of them keeps. -/
theorem CompiledFrom.keeps_of_rounds (hrounds : ReflTransGen (Stack.Opens setting.table) s s')
    (hpath : s.Path g setting.table) (hcarries : s.Carries setting.table under w) (hw : w ≠ []) :
    s'.Path g setting.table ∧ s'.Carries setting.table under w := by
  induction hrounds with
  | refl => exact ⟨hpath, hcarries⟩
  | tail _ hopens ih => exact h.keeps_of_opens hopens ih.1 ih.2 hw

/-- Rounds come to a leaf, or to a node that joins two parts of a repetition, which is kept. -/
theorem CompiledFrom.exists_last (hfound : ∀ state s, ¬ setting.table.ForgetsShift state s)
    (hpath : s.Path g setting.table) (hcarries : s.Carries setting.table under w) (hw : w ≠ []) :
    ∃ last, ReflTransGen (Stack.Opens setting.table) s last ∧ ∃ top ∈ last.frames.head?,
      top.tree.isLeaf = true ∧ (breakPending setting.table s).2 = last ∨
      top.pending = true ∧ top.tree.IsJoined setting.table ∧
        ∃ kept ∈ (breakPending setting.table s).2.frames.head?,
          kept.tree = top.tree ∧ kept.state = top.state ∧ kept.pending = false := by
  fun_induction breakPending setting.table s with
  | case1 s hframes =>
      obtain ⟨top, rest, hsome, _⟩ := hcarries.exists_top hw
      rw [hframes] at hsome
      cases hsome
  | case2 s top below hframes hpending rest hnone state =>
      obtain ⟨_, _, hsome, herror, _⟩ := hcarries.exists_top hw
      rw [hframes] at hsome
      cases hsome
      have htop : top ∈ s.frames.head? := by rw [hframes]; rfl
      have hjoined : top.tree.IsJoined setting.table := by
        apply (h.joined_or_opens hfound hpath htop hpending herror).resolve_right
        rintro ⟨next, hopens⟩
        cases hopens with
        | children base top below pushes _ hpushes =>
            cases hframes
            rw [hpushes] at hnone
            cases hnone
      refine ⟨s, .refl, top, htop, .inr ⟨hpending, hjoined, _, rfl, rfl, ?_, rfl⟩⟩
      obtain ⟨base, frames⟩ := s
      subst hframes
      cases hpath with
      | push s frame hbelow hframe =>
          obtain ⟨hnode, hnext⟩ := hframe.pending hpending
          have hstructural : top.tree.isStructural = true := by
            by_contra hother
            exact hjoined.symbol.ne_error
              (hframe.tree.error_of_node hnode (Bool.eq_false_iff.2 hother))
          change (setting.table.nextState? s.state top.tree.symbol).getD s.state = top.state
          rw [hnext hstructural, Option.getD_some]
  | case3 s top below hframes hpending rest pushes hpushes ih =>
      have hopens : s.Opens setting.table (pushPending rest pushes) := by
        obtain ⟨base, frames⟩ := s
        subst hframes
        exact .children base top below pushes hpending hpushes
      obtain ⟨hpath, hcarries⟩ := h.keeps_of_opens hopens hpath hcarries hw
      obtain ⟨last, hrounds, hlast⟩ := ih hpath hcarries
      exact ⟨last, .head hopens hrounds, hlast⟩
  | case4 s top below hframes hpending =>
      obtain ⟨_, _, hsome, _, hnode⟩ := hcarries.exists_top hw
      rw [hframes] at hsome
      cases hsome
      refine ⟨s, .refl, top, by rw [hframes]; rfl, .inl ⟨?_, rfl⟩⟩
      simpa [hpending] using hnode

omit h

/-! ### What is taken over whole -/

theorem isConfirmed_push (s : Stack) (state : StateId) (tree : Subtree) :
    (s.push state tree false).IsConfirmed := by
  rintro _ ⟨⟩
  rfl

theorem isConfirmed_pushAll (hs : s.IsConfirmed) (state : StateId) (trees : List Subtree) :
    (s.pushAll state trees).IsConfirmed := by
  induction trees generalizing s with
  | nil => exact hs
  | cons tree rest ih => exact ih (isConfirmed_push s state tree)

theorem isConfirmed_reduceStack (forked : Bool) (p : ProductionId) (id : Nat) (s : Stack) :
    (setting.reduceStack forked p id s).1.IsConfirmed := by
  rw [reduceStack]
  simp only
  split
  · exact isConfirmed_pushAll (isConfirmed_push _ _ _) _ _
  · exact isConfirmed_push _ _ _

theorem isConfirmed_breakPending (t : Table) (s : Stack) : (breakPending t s).2.IsConfirmed := by
  fun_induction breakPending t s with
  | case1 s hframes =>
      rw [Stack.IsConfirmed, hframes]
      rintro _ ⟨⟩
  | case2 => exact isConfirmed_push _ _ _
  | case3 s top below hframes hpending rest pushes hpushes ih => exact ih
  | case4 s top below hframes hpending =>
      rw [Stack.IsConfirmed, hframes]
      rintro _ ⟨⟩
      exact Bool.eq_false_iff.2 hpending

/-- Skipped text comes on top, or nothing is taken off. -/
theorem isConfirmed_skipVersion (v : Version) (tokens : List Subtree) (popped skipped id : Nat)
    (relexed : Subtree) :
    (setting.skipVersion v tokens popped skipped id relexed).stack.IsConfirmed ∨
      (setting.skipVersion v tokens popped skipped id relexed).stack = v.stack := by
  rw [skipVersion]
  simp only
  split
  · rename_i hempty
    right
    have htaken := (List.append_eq_nil_iff.1 (List.isEmpty_iff.1 hempty)).1
    rw [List.reverse_eq_nil_iff, List.map_eq_nil_iff, List.take_eq_nil_iff] at htaken
    obtain ⟨⟨base, frames⟩, position, lookahead⟩ := v
    rcases htaken with rfl | hnil
    · rfl
    · obtain rfl : frames = [] := hnil
      rw [List.drop_nil]
  · exact .inl (isConfirmed_push _ _ _)

theorem takesWhole_of_isConfirmed {v : Version} (hlookahead : ∀ t ∈ v.lookahead, t.isLeaf = false →
    t.IsIntact) (hstack : v.stack.IsConfirmed) : v.TakesWhole := by
  refine ⟨hlookahead, fun top htop hpending => ?_⟩
  rw [hstack top htop] at hpending
  cases hpending

theorem takesWhole_of_moves {old : Option ReuseCursor} {v v' : Version} (hv : v.TakesWhole)
    (hmove : setting.Moves old v v') : v'.TakesWhole := by
  have hnothing : ∀ t ∈ (none : Option Subtree), t.isLeaf = false → t.IsIntact :=
    fun t ht => absurd ht (Option.not_mem_none t)
  have hlexed : ∀ {position : Nat} {mode : LexMode} {tree : Subtree},
      setting.Lexes position mode tree → ∀ t ∈ some tree, t.isLeaf = false → t.IsIntact := by
    rintro position mode tree ⟨id, rfl⟩ _ ⟨⟩ hnode
    cases hnode
  cases hmove with
  | lex mode tree hlex => exact ⟨hlexed hlex, hv.stack⟩
  | reuse start cursor tree hstart hcursor htree hoffset haccepts =>
      refine ⟨?_, hv.stack⟩
      rintro _ ⟨⟩ _
      exact (intact_of_accepts haccepts).2
  | enter => exact ⟨hnothing, hv.stack⟩
  | reduce s p forked id =>
      exact takesWhole_of_isConfirmed hv.lookahead (isConfirmed_reduceStack forked p id v.stack)
  | shift => exact takesWhole_of_isConfirmed hnothing (isConfirmed_push _ _ _)
  | shiftExtra => exact takesWhole_of_isConfirmed hnothing (isConfirmed_push _ _ _)
  | shiftReused lookahead target next hlookahead hnode =>
      refine ⟨hnothing, ?_⟩
      rintro _ ⟨⟩ _
      exact hv.lookahead lookahead hlookahead hnode
  | breakPending => exact takesWhole_of_isConfirmed hv.lookahead (isConfirmed_breakPending _ _)
  | missing => exact takesWhole_of_isConfirmed hv.lookahead (isConfirmed_push _ _ _)
  | skip lookahead relexed more popped skipped id mode _ _ _ hrelexed =>
      rcases isConfirmed_skipVersion v (lookahead :: more) popped skipped id relexed with
        hconfirmed | hsame
      · exact takesWhole_of_isConfirmed (hlexed hrelexed) hconfirmed
      · refine ⟨hlexed hrelexed, ?_⟩
        rw [hsame]
        exact hv.stack
  | skipLookahead => exact takesWhole_of_isConfirmed hnothing (isConfirmed_push _ _ _)

theorem takesWhole_of_reached {old : Option ReuseCursor} {v : Version}
    (hreached : setting.Reached old v) : v.TakesWhole := by
  induction hreached with
  | start => exact ⟨fun t ht => absurd ht (Option.not_mem_none t), nofun⟩
  | move v v' _ hmove ih => exact takesWhole_of_moves ih hmove

/-! ### Breaking up -/

theorem fst_breakPending_of_opens {t : Table} {s next : Stack} (hopens : s.Opens t next) :
    (breakPending t s).1 = true := by
  cases hopens with
  | children base top below pushes hpending hpushes =>
      rw [breakPending]
      simp only
      rw [if_pos hpending]
      split
      · rename_i hnone
        rw [hpushes] at hnone
        cases hnone
      · rfl

theorem CompiledFrom.breaksUp (h : setting.CompiledFrom g policy)
    (hfound : ∀ state s, ¬ setting.table.ForgetsShift state s) (hpath : s.Path g setting.table)
    (htiles : s.Tiles setting.table w) {top : Stack.Frame} (htop : top ∈ s.frames.head?)
    (hpending : top.pending = true) (hintact : top.tree.IsIntact) : s.BreaksUp setting.table := by
  obtain ⟨herror, hsize⟩ := hintact
  obtain ⟨base, frames⟩ := s
  cases frames with
  | nil => cases htop
  | cons frame below =>
      cases htop
      obtain ⟨_, u, _, _, hcovers⟩ := htiles.pop rfl
      have hne : u ≠ [] := by
        rintro rfl
        obtain ⟨_, size, happend, _, heq⟩ := hcovers.exists_eq_append
        rw [heq, (List.append_eq_nil_iff.1 happend.symm).2] at hsize
        exact hsize rfl
      have hnode := htiles.pending top List.mem_cons_self hpending
      have hcarries : (Stack.mk base (top :: below)).Carries setting.table below u :=
        .push base top below [] u (.nothing base) hcovers herror (by rw [hpending, hnode]; rfl)
      refine ⟨?_, ?_⟩
      · intro passed hrounds other hother hpending
        obtain ⟨hpath, hcarries⟩ := h.keeps_of_rounds hrounds hpath hcarries hne
        obtain ⟨_, _, hframes, herror, _⟩ := hcarries.exists_top hne
        rw [hframes] at hother
        cases hother
        exact h.joined_or_opens hfound hpath (by rw [hframes]; rfl) hpending herror
      · obtain ⟨last, hrounds, other, hother, hleaf | hjoined⟩ :=
          h.exists_last hfound hpath hcarries hne
        · refine ⟨last, hrounds, other, hother, .inl ⟨hleaf.1, ?_⟩⟩
          -- a pending node was on top, so a leaf is there after some rounds only
          rcases ReflTransGen.cases_head hrounds with rfl | ⟨next, hopens, _⟩
          · cases hother
            rw [hnode] at hleaf
            cases hleaf.1
          · exact Prod.ext (fst_breakPending_of_opens hopens) hleaf.2
        · exact ⟨last, hrounds, other, hother, .inr hjoined⟩

end ParseSetting

variable {d : GrammarDef} {policy : ConflictPolicy} {l : Language} {scanner : Option ExternalScanner}
  {number : Nat} {p : Parser} {old : Option Tree} {text : ByteArray}

/-- A pending node on top of a stack is broken up until a leaf is on top, unless the next one to be
broken up joins two parts of a repetition, and the stack still covers the text in front of its
version. -/
theorem Parser.breakPending_of_reached (hl : Language.load d policy = .ok l)
    (hnode : l.table.StartIsNode) (hscanner : ∀ x ∈ scanner, x.ReadsForward)
    (hfit : l.table.EntriesFit) (hapart : l.table.ExtrasApart)
    (hfound : ∀ state s, ¬ l.table.ForgetsShift state s)
    (hp : p.language = { l with scanner := scanner, id := number })
    (hbases : p.bases = RepetitionBases.ofTable l.table)
    (hold : ∀ tree ∈ old, tree.Made p.language ∧ Tree.Obtained p.language text tree ∧
      tree.EndsWithChildren l.table)
    {v : Version} (hv : (p.setting text).Reached (p.cursor? old) v) {top : Stack.Frame}
    (htop : top ∈ v.stack.frames.head?) (hpending : top.pending = true) :
    v.stack.BreaksUp l.table ∧
    ∃ done rest, text.data.toList = done ++ rest ∧ v.position = Length.ofList done ∧
      v.stack.Tiles l.table done ∧ (breakPending l.table v.stack).2.Tiles l.table done ∧
      leavesAll (breakPending l.table v.stack).2.trees = leavesAll v.stack.trees := by
  obtain ⟨g, hsetting⟩ := Parser.setting_compiledFrom hl hfit hapart hp hbases text
  have htable := Parser.table_setting hp text
  have hagrees := Parser.agrees_of_obtained hl hnode hscanner hp fun tree htree => (hold tree htree).2
  have hcursor := Parser.appliedRoot_cursor?_of_made hl hfit hapart hp
    fun tree htree _ => (hold tree htree).1
  rw [← htable] at hfound hagrees hcursor ⊢
  have hpath := (hsetting.onPath_of_reached hcursor hv).stack
  obtain ⟨done, rest, hfollows⟩ := ParseSetting.exists_follows_of_reached
    (Parser.setting_wellFormed hl hscanner hp text) hagrees hv
  have hintact := (ParseSetting.takesWhole_of_reached hv).stack top htop hpending
  exact ⟨hsetting.breaksUp hfound hpath hfollows.stack htop hpending hintact, done, rest,
    hfollows.text, hfollows.position, hfollows.stack, tiles_breakPending hfollows.stack,
    leavesAll_trees_breakPending hfollows.stack⟩

/-- A parse of the same text takes the old tree over whole. -/
theorem reached_optionalToken : ∃ l, Language.load .optionalToken .strict = .ok l ∧
    l.table = .optionalToken ∧
    let p := Parser.ofLanguage { l with scanner := none, id := 1 }
    let tree := (p.parse "x".toUTF8 none 0).tree
    let setting := p.setting "x".toUTF8
    setting.Reached (p.cursor? (some tree))
      (ParseSetting.shiftVersion setting.startVersion 2 tree.root true) ∧
      tree.EndsWithChildren l.table := by
  have hparse : (match Lexer.ofTable .optionalToken with
    | .ok lexer =>
      let l : Language := { table := .optionalToken, lexer := lexer, warnings := [], id := 1 }
      let tree := ((Parser.ofLanguage l).parse "x".toUTF8 none 0).tree
      tree.language.isSame l && ReuseCursor.accepts .optionalToken 0 tree.root &&
        !tree.root.isLeaf && tree.root.symbol == ⟨3⟩ && tree.root.head.firstLeaf.1 == ⟨1⟩ &&
        tree.root.total == Subtree.totalAll tree.root.children
    | .error _ => false) = true := by
    decide +kernel
  split at hparse
  · rename_i lexer hlexer
    simp only [Bool.and_eq_true, Bool.not_eq_true', beq_iff_eq] at hparse
    obtain ⟨⟨⟨⟨⟨hsame, haccepts⟩, hroot⟩, hsymbol⟩, hfirst⟩, htotal⟩ := hparse
    refine ⟨_, Language.load_eq load_optionalToken compile_optionalToken hlexer, rfl, ?_⟩
    intro p tree setting
    have hcursor : p.cursor? (some tree) = some (ReuseCursor.ofRoot tree.root) := by
      have hsame : tree.language.isSame p.language = true := hsame
      rw [Parser.cursor?, Option.filter_some, if_pos hsame]
      rfl
    have hreused : setting.Reached (p.cursor? (some tree))
        { setting.startVersion with lookahead := some tree.root } :=
      .move _ _ .start (.reuse _ _ _ tree.root hcursor .refl rfl rfl haccepts)
    have haction : setting.table.actionList 0 tree.root.head.firstLeaf.1 = [.shift 1] := by
      have hfirst : tree.root.head.firstLeaf.1 = ⟨1⟩ := hfirst
      rw [hfirst]
      rfl
    have hnext : setting.table.nextState? 0 tree.root.symbol = some 2 := by
      have hsymbol : tree.root.symbol = ⟨3⟩ := hsymbol
      rw [hsymbol]
      rfl
    exact ⟨.move _ _ hreused (.shiftReused _ tree.root 1 2 rfl hroot haction hnext),
      fun _ _ => htotal⟩
  · cases hparse

/-- The root that was taken over makes room for its token. -/
theorem breaksUp_optionalToken : ∃ l, Language.load .optionalToken .strict = .ok l ∧
    let p := Parser.ofLanguage { l with scanner := none, id := 1 }
    let tree := (p.parse "x".toUTF8 none 0).tree
    let setting := p.setting "x".toUTF8
    let v := ParseSetting.shiftVersion setting.startVersion 2 tree.root true
    setting.Reached (p.cursor? (some tree)) v ∧ v.stack.BreaksUp l.table := by
  obtain ⟨l, hl, htable, hreached, hwhole⟩ := reached_optionalToken
  have hcompiled : Table.compile .optionalToken .strict = .ok l.table := by
    rw [htable]
    exact compile_optionalToken
  obtain ⟨hfit, hapart⟩ := apart_optionalToken hcompiled
  have hstart : l.table.StartIsNode := by
    rw [htable, Table.StartIsNode]
    decide
  have hscanner : ∀ x ∈ (none : Option ExternalScanner), x.ReadsForward :=
    fun x hx => absurd hx (Option.not_mem_none x)
  have hfound : ∀ state s, ¬ l.table.ForgetsShift state s := by
    rw [htable]
    rintro state s ⟨r, hr, _⟩
    exact absurd hr (Array.not_mem_empty r)
  refine ⟨l, hl, hreached, (Parser.breakPending_of_reached hl hstart hscanner hfit hapart hfound rfl
    rfl ?_ hreached rfl rfl).1⟩
  rintro _ ⟨⟩
  exact ⟨.parse _ _ none 0 rfl rfl nofun, .parse _ _ 0 rfl, hwhole⟩

end IncrementalLR
