import Mathlib.Data.Finset.Powerset
import IncrementalLR.Automaton.Lr0
import IncrementalLR.Proofs.Automaton.Closure
import IncrementalLR.Proofs.Fold

/-!
# The canonical collection is complete

Every state of the collection has its successors: reading a symbol leads to the state whose kernel is
made of the items of the closure with the dot moved over the symbol. The number of sets of items
bounds the number of states, so that the fuel of the construction suffices. A state is added as the
successor of one before it, so all of them are reached from the first.
-/

namespace IncrementalLR.Lr0

variable {g : Grammar}

/-- The items of a closure that have the symbol behind the dot, with the dot moved over it. -/
def successor (g : Grammar) (kernel : List Item) (s : Symbol) : List Item :=
  ((g.closure g.productionsByLhs kernel).filter fun item =>
    decide (g.nextSymbol? item = some s)).map Item.advance

theorem mem_successor {kernel : List Item} {s : Symbol} {item : Item} :
    item ∈ successor g kernel s ↔ ∃ source ∈ g.closure g.productionsByLhs kernel,
      g.nextSymbol? source = some s ∧ source.advance = item := by
  simp [successor, and_assoc]

theorem ascending_successor (g : Grammar) (kernel : List Item) (s : Symbol) :
    Ascending (successor g kernel s) :=
  ((g.ascending_closure kernel).filter _).map_advance

/-! ### Moves -/

/-- The items that have each symbol behind the dot, with the dot moved over it. -/
def bySymbol (g : Grammar) (items : List Item) : Array (List Item) :=
  items.foldr
    (fun item (by_ : Array (List Item)) =>
      match g.nextSymbol? item with
      | some s => by_.modify s.index (item.advance :: ·)
      | none => by_)
    (Array.replicate g.symbols.size [])

theorem moves_eq (kernel : List Item) : moves g g.productionsByLhs kernel
    = (bySymbol g (g.closure g.productionsByLhs kernel)).toList.zipIdx.filterMap fun (items, i) =>
        if items.isEmpty then none else some (Symbol.ofIndex i, items) :=
  rfl

theorem size_bySymbol (g : Grammar) (items : List Item) :
    (bySymbol g items).size = g.symbols.size := by
  induction items with
  | nil => simp [bySymbol]
  | cons item items ih =>
      rw [bySymbol, List.foldr_cons]
      split
      · rw [Array.size_modify]
        exact ih
      · exact ih

theorem getD_bySymbol (hg : g.WellFormed) (items : List Item) {i : Nat} (hi : i < g.symbols.size) :
    (bySymbol g items).getD i [] = (items.filter fun item =>
      decide (g.nextSymbol? item = some (Symbol.ofIndex i))).map Item.advance := by
  have hindex : (Symbol.ofIndex i).index = i := Symbol.index_ofIndex (by have := hg.size; omega)
  induction items with
  | nil => exact getD_replicate hi [] []
  | cons item items ih =>
      have hsize := size_bySymbol g items
      rw [bySymbol, List.foldr_cons]
      cases hnext : g.nextSymbol? item with
      | none =>
          simp only [hnext, List.filter_cons, reduceCtorEq, decide_false, Bool.false_eq_true, if_false]
          exact ih
      | some s =>
          by_cases heq : s = Symbol.ofIndex i
          · subst heq
            simp only [hindex, List.filter_cons, hnext, decide_true, if_true, List.map_cons]
            rw [getD_modify_self (by rw [← bySymbol]; omega)]
            exact congrArg (item.advance :: ·) ih
          · have hne : s.index ≠ i := fun h => heq (by rw [← h, Symbol.ofIndex_index])
            simp only [List.filter_cons, hnext, Option.some.injEq, heq, decide_false,
              Bool.false_eq_true, if_false]
            rw [getD_modify_of_ne hne]
            exact ih

theorem mem_moves (hg : g.WellFormed) {kernel items : List Item} {s : Symbol} :
    (s, items) ∈ moves g g.productionsByLhs kernel ↔
      s.index < g.symbols.size ∧ items = successor g kernel s ∧ items ≠ [] := by
  have hbound := hg.size
  have hsize := size_bySymbol g (g.closure g.productionsByLhs kernel)
  rw [moves_eq, List.mem_filterMap]
  constructor
  · rintro ⟨⟨items', i⟩, hmem, hsome⟩
    rw [List.mk_mem_zipIdx_iff_getElem?, Array.getElem?_toList] at hmem
    obtain ⟨hi, _⟩ := Array.getElem?_eq_some_iff.1 hmem
    rw [getElem?_eq_some_getD hi [], getD_bySymbol hg _ (by omega), Option.some.injEq] at hmem
    simp only [Option.ite_none_left_eq_some, List.isEmpty_iff, Option.some.injEq,
      Prod.mk.injEq] at hsome
    obtain ⟨hne, rfl, rfl⟩ := hsome
    exact ⟨by rw [Symbol.index_ofIndex (by omega)]; omega, hmem.symm, hne⟩
  · rintro ⟨hs, rfl, hne⟩
    refine ⟨(successor g kernel s, s.index), ?_, ?_⟩
    · rw [List.mk_mem_zipIdx_iff_getElem?, Array.getElem?_toList,
        getElem?_eq_some_getD (by omega) [], getD_bySymbol hg _ hs, Symbol.ofIndex_index]
      rfl
    · simp only [Option.ite_none_left_eq_some, List.isEmpty_iff, Symbol.ofIndex_index, and_true]
      exact hne

/-- Moves come by ascending symbol. -/
theorem moves_ascending (hg : g.WellFormed) (kernel : List Item) :
    (moves g g.productionsByLhs kernel).Pairwise fun a b => a.1.index < b.1.index := by
  have hbound := hg.size
  have hsize := size_bySymbol g (g.closure g.productionsByLhs kernel)
  have hnumbers : (bySymbol g (g.closure g.productionsByLhs kernel)).toList.zipIdx.Pairwise
      fun a b => a.2 < b.2 := by
    refine List.pairwise_map.1 ?_
    rw [List.zipIdx_map_snd]
    exact List.pairwise_lt_range'
  rw [moves_eq, List.pairwise_filterMap]
  refine hnumbers.imp_of_mem fun {a b} ha hb hlt x hx y hy => ?_
  have hb' := List.snd_lt_of_mem_zipIdx hb
  simp only [Option.ite_none_left_eq_some, Option.some.injEq] at hx hy
  obtain ⟨_, rfl⟩ := hx
  obtain ⟨_, rfl⟩ := hy
  rw [Array.length_toList] at hb'
  rw [Symbol.index_ofIndex (by omega), Symbol.index_ofIndex (by omega)]
  exact hlt

theorem moves_distinct (hg : g.WellFormed) (kernel : List Item) :
    (moves g g.productionsByLhs kernel).Pairwise fun a b => a.1 ≠ b.1 :=
  (moves_ascending hg kernel).imp fun hlt heq => Nat.ne_of_lt hlt (congrArg Symbol.index heq)

/-! ### The sets of items are few enough -/

/-- The dot of the item is in its production. -/
def ItemOf (g : Grammar) (item : Item) : Prop :=
  ∃ p, g.productions[item.prod]? = some p ∧ item.dot ≤ p.steps.size

def allItems (g : Grammar) : List Item :=
  g.numbered.flatMap fun (p, i) => (List.range (p.steps.size + 1)).map fun d => ⟨i, d⟩

theorem mem_allItems {item : Item} : item ∈ allItems g ↔ ItemOf g item := by
  rw [allItems, List.mem_flatMap]
  constructor
  · rintro ⟨⟨p, i⟩, hmem, hitem⟩
    obtain ⟨d, hd, rfl⟩ := List.mem_map.1 hitem
    exact ⟨p, Grammar.mem_numbered.1 hmem, Nat.le_of_lt_succ (List.mem_range.1 hd)⟩
  · rintro ⟨p, hp, hdot⟩
    refine ⟨(p, item.prod), Grammar.mem_numbered.2 hp, List.mem_map.2 ⟨item.dot, ?_, rfl⟩⟩
    exact List.mem_range.2 (by omega)

theorem length_allItems (g : Grammar) : (allItems g).length = itemCount g := by
  have hfold : ∀ (productions : List Production) (k n : Nat),
      n + ((productions.zipIdx k).flatMap fun ((p, i) : Production × Nat) =>
        (List.range (p.steps.size + 1)).map fun d => (⟨i, d⟩ : Item)).length
        = productions.foldl (fun n p => n + p.steps.size + 1) n := by
    intro productions
    induction productions with
    | nil => simp
    | cons p productions ih =>
        intro k n
        rw [List.foldl_cons, ← ih (k + 1), List.zipIdx_cons, List.flatMap_cons, List.length_append,
          List.length_map, List.length_range]
        omega
  have := hfold g.productions.toList 0 0
  rw [Nat.zero_add] at this
  rw [allItems, Grammar.numbered, this, itemCount, Array.foldl_toList]

/-- The items of a kernel, in ascending order. -/
structure KernelOf (g : Grammar) (kernel : List Item) : Prop where
  ascending : Ascending kernel
  items : ∀ item ∈ kernel, ItemOf g item

theorem kernelOf_successor (g : Grammar) (kernel : List Item) (s : Symbol) :
    KernelOf g (successor g kernel s) := by
  refine ⟨ascending_successor g kernel s, fun item hitem => ?_⟩
  obtain ⟨source, hsource, hnext, rfl⟩ := mem_successor.1 hitem
  obtain ⟨p, hp, hs⟩ := Grammar.nextSymbol?_eq_some.1 hnext
  obtain ⟨hlt, _⟩ := List.getElem?_eq_some_iff.1 hs
  refine ⟨p, hp, ?_⟩
  simp only [Production.rhs, List.length_map, Array.length_toList] at hlt
  simp only [Item.advance]
  omega

theorem kernelOf_moves (hg : g.WellFormed) (kernel : List Item) :
    ∀ move ∈ moves g g.productionsByLhs kernel, KernelOf g move.2 := by
  intro move hmove
  rw [((mem_moves hg).1 hmove).2.1]
  exact kernelOf_successor g kernel move.1

/-- Distinct sets of items are no more than there are subsets of the items. -/
theorem length_le_of_kernelOf {kernels : List (List Item)} (hnodup : kernels.Nodup)
    (h : ∀ kernel ∈ kernels, KernelOf g kernel) : kernels.length ≤ 2 ^ itemCount g := by
  calc kernels.length = kernels.toFinset.card := (List.toFinset_card_of_nodup hnodup).symm
    _ ≤ (allItems g).toFinset.powerset.card := by
        refine Finset.card_le_card_of_injOn List.toFinset ?_ ?_
        · intro kernel hkernel
          have hkernel := h kernel (List.mem_toFinset.1 hkernel)
          refine Finset.mem_powerset.2 fun item hitem => ?_
          exact List.mem_toFinset.2 (mem_allItems.2 (hkernel.items item (List.mem_toFinset.1 hitem)))
        · intro a ha b hb heq
          have ha := h a (List.mem_toFinset.1 ha)
          have hb := h b (List.mem_toFinset.1 hb)
          refine List.Pairwise.eq_of_mem_iff ha.ascending hb.ascending fun item => ?_
          rw [← List.mem_toFinset, heq, List.mem_toFinset]
    _ = 2 ^ (allItems g).toFinset.card := Finset.card_powerset _
    _ ≤ 2 ^ itemCount g := by
        rw [← length_allItems]
        exact Nat.pow_le_pow_right (by omega) (List.toFinset_card_le _)

/-! ### The construction -/

namespace Builder

/-- The states found so far are distinct kernels, found again by their numbers, and the transitions
made so far lead to the successors. -/
structure WellFormed (g : Grammar) (b : Builder) : Prop where
  start : b.kernels[0]? = some startKernel
  kernel : ∀ kernel ∈ b.kernels, KernelOf g kernel
  index : ∀ (kernel : List Item) (i : Nat), b.index[kernel]? = some i ↔ b.kernels[i]? = some kernel
  size : b.transitions.size ≤ b.kernels.size
  transitions : ∀ (i : Nat) (kernel : List Item) (edges : List (Symbol × Nat)),
    b.kernels[i]? = some kernel → b.transitions[i]? = some edges →
    List.Forall₂ (fun edge move => edge.1 = move.1 ∧ b.kernels[edge.2]? = some move.2) edges
      (moves g g.productionsByLhs kernel)

/-- States keep their numbers. -/
def Extends (b b' : Builder) : Prop :=
  ∀ (i : Nat) (kernel : List Item), b.kernels[i]? = some kernel → b'.kernels[i]? = some kernel

theorem WellFormed.nodup {b : Builder} (h : b.WellFormed g) : b.kernels.toList.Nodup := by
  refine List.nodup_iff_getElem?_ne_getElem?.2 fun i j hij hj heq => ?_
  rw [Array.getElem?_toList, Array.getElem?_toList] at heq
  have hi : b.kernels[i]? = some b.kernels[j] := by
    rw [heq]
    exact Array.getElem?_eq_getElem hj
  have hi' := (h.index _ i).2 hi
  have hj' := (h.index _ j).2 (Array.getElem?_eq_getElem hj)
  rw [hi', Option.some.injEq] at hj'
  omega

theorem WellFormed.size_le {b : Builder} (h : b.WellFormed g) :
    b.kernels.size ≤ 2 ^ itemCount g := by
  rw [← Array.length_toList]
  exact length_le_of_kernelOf h.nodup fun kernel hkernel => h.kernel kernel (Array.mem_toList_iff.1 hkernel)

theorem addState_spec {b : Builder} (h : b.WellFormed g) {kernel : List Item}
    (hkernel : KernelOf g kernel) :
    (b.addState kernel).2.WellFormed g ∧ b.Extends (b.addState kernel).2 ∧
      (b.addState kernel).2.kernels[(b.addState kernel).1]? = some kernel ∧
      (b.addState kernel).2.transitions = b.transitions := by
  rw [addState]
  cases hfound : b.index[kernel]? with
  | some i => exact ⟨h, fun _ _ hi => hi, (h.index kernel i).1 hfound, rfl⟩
  | none =>
      have hextends : ∀ (i : Nat) (other : List Item), b.kernels[i]? = some other →
          (b.kernels.push kernel)[i]? = some other :=
        fun _ _ hi => getElem?_push_of_eq_some hi kernel
      refine ⟨⟨hextends 0 _ h.start, ?_, ?_, ?_, ?_⟩, hextends, ?_, rfl⟩
      · intro other hother
        rcases Array.mem_push.1 hother with hother | rfl
        · exact h.kernel other hother
        · exact hkernel
      · intro other i
        simp only [Std.HashMap.getElem?_insert, Array.getElem?_push]
        by_cases hi : i = b.kernels.size
        · subst hi
          by_cases heq : kernel = other
          · simp [heq]
          · simp [heq, h.index]
        · by_cases heq : kernel = other
          · subst heq
            have hnot : ¬ b.kernels[i]? = some kernel := by
              rw [← h.index, hfound]
              exact Option.some_ne_none i ∘ Eq.symm
            simp [hi, hnot, Ne.symm hi]
          · simp [heq, h.index, hi]
      · simp only [Array.size_push]
        exact Nat.le_succ_of_le h.size
      · intro i other edges hi hedges
        have hsize := h.size
        obtain ⟨hlt, _⟩ := Array.getElem?_eq_some_iff.1 hedges
        simp only at hlt hedges
        rw [Array.getElem?_push_lt (by omega), ← Array.getElem?_eq_getElem] at hi
        exact (h.transitions i other edges hi hedges).imp fun _ _ hmove =>
          ⟨hmove.1, hextends _ _ hmove.2⟩
      · simp

/-- One edge of the state under way. -/
def addEdge (state : List (Symbol × Nat) × Builder) (move : Symbol × List Item) :
    List (Symbol × Nat) × Builder :=
  ((move.1, (state.2.addState move.2).1) :: state.1, (state.2.addState move.2).2)

theorem addTransitions_eq (b : Builder) (moves : List (Symbol × List Item)) :
    b.addTransitions moves = { (moves.foldl addEdge ([], b)).2 with
      transitions := (moves.foldl addEdge ([], b)).2.transitions.push
        (moves.foldl addEdge ([], b)).1.reverse } :=
  rfl

theorem foldl_addEdge_spec {b : Builder} (h : b.WellFormed g) {moves : List (Symbol × List Item)}
    (hmoves : ∀ move ∈ moves, KernelOf g move.2) :
    (moves.foldl addEdge ([], b)).2.WellFormed g ∧ b.Extends (moves.foldl addEdge ([], b)).2 ∧
      List.Forall₂ (fun edge move => edge.1 = move.1 ∧
        (moves.foldl addEdge ([], b)).2.kernels[edge.2]? = some move.2)
        (moves.foldl addEdge ([], b)).1.reverse moves ∧
      (moves.foldl addEdge ([], b)).2.transitions = b.transitions := by
  refine foldl_induction (f := addEdge) (b := ([], b))
    (fun (done : List (Symbol × List Item)) (state : List (Symbol × Nat) × Builder) =>
      state.2.WellFormed g ∧ b.Extends state.2 ∧
      List.Forall₂ (fun edge move => edge.1 = move.1 ∧ state.2.kernels[edge.2]? = some move.2)
        state.1.reverse done ∧ state.2.transitions = b.transitions)
    ⟨h, fun _ _ hi => hi, .nil, rfl⟩ ?_
  intro done move rest state heq ⟨hwf, hextends, hedges, htransitions⟩
  have hkernel : KernelOf g move.2 := hmoves move (by rw [heq]; simp)
  obtain ⟨hwf', hextends', htarget, htransitions'⟩ := addState_spec hwf hkernel
  refine ⟨hwf', fun i other hi => hextends' i other (hextends i other hi), ?_,
    htransitions'.trans htransitions⟩
  rw [addEdge, List.reverse_cons]
  refine List.rel_append ?_ ?_
  · exact hedges.imp fun _ _ hmove => ⟨hmove.1, hextends' _ _ hmove.2⟩
  · exact .cons ⟨rfl, htarget⟩ .nil

theorem addTransitions_spec (hg : g.WellFormed) {b : Builder} (h : b.WellFormed g)
    {kernel : List Item} (hnext : b.kernels[b.transitions.size]? = some kernel) :
    (b.addTransitions (moves g g.productionsByLhs kernel)).WellFormed g ∧
      (b.addTransitions (moves g g.productionsByLhs kernel)).transitions.size
        = b.transitions.size + 1 := by
  obtain ⟨hwf, hextends, hedges, htransitions⟩ := foldl_addEdge_spec h (kernelOf_moves hg kernel)
  rw [addTransitions_eq]
  have hlast := hextends _ _ hnext
  obtain ⟨hlt, _⟩ := Array.getElem?_eq_some_iff.1 hlast
  refine ⟨⟨hwf.start, hwf.kernel, hwf.index, ?_, ?_⟩, ?_⟩
  · simp only [Array.size_push, htransitions]
    omega
  · intro i other edges hi hedges'
    simp only [Array.getElem?_push, htransitions] at hi hedges' ⊢
    split at hedges'
    · rename_i hsize
      cases hedges'
      rw [hsize, hlast] at hi
      cases hi
      exact hedges
    · rw [← htransitions] at hedges'
      exact hwf.transitions i other edges hi hedges'
  · simp only [Array.size_push, htransitions]

/-- With enough fuel every state found has its transitions in the end. -/
theorem run_spec (hg : g.WellFormed) {fuel : Nat} {b : Builder} (h : b.WellFormed g)
    (hfuel : 2 ^ itemCount g ≤ fuel + b.transitions.size) :
    (run g g.productionsByLhs fuel b).WellFormed g ∧
      (run g g.productionsByLhs fuel b).transitions.size
        = (run g g.productionsByLhs fuel b).kernels.size := by
  have hsize := h.size
  have hbound := h.size_le
  induction fuel generalizing b with
  | zero =>
      rw [run]
      exact ⟨h, by omega⟩
  | succ fuel ih =>
      rw [run]
      cases hnext : b.kernels[b.transitions.size]? with
      | none =>
          have hge := Array.getElem?_eq_none_iff.1 hnext
          exact ⟨h, Nat.le_antisymm hsize hge⟩
      | some kernel =>
          obtain ⟨hwf, hsize'⟩ := addTransitions_spec hg h hnext
          exact ih hwf (by omega) hwf.size hwf.size_le

/-! ### States are reached -/

/-- Every state but the first is a successor of one before it. -/
def Reached (b : Builder) : Prop :=
  ∀ i < b.kernels.size, i ≠ 0 → ∃ (j : Nat) (s : Symbol) (edges : List (Symbol × Nat)),
    j < i ∧ b.transitions[j]? = some edges ∧ (s, i) ∈ edges

/-- A state with a new number is the one that was added. -/
theorem eq_of_size_le_addState {b : Builder} {kernel : List Item} {i : Nat}
    (hi : b.kernels.size ≤ i) (hlt : i < (b.addState kernel).2.kernels.size) :
    (b.addState kernel).1 = i := by
  rw [addState] at hlt ⊢
  cases hfound : b.index[kernel]? with
  | some state =>
      simp only [hfound] at hlt
      omega
  | none =>
      simp only [hfound, Array.size_push] at hlt ⊢
      omega

/-- The states that the edges of one state add are at their ends. -/
theorem exists_mem_foldl_addEdge (b : Builder) (moves : List (Symbol × List Item)) {i : Nat}
    (hi : b.kernels.size ≤ i) (hlt : i < (moves.foldl addEdge ([], b)).2.kernels.size) :
    ∃ s, (s, i) ∈ (moves.foldl addEdge ([], b)).1 := by
  revert hlt
  refine foldl_induction (f := addEdge) (b := ([], b))
    (fun (_ : List (Symbol × List Item)) (state : List (Symbol × Nat) × Builder) =>
      i < state.2.kernels.size → ∃ s, (s, i) ∈ state.1) ?_ ?_
  · intro hlt
    simp only at hlt
    omega
  · intro done move rest state _ ih hlt
    rw [addEdge] at hlt ⊢
    by_cases hold : i < state.2.kernels.size
    · obtain ⟨s, hs⟩ := ih hold
      exact ⟨s, List.mem_cons_of_mem _ hs⟩
    · refine ⟨move.1, ?_⟩
      rw [eq_of_size_le_addState (Nat.le_of_not_lt hold) hlt]
      exact List.mem_cons_self

theorem Reached.addTransitions {b : Builder} (h : b.Reached) (hg : g.WellFormed)
    (hwf : b.WellFormed g) {kernel : List Item}
    (hnext : b.kernels[b.transitions.size]? = some kernel) :
    (b.addTransitions (moves g g.productionsByLhs kernel)).Reached := by
  obtain ⟨_, _, _, htransitions⟩ := foldl_addEdge_spec hwf (kernelOf_moves hg kernel)
  obtain ⟨hsource, _⟩ := Array.getElem?_eq_some_iff.1 hnext
  intro i hi hne
  rw [addTransitions_eq] at hi ⊢
  simp only [htransitions] at hi ⊢
  by_cases hold : i < b.kernels.size
  · obtain ⟨j, s, edges, hj, hedges, hmem⟩ := h i hold hne
    exact ⟨j, s, edges, hj, getElem?_push_of_eq_some hedges _, hmem⟩
  · have hle := Nat.le_of_not_lt hold
    obtain ⟨s, hs⟩ := exists_mem_foldl_addEdge b _ hle hi
    exact ⟨b.transitions.size, s, _, Nat.lt_of_lt_of_le hsource hle, Array.getElem?_push_size,
      List.mem_reverse.2 hs⟩

theorem Reached.run {b : Builder} (h : b.Reached) (hg : g.WellFormed) (hwf : b.WellFormed g)
    (fuel : Nat) : (run g g.productionsByLhs fuel b).Reached := by
  induction fuel generalizing b with
  | zero => exact h
  | succ fuel ih =>
      rw [Builder.run]
      cases hnext : b.kernels[b.transitions.size]? with
      | none => exact h
      | some kernel =>
          exact ih (h.addTransitions hg hwf hnext) (addTransitions_spec hg hwf hnext).1

end Builder

/-! ### The collection -/

/-- The start state alone, which has no transitions yet. -/
abbrev Builder.start : Builder :=
  { kernels := #[startKernel], index := Std.HashMap.ofList [(startKernel, 0)] }

theorem wellFormed_start (hg : g.WellFormed) : Builder.start.WellFormed g := by
  refine ⟨rfl, ?_, ?_, Nat.zero_le _, ?_⟩
  · intro kernel hkernel
    rw [List.mem_singleton.1 (Array.mem_toList_iff.2 hkernel)]
    obtain ⟨p, hp, _⟩ := hg.start
    refine ⟨List.pairwise_singleton _ _, fun item hitem => ?_⟩
    rw [List.mem_singleton.1 hitem]
    exact ⟨p, hp, Nat.zero_le _⟩
  · intro kernel i
    rw [Builder.start, Std.HashMap.ofList_singleton, Std.HashMap.getElem?_insert]
    by_cases hkernel : startKernel = kernel
    · subst hkernel
      cases i with
      | zero => simp
      | succ i => simp
    · cases i with
      | zero => simp [hkernel]
      | succ i => simp [hkernel]
  · intro i kernel edges _ hedges
    simp at hedges

theorem builder_spec (hg : g.WellFormed) : ∃ b : Builder, b.WellFormed g ∧
    b.transitions.size = b.kernels.size ∧ ofGrammar g = ⟨b.kernels, b.transitions⟩ := by
  have hfuel : 2 ^ itemCount g ≤ 1 <<< itemCount g + 0 := Nat.le_of_eq (Nat.one_shiftLeft _).symm
  obtain ⟨hwf, hsize⟩ := Builder.run_spec hg (wellFormed_start hg) hfuel
  exact ⟨_, hwf, hsize, rfl⟩

theorem kernel_zero (hg : g.WellFormed) : (ofGrammar g).kernel 0 = startKernel := by
  obtain ⟨b, hwf, _, heq⟩ := builder_spec hg
  rw [heq, kernel, Array.getD_eq_getD_getElem?, hwf.start, Option.getD_some]

theorem size_kernels_pos (hg : g.WellFormed) : 0 < (ofGrammar g).kernels.size := by
  obtain ⟨b, hwf, _, heq⟩ := builder_spec hg
  rw [heq]
  exact (Array.getElem?_eq_some_iff.1 hwf.start).1

theorem kernelOf_kernel (hg : g.WellFormed) (q : Nat) : KernelOf g ((ofGrammar g).kernel q) := by
  obtain ⟨b, hwf, _, heq⟩ := builder_spec hg
  rw [heq, kernel]
  by_cases hq : q < b.kernels.size
  · exact hwf.kernel _ (Array.mem_of_getElem? (getElem?_eq_some_getD hq []))
  · rw [getD_of_size_le (Nat.le_of_not_lt hq)]
    exact ⟨List.Pairwise.nil, by simp⟩

theorem edges_spec (hg : g.WellFormed) {q : Nat} (hq : q < (ofGrammar g).kernels.size) :
    List.Forall₂ (fun edge move => edge.1 = move.1 ∧ edge.2 < (ofGrammar g).kernels.size ∧
        (ofGrammar g).kernel edge.2 = move.2)
      ((ofGrammar g).edges q) (moves g g.productionsByLhs ((ofGrammar g).kernel q)) := by
  obtain ⟨b, hwf, hsize, heq⟩ := builder_spec hg
  rw [heq] at hq ⊢
  simp only [kernel, edges] at hq ⊢
  refine (hwf.transitions q _ _ (getElem?_eq_some_getD hq [])
    (getElem?_eq_some_getD (by omega) [])).imp fun edge move hmove => ?_
  obtain ⟨hlt, _⟩ := Array.getElem?_eq_some_iff.1 hmove.2
  refine ⟨hmove.1, hlt, ?_⟩
  rw [Array.getD_eq_getD_getElem?, hmove.2, Option.getD_some]

theorem edges_eq_nil (hg : g.WellFormed) {q : Nat} (hq : ¬ q < (ofGrammar g).kernels.size) :
    (ofGrammar g).edges q = [] := by
  obtain ⟨b, hwf, hsize, heq⟩ := builder_spec hg
  rw [heq] at hq ⊢
  exact getD_of_size_le (by simp only at hq ⊢; omega) []

theorem step?_eq_some_iff_mem (hg : g.WellFormed) {q q' : Nat} {s : Symbol} :
    (ofGrammar g).step? q s = some q' ↔ (s, q') ∈ (ofGrammar g).edges q := by
  refine lookup_eq_some_iff_mem ?_
  by_cases hq : q < (ofGrammar g).kernels.size
  · have hkeys : ((ofGrammar g).edges q).map Prod.fst
        = (moves g g.productionsByLhs ((ofGrammar g).kernel q)).map Prod.fst := by
      rw [← List.forall₂_eq_eq_eq, List.forall₂_map_left_iff, List.forall₂_map_right_iff]
      exact (edges_spec hg hq).imp fun _ _ hmove => hmove.1
    have hdistinct : (((ofGrammar g).edges q).map Prod.fst).Pairwise fun a b => a ≠ b := by
      rw [hkeys]
      exact List.pairwise_map.2 (moves_distinct hg ((ofGrammar g).kernel q))
    exact List.pairwise_map.1 hdistinct
  · rw [edges_eq_nil hg hq]
    exact List.Pairwise.nil

/-- Reading a symbol leads to the state of the items with the dot moved over the symbol. -/
theorem kernel_of_step? (hg : g.WellFormed) {q q' : Nat} {s : Symbol}
    (h : (ofGrammar g).step? q s = some q') :
    q' < (ofGrammar g).kernels.size ∧
      (ofGrammar g).kernel q' = successor g ((ofGrammar g).kernel q) s := by
  rw [step?_eq_some_iff_mem hg] at h
  by_cases hq : q < (ofGrammar g).kernels.size
  · obtain ⟨move, hmove, hs, hlt, hkernel⟩ := exists_mem_of_forall₂ (edges_spec hg hq) h
    simp only at hs
    subst hs
    exact ⟨hlt, hkernel.trans ((mem_moves hg).1 hmove).2.1⟩
  · rw [edges_eq_nil hg hq] at h
    cases h

/-- A symbol that can be read stands behind a dot. -/
theorem exists_nextSymbol?_of_step? (hg : g.WellFormed) {q q' : Nat} {s : Symbol}
    (h : (ofGrammar g).step? q s = some q') :
    ∃ item ∈ g.closure g.productionsByLhs ((ofGrammar g).kernel q), g.nextSymbol? item = some s := by
  rw [step?_eq_some_iff_mem hg] at h
  by_cases hq : q < (ofGrammar g).kernels.size
  · obtain ⟨move, hmove, hs, _⟩ := exists_mem_of_forall₂ (edges_spec hg hq) h
    obtain ⟨_, hitems, hne⟩ := (mem_moves hg).1 hmove
    obtain ⟨moved, hmoved⟩ := List.exists_mem_of_ne_nil move.2 hne
    rw [hitems] at hmoved
    obtain ⟨item, hitem, hnext, _⟩ := mem_successor.1 hmoved
    exact ⟨item, hitem, hnext.trans (congrArg some hs.symm)⟩
  · rw [edges_eq_nil hg hq] at h
    cases h

/-- A symbol behind a dot can be read. -/
theorem exists_step? (hg : g.WellFormed) {q : Nat} (hq : q < (ofGrammar g).kernels.size)
    {item : Item} (hitem : item ∈ g.closure g.productionsByLhs ((ofGrammar g).kernel q))
    {s : Symbol} (hs : g.nextSymbol? item = some s) :
    ∃ q', (ofGrammar g).step? q s = some q' ∧ item.advance ∈ (ofGrammar g).kernel q' := by
  have hmem : item.advance ∈ successor g ((ofGrammar g).kernel q) s :=
    mem_successor.2 ⟨item, hitem, hs, rfl⟩
  have hmove : (s, successor g ((ofGrammar g).kernel q) s)
      ∈ moves g g.productionsByLhs ((ofGrammar g).kernel q) :=
    (mem_moves hg).2 ⟨(hg.nextSymbol?_usable hs).2.2, rfl, List.ne_nil_of_mem hmem⟩
  obtain ⟨⟨s', q'⟩, hedge, hs', hlt, hkernel⟩ :=
    exists_mem_of_forall₂_right (edges_spec hg hq) hmove
  simp only at hs' hkernel
  subst hs'
  refine ⟨q', (step?_eq_some_iff_mem hg).2 hedge, ?_⟩
  rw [hkernel]
  exact hmem

theorem reached_start : Builder.start.Reached := by
  intro i hi hne
  simp only [List.size_toArray, List.length_cons, List.length_nil] at hi
  omega

theorem exists_step?_eq_of_ne_zero (hg : g.WellFormed) {q : Nat}
    (hq : q < (ofGrammar g).kernels.size) (hne : q ≠ 0) :
    ∃ p s, p < q ∧ (ofGrammar g).step? p s = some q := by
  obtain ⟨p, s, found, hlt, hfound, hmem⟩ :=
    reached_start.run hg (wellFormed_start hg) (1 <<< itemCount g) q hq hne
  refine ⟨p, s, hlt, (step?_eq_some_iff_mem hg).2 ?_⟩
  have hedges : (ofGrammar g).edges p = found := by
    rw [edges, ofGrammar, Array.getD_eq_getD_getElem?]
    exact congrArg (Option.getD · []) hfound
  rwa [hedges]

/-- Every state is reached from the first. -/
theorem exists_foldlM_step? (hg : g.WellFormed) {q : Nat} (hq : q < (ofGrammar g).kernels.size) :
    ∃ symbols : List Symbol, symbols.foldlM (ofGrammar g).step? 0 = some q := by
  induction q using Nat.strong_induction_on with
  | _ q ih =>
      by_cases hne : q = 0
      · exact ⟨[], by rw [hne]; rfl⟩
      · obtain ⟨p, s, hlt, hstep⟩ := exists_step?_eq_of_ne_zero hg hq hne
        obtain ⟨symbols, hsymbols⟩ := ih p hlt (Nat.lt_trans hlt hq)
        refine ⟨symbols ++ [s], ?_⟩
        simp [List.foldlM_append, hsymbols, hstep]

end IncrementalLR.Lr0
