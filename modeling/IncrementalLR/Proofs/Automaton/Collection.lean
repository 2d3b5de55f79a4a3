import Mathlib.Data.List.Shortlex
import IncrementalLR.Proofs.Automaton.Lookups

/-!
# The collection is the canonical one

The states are the distinct sets of items that the start leads to, and a state has a successor on just
the symbols behind the dots of its closure. The states are numbered breadth first with symbols in
ascending order: the first words that lead to them, shorter ones first, stand in the order of the
numbers. A new number is given out while an edge is made, so that the states with smaller numbers are at
the ends of edges made before it.
-/

namespace IncrementalLR

/-! ### What a closure comes by -/

namespace Grammar

variable {g : Grammar}

/-- The closure that is computed holds just the items that a closure comes by. -/
theorem mem_closure_iff_visits (hg : g.WellFormed) {items : List Item} {item : Item} :
    item ∈ g.closure g.productionsByLhs items ↔ g.Visits items item := by
  refine ⟨fun h => ?_, Visits.mem_closure hg⟩
  refine closure_induction hg (fun _ hitem => .kernel hitem) (fun source i p hsource hp hnext => ?_)
    item h
  refine .expand hsource (nextNonterminal?_eq_some.2 ⟨hnext, hg.isTerminal_lhs hp⟩) ?_
  exact (mem_productionsByLhs (hg.nextSymbol?_usable hnext).2.2).2 ⟨p, hp, rfl⟩

end Grammar

namespace LookaheadTables

variable {g : Grammar}

theorem isSome_foldl_addTrail {entries : List (Symbol × SymbolSet)}
    {known : Array (Option SymbolSet)} {i : Nat} (hi : i < known.size) :
    ((entries.foldl addTrail known).getD i none).isSome = true ↔
      (known.getD i none).isSome = true ∨ ∃ entry ∈ entries, entry.1.index = i := by
  induction entries generalizing known with
  | nil => simp
  | cons entry entries ih =>
      have hsize : (addTrail known entry).size = known.size := by
        rw [addTrail, Array.size_modify]
      rw [List.foldl_cons, ih (hsize ▸ hi)]
      by_cases heq : entry.1.index = i
      · have hsome : ((addTrail known entry).getD i none).isSome = true := by
          rw [addTrail, heq, getD_modify_self hi]
          rfl
        exact iff_of_true (.inl hsome) (.inr ⟨entry, List.mem_cons_self, heq⟩)
      · rw [addTrail, getD_modify_of_ne heq]
        simp [heq]

/-- The nonterminals that something may follow in a closure are the corners of the origins. -/
theorem exists_closureFollows_iff (hg : g.WellFormed) {sources : List (Item × SymbolSet)}
    (hsources : AllBelow g.terminalCount sources) {s : Symbol} (hs : s.index < g.symbols.size) :
    (∃ set, ((ofGrammar g).closureFollows sources).getD s.index none = some set) ↔
      ∃ t origin f, (t, origin) ∈ (ofGrammar g).origins sources ∧
        (s, f) ∈ (ClosureTables.ofGrammar g).corners t := by
  rw [← Option.isSome_iff_exists, closureFollows_eq,
    isSome_foldl_addTrail (by rwa [Array.size_replicate]), getD_replicate_none]
  constructor
  · rintro (h | ⟨⟨s', set⟩, hmem, hindex⟩)
    · cases h
    · obtain ⟨t, origin, f, horigin, hf, _⟩ := (mem_handed hg hsources).1 hmem
      exact ⟨t, origin, f, horigin, Symbol.index_injective hindex ▸ hf⟩
  · rintro ⟨t, origin, f, horigin, hf⟩
    exact .inr ⟨(s, f.resolve origin), (mem_handed hg hsources).2 ⟨t, origin, f, horigin, hf, rfl⟩, rfl⟩

theorem map_fst_insertFollowed (new : Item × SymbolSet) (items : List (Item × SymbolSet)) :
    (closure.insertFollowed new items).map Prod.fst = insertItem new.1 (items.map Prod.fst) := by
  induction items with
  | nil => rfl
  | cons first items ih =>
      rw [closure.insertFollowed, List.map_cons, insertItem]
      split
      · rfl
      · split
        · rfl
        · rw [List.map_cons, ih]

/-- The items of a closure with lookaheads: the given ones, and the productions of the nonterminals that
something may follow. -/
theorem mem_map_fst_closure {sources : List (Item × SymbolSet)} {item : Item} :
    item ∈ ((ofGrammar g).closure sources).map Prod.fst ↔ item ∈ sources.map Prod.fst ∨
      (item.dot = 0 ∧ item.prod < g.productions.size ∧ ∃ set,
        ((ofGrammar g).closureFollows sources).getD (g.itemLhs item).index none = some set) := by
  have hfoldr : ∀ added : List (Item × SymbolSet),
      (sources.foldr closure.insertFollowed added).map Prod.fst
        = (sources.map Prod.fst).foldr insertItem (added.map Prod.fst) := by
    intro added
    rw [List.foldr_map]
    exact (List.foldr_hom (List.map Prod.fst) fun new items =>
      (map_fst_insertFollowed new items).symm).symm
  rw [closure, hfoldr, mem_foldr_insertItem]
  refine or_congr_right ?_
  obtain ⟨i, d⟩ := item
  constructor
  · intro h
    obtain ⟨entry, hentry, hitem⟩ := List.mem_map.1 h
    obtain ⟨j, hj, hsome⟩ := List.mem_filterMap.1 hentry
    obtain ⟨set, hset, rfl⟩ := Option.map_eq_some_iff.1 hsome
    cases hitem
    exact ⟨rfl, List.mem_range.1 hj, set, hset⟩
  · rintro ⟨rfl, hprod, set, hset⟩
    refine List.mem_map.2 ⟨(⟨i, 0⟩, set), List.mem_filterMap.2 ⟨i, List.mem_range.2 hprod, ?_⟩, rfl⟩
    exact congrArg (Option.map fun set => ((⟨i, 0⟩ : Item), set)) hset

/-- A closure with lookaheads has the items of the closure, whether anything follows them or not. -/
theorem mem_map_fst_closure_iff_visits (hg : g.WellFormed) {sources : List (Item × SymbolSet)}
    (hsources : AllBelow g.terminalCount sources) {item : Item} :
    item ∈ ((ofGrammar g).closure sources).map Prod.fst ↔ g.Visits (sources.map Prod.fst) item := by
  have hlhs : ∀ {i : Nat} {p : Production}, g.productions[i]? = some p →
      p.lhs.index < g.symbols.size := fun hp => (hg.lhs _ (Array.mem_of_getElem? hp)).2
  constructor
  · intro h
    rcases mem_map_fst_closure.1 h with h | ⟨hdot, hprod, hset⟩
    · exact .kernel h
    · obtain ⟨i, d⟩ := item
      have hp : g.productions[i]? = some g.productions[i] := Array.getElem?_eq_getElem hprod
      rw [Grammar.itemLhs_eq hp] at hset
      obtain ⟨t, origin, f, horigin, hf⟩ := (exists_closureFollows_iff hg hsources (hlhs hp)).1 hset
      obtain ⟨⟨source, hsource, hnext⟩, _⟩ := mem_origins hg hsources horigin
      obtain ⟨hfound, hclosed⟩ := Grammar.closureSymbols_closed hg (sources.map Prod.fst)
      refine (Grammar.mem_closure_iff_visits hg).1 (Grammar.mem_closure.2 (.inr ⟨hdot, hprod, ?_⟩))
      rw [Grammar.itemLhs_eq hp]
      exact ClosureTables.contains_of_mem_corners hg hclosed
        (usable_of_mem_origins hg hsources horigin)
        (hfound source.1 (List.mem_map_of_mem hsource) t hnext) hf
  · intro h
    induction h with
    | kernel hitem => exact mem_map_fst_closure.2 (.inl hitem)
    | @expand source s i _ hnext hi ih =>
        have husable := hg.nextSymbol?_usable (Grammar.nextNonterminal?_eq_some.1 hnext).1
        obtain ⟨p, hp, rfl⟩ := (Grammar.mem_productionsByLhs husable.2.2).1 hi
        refine mem_map_fst_closure.2 (.inr ⟨rfl, (Array.getElem?_eq_some_iff.1 hp).1, ?_⟩)
        rw [Grammar.itemLhs_eq hp, exists_closureFollows_iff hg hsources husable.2.2]
        rcases mem_map_fst_closure.1 ih with hmem | ⟨hdot, hprod, hset⟩
        · obtain ⟨entry, hentry, rfl⟩ := List.mem_map.1 hmem
          obtain ⟨origin, horigin, _⟩ := exists_mem_origins hentry hnext
          obtain ⟨f, hf, _⟩ := ClosureTables.exists_mem_corners_self hg husable
          exact ⟨p.lhs, origin, f, horigin, hf⟩
        · obtain ⟨j, d⟩ := source
          cases hdot
          have hq : g.productions[j]? = some g.productions[j] := Array.getElem?_eq_getElem hprod
          rw [Grammar.itemLhs_eq hq] at hset
          obtain ⟨t, origin, f, horigin, hf⟩ :=
            (exists_closureFollows_iff hg hsources (hlhs hq)).1 hset
          obtain ⟨f', hf', _⟩ := ClosureTables.exists_mem_corners_of_mem hg
            (usable_of_mem_origins hg hsources horigin) hf hq rfl hnext
          exact ⟨t, origin, f', horigin, hf'⟩

end LookaheadTables

/-! ### The order of the numbers -/

namespace Lr0

variable {g : Grammar}

namespace Builder

theorem run_add (g : Grammar) (m n : Nat) (b : Builder) :
    run g g.productionsByLhs (m + n) b
      = run g g.productionsByLhs n (run g g.productionsByLhs m b) := by
  induction m generalizing b with
  | zero => rw [Nat.zero_add, run]
  | succ m ih =>
      rw [Nat.succ_add, run, run]
      cases hnext : b.kernels[b.transitions.size]? with
      | none =>
          cases n with
          | zero => rfl
          | succ n => rw [run, hnext]
      | some kernel => exact ih _

/-- The edges made so far. -/
def Edge (b : Builder) (i : Nat) (s : Symbol) (q : Nat) : Prop :=
  ∃ edges, b.transitions[i]? = some edges ∧ (s, q) ∈ edges

/-- At the end of an edge stands a state after those that earlier edges lead to. -/
def InOrder (b : Builder) : Prop :=
  ∀ i s q, b.Edge i s q → ∀ p < q, p ≠ 0 →
    ∃ j s', b.Edge j s' p ∧ (j < i ∨ j = i ∧ s'.index < s.index)

theorem addState_le_size {b : Builder} (h : b.WellFormed g) (kernel : List Item) :
    (b.addState kernel).1 ≤ b.kernels.size := by
  rw [addState]
  cases hfound : b.index[kernel]? with
  | none => exact Nat.le_refl _
  | some i =>
      obtain ⟨hlt, _⟩ := Array.getElem?_eq_some_iff.1 ((h.index kernel i).1 hfound)
      exact Nat.le_of_lt hlt

/-- An edge of the state under way was made for a move, after those for the moves in front of it. -/
theorem exists_move_of_mem_foldl_addEdge {b : Builder} {moves : List (Symbol × List Item)}
    {s : Symbol} {q : Nat} (h : (s, q) ∈ (moves.foldl addEdge ([], b)).1) :
    ∃ done kernel rest, moves = done ++ (s, kernel) :: rest ∧
      q = ((done.foldl addEdge ([], b)).2.addState kernel).1 := by
  induction moves using List.reverseRecOn with
  | nil => cases h
  | append_singleton moves move ih =>
      rw [List.foldl_append, List.foldl_cons, List.foldl_nil, addEdge] at h
      rcases List.mem_cons.1 h with heq | h
      · cases heq
        exact ⟨moves, move.2, [], rfl, rfl⟩
      · obtain ⟨done, kernel, rest, rfl, hq⟩ := ih h
        exact ⟨done, kernel, rest ++ [move], by simp, hq⟩

theorem foldl_addEdge_mono (moves : List (Symbol × List Item))
    (state : List (Symbol × Nat) × Builder) : state.1 ⊆ (moves.foldl addEdge state).1 := by
  induction moves generalizing state with
  | nil => exact List.Subset.refl _
  | cons move moves ih => exact List.Subset.trans (List.subset_cons_self _ _) (ih (addEdge state move))

/-- The edges of one state lead in order to the states that are new. -/
theorem exists_earlier_edge (hg : g.WellFormed) {b : Builder} (hwf : b.WellFormed g)
    {kernel : List Item} {s : Symbol} {p q : Nat}
    (h : (s, q) ∈ ((moves g g.productionsByLhs kernel).foldl addEdge ([], b)).1)
    (hnew : b.kernels.size ≤ p) (hlt : p < q) :
    ∃ s', (s', p) ∈ ((moves g g.productionsByLhs kernel).foldl addEdge ([], b)).1 ∧
      s'.index < s.index := by
  obtain ⟨done, items, rest, hmoves, rfl⟩ := exists_move_of_mem_foldl_addEdge h
  have hdone : ∀ move ∈ done, KernelOf g move.2 := by
    intro move hmove
    refine kernelOf_moves hg kernel move ?_
    rw [hmoves]
    exact List.mem_append_left _ hmove
  have hsize := addState_le_size (foldl_addEdge_spec hwf hdone).1 items
  obtain ⟨s', hs'⟩ := exists_mem_foldl_addEdge b done hnew (Nat.lt_of_lt_of_le hlt hsize)
  refine ⟨s', ?_, ?_⟩
  · rw [hmoves, List.foldl_append]
    exact foldl_addEdge_mono _ _ hs'
  · obtain ⟨before, items', after, rfl, _⟩ := exists_move_of_mem_foldl_addEdge hs'
    have hascending := moves_ascending hg kernel
    rw [hmoves] at hascending
    exact (List.pairwise_append.1 hascending).2.2 (s', items') (by simp) (s, items) (by simp)

theorem edge_addTransitions {b : Builder} {moves : List (Symbol × List Item)}
    (htransitions : (moves.foldl addEdge ([], b)).2.transitions = b.transitions) {i : Nat} {s : Symbol}
    {q : Nat} : (b.addTransitions moves).Edge i s q ↔
      b.Edge i s q ∨ (i = b.transitions.size ∧ (s, q) ∈ (moves.foldl addEdge ([], b)).1) := by
  rw [Edge, Edge, addTransitions_eq]
  simp only [htransitions, Array.getElem?_push]
  by_cases hi : i = b.transitions.size
  · subst hi
    simp
  · simp [hi]

theorem InOrder.addTransitions {b : Builder} (h : b.InOrder) (hg : g.WellFormed)
    (hwf : b.WellFormed g) (hreached : b.Reached) (kernel : List Item) :
    (b.addTransitions (moves g g.productionsByLhs kernel)).InOrder := by
  obtain ⟨_, _, _, htransitions⟩ := foldl_addEdge_spec hwf (kernelOf_moves hg kernel)
  intro i s q hedge p hlt hne
  rcases (edge_addTransitions htransitions).1 hedge with hmade | ⟨rfl, hmade⟩
  · obtain ⟨j, s', hedge', hbefore⟩ := h i s q hmade p hlt hne
    exact ⟨j, s', (edge_addTransitions htransitions).2 (.inl hedge'), hbefore⟩
  · by_cases hold : p < b.kernels.size
    · obtain ⟨j, s', edges, _, hedges, hmem⟩ := hreached p hold hne
      obtain ⟨hj, _⟩ := Array.getElem?_eq_some_iff.1 hedges
      exact ⟨j, s', (edge_addTransitions htransitions).2 (.inl ⟨edges, hedges, hmem⟩), .inl hj⟩
    · obtain ⟨s', hs', hindex⟩ := exists_earlier_edge hg hwf hmade (Nat.le_of_not_lt hold) hlt
      exact ⟨b.transitions.size, s', (edge_addTransitions htransitions).2 (.inr ⟨rfl, hs'⟩),
        .inr ⟨rfl, hindex⟩⟩

theorem InOrder.run {b : Builder} (h : b.InOrder) (hg : g.WellFormed) (hwf : b.WellFormed g)
    (hreached : b.Reached) (fuel : Nat) : (run g g.productionsByLhs fuel b).InOrder := by
  induction fuel generalizing b with
  | zero => exact h
  | succ fuel ih =>
      rw [Builder.run]
      cases hnext : b.kernels[b.transitions.size]? with
      | none => exact h
      | some kernel =>
          exact ih (h.addTransitions hg hwf hreached kernel) (addTransitions_spec hg hwf hnext).1
            (hreached.addTransitions hg hwf hnext)

theorem inOrder_start : Builder.start.InOrder := by
  rintro i s q ⟨edges, hedges, _⟩
  cases hedges

end Builder

theorem edge_iff_step? (hg : g.WellFormed) {i q : Nat} {s : Symbol} :
    (Builder.run g g.productionsByLhs (1 <<< itemCount g) .start).Edge i s q ↔
      (ofGrammar g).step? i s = some q := by
  rw [step?_eq_some_iff_mem hg, Builder.Edge, edges, ofGrammar, Array.getD_eq_getD_getElem?]
  cases (Builder.run g g.productionsByLhs (1 <<< itemCount g) .start).transitions[i]? with
  | none => simp
  | some edges => simp

/-- States with smaller numbers are at the ends of earlier edges. -/
theorem exists_earlier_step? (hg : g.WellFormed) {i p q : Nat} {s : Symbol}
    (h : (ofGrammar g).step? i s = some q) (hlt : p < q) (hne : p ≠ 0) :
    ∃ j s', (ofGrammar g).step? j s' = some p ∧ (j < i ∨ j = i ∧ s'.index < s.index) := by
  have hinOrder := Builder.inOrder_start.run hg (wellFormed_start hg) reached_start (1 <<< itemCount g)
  obtain ⟨j, s', hedge, hbefore⟩ := hinOrder i s q ((edge_iff_step? hg).2 h) p hlt hne
  exact ⟨j, s', (edge_iff_step? hg).1 hedge, hbefore⟩

theorem shortlex_append {α : Type} {r : α → α → Prop} {u v : List α} (h : List.Shortlex r u v) (a b : α) :
    List.Shortlex r (u ++ [a]) (v ++ [b]) := by
  have hlex : ∀ {u v : List α}, List.Lex r u v → u.length = v.length →
      List.Lex r (u ++ [a]) (v ++ [b]) := by
    intro u v h
    induction h with
    | nil =>
        intro hlength
        cases hlength
    | cons _ ih => exact fun hlength => .cons (ih (Nat.succ.inj hlength))
    | rel h => exact fun _ => .rel h
  rcases List.shortlex_def.1 h with hlt | ⟨heq, h⟩
  · exact .of_length_lt (by simpa using hlt)
  · exact .of_lex (by simpa using heq) (hlex h heq)

/-- Words are ordered by their lengths, and of equal length as in a dictionary. -/
abbrev Earlier : List Symbol → List Symbol → Prop := List.Shortlex fun a b => a.index < b.index

/-- A word that leads to a state comes after words that lead to those with smaller numbers. -/
theorem exists_earlier_foldlM_step? (hg : g.WellFormed) {symbols : List Symbol} {p q : Nat}
    (h : symbols.foldlM (ofGrammar g).step? 0 = some q) (hlt : p < q) :
    ∃ others, others.foldlM (ofGrammar g).step? 0 = some p ∧ Earlier others symbols := by
  -- the last edge settles it unless an earlier one starts in a smaller state
  induction symbols using List.reverseRecOn generalizing p q with
  | nil =>
      cases h
      exact absurd hlt (Nat.not_lt_zero p)
  | append_singleton symbols s ih =>
      obtain ⟨i, hi, hstep⟩ := foldlM_step?_append.1 h
      by_cases hne : p = 0
      · exact ⟨[], by rw [hne]; rfl, .of_length_lt (by simp)⟩
      · obtain ⟨j, s', hedge, hj | ⟨rfl, hs'⟩⟩ := exists_earlier_step? hg hstep hlt hne
        · obtain ⟨others, hothers, hearlier⟩ := ih hi hj
          exact ⟨others ++ [s'], foldlM_step?_append.2 ⟨j, hothers, hedge⟩, shortlex_append hearlier s' s⟩
        · exact ⟨symbols ++ [s'], foldlM_step?_append.2 ⟨j, hi, hedge⟩,
            ((List.shortlex_singleton_iff s' s).2 hs').append_left symbols⟩

/-! ### The canonical collection -/

/-- The states are the sets of items that the start leads to, in breadth-first order. -/
structure IsCanonical (g : Grammar) (a : Lr0) : Prop where
  /-- the start production with the dot in front -/
  start : a.kernels[0]? = some [⟨0, 0⟩] ∧
    ∃ p, g.productions[0]? = some p ∧ p.lhs = g.augmented ∧ p.rhs = [g.start]
  distinct : ∀ p < a.kernels.size, ∀ q < a.kernels.size,
    (∀ item, item ∈ a.kernel p ↔ item ∈ a.kernel q) → p = q
  /-- there is a successor on just the symbols behind the dots of the closure -/
  steps : ∀ q s, (∃ target, a.step? q s = some target) ↔
    ∃ item, g.Visits (a.kernel q) item ∧ g.nextSymbol? item = some s
  target : ∀ q s target, a.step? q s = some target → target < a.kernels.size ∧
    ∀ item, item ∈ a.kernel target ↔
      ∃ source, g.Visits (a.kernel q) source ∧ g.nextSymbol? source = some s ∧ source.advance = item
  reached : ∀ q < a.kernels.size, ∃ symbols : List Symbol, symbols.foldlM a.step? 0 = some q
  /-- breadth first: the first words that lead to the states stand in the order of the states -/
  numbered : ∀ p q (symbols : List Symbol), p < q → symbols.foldlM a.step? 0 = some q →
    ∃ others, others.foldlM a.step? 0 = some p ∧ Earlier others symbols

theorem eq_of_mem_kernel_iff (hg : g.WellFormed) {p q : Nat} (hp : p < (ofGrammar g).kernels.size)
    (hq : q < (ofGrammar g).kernels.size)
    (h : ∀ item, item ∈ (ofGrammar g).kernel p ↔ item ∈ (ofGrammar g).kernel q) : p = q := by
  have heq : (ofGrammar g).kernel p = (ofGrammar g).kernel q :=
    List.Pairwise.eq_of_mem_iff (kernelOf_kernel hg p).ascending (kernelOf_kernel hg q).ascending h
  obtain ⟨b, hwf, _, hb⟩ := builder_spec hg
  rw [hb] at hp hq heq
  have hp' := (hwf.index _ p).2 (getElem?_eq_some_getD hp [])
  have hq' := (hwf.index _ q).2 (getElem?_eq_some_getD hq [])
  rw [kernel, kernel] at heq
  rw [heq, hq', Option.some.injEq] at hp'
  exact hp'.symm

theorem isCanonical (hg : g.WellFormed) : (ofGrammar g).IsCanonical g where
  start := by
    refine ⟨?_, hg.start⟩
    obtain ⟨b, hwf, _, heq⟩ := builder_spec hg
    rw [heq]
    exact hwf.start
  distinct := fun p hp q hq h => eq_of_mem_kernel_iff hg hp hq h
  steps := by
    intro q s
    constructor
    · rintro ⟨target, hstep⟩
      obtain ⟨item, hitem, hnext⟩ := exists_nextSymbol?_of_step? hg hstep
      exact ⟨item, (Grammar.mem_closure_iff_visits hg).1 hitem, hnext⟩
    · rintro ⟨item, hitem, hnext⟩
      obtain ⟨hq, hclosure⟩ := CompileLookup.mem_closure_of_visits hg (List.Subset.refl _) hitem
      obtain ⟨target, hstep, _⟩ := exists_step? hg hq hclosure hnext
      exact ⟨target, hstep⟩
  target := by
    intro q s target hstep
    obtain ⟨hlt, hkernel⟩ := kernel_of_step? hg hstep
    refine ⟨hlt, fun item => ?_⟩
    rw [hkernel, mem_successor]
    simp only [Grammar.mem_closure_iff_visits hg]
  reached := fun q hq => exists_foldlM_step? hg hq
  numbered := fun p q symbols hlt h => exists_earlier_foldlM_step? hg h hlt

/-- The construction ends: with enough rounds no state is left without its transitions, and more rounds
change nothing. -/
theorem run_eq_of_le (hg : g.WellFormed) {fuel : Nat} (hfuel : 2 ^ itemCount g ≤ fuel) :
    Builder.run g g.productionsByLhs fuel .start
        = Builder.run g g.productionsByLhs (1 <<< itemCount g) .start ∧
      (Builder.run g g.productionsByLhs fuel .start).transitions.size
        = (Builder.run g g.productionsByLhs fuel .start).kernels.size := by
  obtain ⟨more, rfl⟩ := Nat.exists_eq_add_of_le hfuel
  have hsize := (Builder.run_spec hg (wellFormed_start hg) (Nat.le_add_right (2 ^ itemCount g) 0)).2
  have hdone : Builder.run g g.productionsByLhs (2 ^ itemCount g + more) .start
      = Builder.run g g.productionsByLhs (2 ^ itemCount g) .start := by
    rw [Builder.run_add]
    cases more with
    | zero => rfl
    | succ more => rw [Builder.run, hsize, Array.getElem?_size]
  rw [hdone, Nat.one_shiftLeft]
  exact ⟨rfl, hsize⟩

end Lr0

open KernelFollows (states final)

/-- The construction of the states of a loaded grammar ends, and they are its canonical collection. The
closures that lookaheads are handed through hold just the items that they should, and for an item of
them the successor on the symbol behind its dot is there with the item that it becomes. -/
theorem Lr0.isCanonical_ofGrammar {d : GrammarDef} {g : Grammar} (hload : Grammar.load d = .ok g) :
    (∃ b : Builder, b.transitions.size = b.kernels.size ∧ ofGrammar g = ⟨b.kernels, b.transitions⟩ ∧
        ∃ n, ∀ fuel ≥ n, Builder.run g g.productionsByLhs fuel .start = b) ∧
      (ofGrammar g).IsCanonical g ∧
      ∀ q (sources : List (Item × SymbolSet)), AllBelow g.terminalCount sources →
        (∀ source ∈ sources, source.1 ∈ (states g).kernel q) →
        ∀ item, (item ∈ ((LookaheadTables.ofGrammar g).closure sources).map Prod.fst ↔
            g.Visits (sources.map Prod.fst) item) ∧
          (g.Visits (sources.map Prod.fst) item → ∀ s, g.nextSymbol? item = some s →
            ∃ target set, (states g).step? q s = some target ∧
              (item.advance, set) ∈ KernelFollows.kernel (states g) (final g) target) := by
  have hg := Grammar.load_wellFormed hload
  refine ⟨⟨Builder.run g g.productionsByLhs (1 <<< itemCount g) .start, ?_, rfl, 2 ^ itemCount g,
    fun fuel hfuel => (run_eq_of_le hg hfuel).1⟩, isCanonical hg, ?_⟩
  · exact (run_eq_of_le hg (Nat.le_of_eq (Nat.one_shiftLeft _).symm)).2
  · intro q sources hbelow hsources item
    refine ⟨LookaheadTables.mem_map_fst_closure_iff_visits hg hbelow, fun hitem s hnext => ?_⟩
    have hsub : sources.map Prod.fst ⊆ (states g).kernel q := by
      intro source hmem
      obtain ⟨entry, hentry, rfl⟩ := List.mem_map.1 hmem
      exact hsources entry hentry
    obtain ⟨hq, hclosure⟩ := CompileLookup.mem_closure_of_visits hg hsub hitem
    obtain ⟨target, hstep, hmem⟩ := exists_step? hg hq hclosure hnext
    obtain ⟨set, hset⟩ := CompileLookup.found_kernelItem hg hmem
    exact ⟨target, set, hstep, hset⟩

/-- A repeated token is read in the start state, which leads to the item behind it. -/
theorem Lr0.isCanonical_repeatedToken :
    Grammar.load .repeatedToken = .ok .repeatedToken ∧
      (ofGrammar .repeatedToken).IsCanonical .repeatedToken ∧
      ∃ target set, (states .repeatedToken).step? 0 ⟨1⟩ = some target ∧
        (⟨4, 1⟩, set) ∈ KernelFollows.kernel (states .repeatedToken) (final .repeatedToken) target := by
  obtain ⟨_, hcanonical, hlookups⟩ := isCanonical_ofGrammar load_repeatedToken
  refine ⟨load_repeatedToken, hcanonical, ?_⟩
  have hkernel : (states .repeatedToken).kernel 0 = startKernel :=
    kernel_zero (Grammar.load_wellFormed load_repeatedToken)
  have hvisits : Grammar.Visits .repeatedToken [⟨0, 0⟩] ⟨4, 0⟩ :=
    .expand (s := ⟨4⟩) (.expand (s := ⟨3⟩) (i := 1) (.kernel List.mem_cons_self) (by decide) (by decide))
      (by decide) (by decide)
  have hstart : ∀ source ∈ [((⟨0, 0⟩ : Item), SymbolSet.empty)],
      source.1 ∈ (states .repeatedToken).kernel 0 := by
    intro source hsource
    rw [List.mem_singleton.1 hsource, hkernel]
    exact List.mem_cons_self
  refine (hlookups 0 _ (fun entry hentry => ?_) hstart ⟨4, 0⟩).2 hvisits ⟨1⟩ (by decide)
  rw [List.mem_singleton.1 hentry]
  exact SymbolSet.below_empty

end IncrementalLR
