import Mathlib.Data.Set.Basic
import IncrementalLR.Proofs.Automaton.Propagation

/-!
# Valid items and canonical sets of items

An item is valid in a state with a terminal when the closure of the state has it and the terminal
follows it. Validity starts with the start production and the end of input, goes along with the dot,
and goes from an item to the productions of the nonterminal behind its dot.

The items of the canonical construction carry a terminal each that may follow their production. They
start with the start production in front of the end of input and go on symbol by symbol, and no two
sets are ever merged. Here the items of a state of the collection are compared with the canonical items
behind the symbols that lead to the state: without their terminals they are the same, and with them
the canonical items are valid in the state.
-/

namespace IncrementalLR

variable {g : Grammar}

open KernelFollows (states final)

/-- The items of a state with what follows them. -/
def stateItems (g : Grammar) (q : Nat) : List (Item × SymbolSet) :=
  (LookaheadTables.ofGrammar g).closure (KernelFollows.kernel (states g) (final g) q)

structure Valid (g : Grammar) (q : Nat) (item : Item) (x : Symbol) : Prop where
  closure : item ∈ g.closure g.productionsByLhs ((states g).kernel q)
  looks : Looks (stateItems g q) item x

theorem mem_kernel_of_looks_kernel {q : Nat} {item : Item} {x : Symbol}
    (h : Looks (KernelFollows.kernel (states g) (final g) q) item x) :
    item ∈ (states g).kernel q := by
  obtain ⟨set, hmem, _⟩ := h
  exact (List.of_mem_zip hmem).1

/-- Items with the dot further on come from the kernel. -/
theorem mem_kernel_of_looks {q : Nat} {item : Item} {x : Symbol}
    (h : Looks (stateItems g q) item x) (hdot : item.dot ≠ 0) : item ∈ (states g).kernel q := by
  rcases LookaheadTables.looks_closure.1 h with h | ⟨hzero, _⟩
  · exact mem_kernel_of_looks_kernel h
  · exact absurd hzero hdot

theorem mem_closure_of_looks (hg : g.WellFormed) {q : Nat} {item : Item} {x : Symbol}
    (h : Looks (stateItems g q) item x) :
    item ∈ g.closure g.productionsByLhs ((states g).kernel q) :=
  LookaheadTables.mem_closure_of_looks hg ((KernelFollows.final_spec hg).1.allBelow q)
    (fun _ hentry => (List.of_mem_zip hentry).1) h

/-- Only the end of input follows the start production. -/
theorem eq_eof_of_looks_start (hg : g.WellFormed) {q d : Nat} {x : Symbol}
    (h : Looks (stateItems g q) ⟨0, d⟩ x) : x = Symbol.eof := by
  have hfollows := (KernelFollows.final_spec hg).1
  rcases LookaheadTables.looks_closure.1 h with h | ⟨_, _, htrail⟩
  · exact hfollows.start q ⟨0, d⟩ x h rfl
  · obtain ⟨p, hp, hlhs, _⟩ := hg.start
    rw [Grammar.itemLhs_eq hp, hlhs] at htrail
    exact absurd htrail (LookaheadTables.not_trails_augmented hg (hfollows.allBelow q))

theorem valid_start (hg : g.WellFormed) : Valid g 0 ⟨0, 0⟩ Symbol.eof := by
  refine ⟨g.subset_closure _ ?_, LookaheadTables.looks_closure.2 (.inl (KernelFollows.final_spec hg).2.1)⟩
  rw [Lr0.kernel_zero hg]
  exact List.mem_singleton_self _

/-- The sources of what is handed on are in the order of the items that they become. -/
theorem sources_sublist (hg : g.WellFormed) {q q' : Nat} (hq : q < (states g).kernels.size)
    {s : Symbol} (hstep : (states g).step? q s = some q') :
    (((KernelFollows.kernel (states g) (final g) q).filter fun entry =>
      decide (g.nextSymbol? entry.1 = some s)).map fun source => source.1.advance).Sublist
        ((states g).kernel q') := by
  rw [(Lr0.kernel_of_step? hg hstep).2, Lr0.successor]
  have hkernel : ((states g).kernel q).Sublist (g.closure g.productionsByLhs ((states g).kernel q)) :=
    (Lr0.kernelOf_kernel hg q).ascending.sublist_of_subset (g.ascending_closure _)
      (g.subset_closure _)
  have hzip : (KernelFollows.kernel (states g) (final g) q).map Prod.fst = (states g).kernel q := by
    have hrow := (KernelFollows.final_spec hg).1.row q hq
    exact List.map_fst_zip (Nat.le_of_eq hrow.symm)
  have hfilter := (hkernel.filter fun item => decide (g.nextSymbol? item = some s)).map Item.advance
  rw [← hzip, List.filter_map, List.map_map, hzip] at hfilter
  exact hfilter

/-- Validity goes along with the dot. -/
theorem Valid.step (hg : g.WellFormed) {q : Nat} (hq : q < (states g).kernels.size) {item : Item}
    {x s : Symbol} (h : Valid g q item x) (hs : g.nextSymbol? item = some s) :
    ∃ q', (states g).step? q s = some q' ∧ Valid g q' item.advance x := by
  obtain ⟨q', hstep, hmem⟩ := Lr0.exists_step? hg hq h.closure hs
  refine ⟨q', hstep, g.subset_closure _ hmem, LookaheadTables.looks_closure.2 (.inl ?_)⟩
  have hedge : (s, q') ∈ (states g).edges q := (Lr0.step?_eq_some_iff_mem hg).1 hstep
  refine (KernelFollows.final_spec hg).2.2 q (s, q') hedge item.advance x ?_
  rcases LookaheadTables.looks_closure.1 h.looks with hkernel | ⟨hdot, _, htrail⟩
  · refine KernelFollows.looks_handOn_of_source (sources_sublist hg hq hstep) ?_
    exact (KernelFollows.looks_filter fun item => decide (g.nextSymbol? item = some s)).2
      ⟨hkernel, decide_eq_true hs⟩
  · refine KernelFollows.looks_handOn_of_trails hmem ?_ htrail
    rw [Item.advance, hdot]

/-- Validity goes to the productions of the nonterminal behind the dot: what can come after it
follows them. -/
theorem Valid.expand (hg : g.WellFormed) {q : Nat} {item : Item} {x y : Symbol}
    (h : Valid g q item x) {i : Nat} {p : Production} (hp : g.productions[i]? = some p)
    (hnext : g.nextNonterminal? item = some p.lhs)
    (hy : (ClosureTables.followAfter g (FirstSets.ofGrammar g) item).set.contains y = true ∨
      ((ClosureTables.followAfter g (FirstSets.ofGrammar g) item).inherits = true ∧ y = x)) :
    Valid g q ⟨i, 0⟩ y :=
  ⟨g.mem_closure_of_nextNonterminal? hg h.closure hp hnext,
    LookaheadTables.looks_closure_of_nextNonterminal? hg
      ((KernelFollows.final_spec hg).1.allBelow q) h.looks hp hnext hy⟩

/-! ### Canonical sets -/

namespace Grammar

/-- The closure of a set of canonical items: behind a nonterminal in front of which a dot stands comes
the rest of the production and then what follows the production. -/
inductive InClosure (g : Grammar) (items : Set (Item × Symbol)) : Item → Symbol → Prop
  | item (item : Item) (x : Symbol) (h : (item, x) ∈ items) : InClosure g items item x
  | expand (item : Item) (x y : Symbol) (i : Nat) (p q : Production)
      (h : InClosure g items item x) (hq : g.productions[item.prod]? = some q)
      (hp : g.productions[i]? = some p) (hnext : g.nextSymbol? item = some p.lhs)
      (hy : g.Starts (q.rhs.drop (item.dot + 1) ++ [x]) y) : InClosure g items ⟨i, 0⟩ y

def canonicalClosure (g : Grammar) (items : Set (Item × Symbol)) : Set (Item × Symbol) :=
  {entry | g.InClosure items entry.1 entry.2}

/-- The items with the symbol behind the dot, with the dot moved over it. -/
def canonicalStep (g : Grammar) (items : Set (Item × Symbol)) (s : Symbol) : Set (Item × Symbol) :=
  {entry | ∃ item, (item, entry.2) ∈ items ∧ g.nextSymbol? item = some s ∧ item.advance = entry.1}

/-- The canonical set behind some symbols. -/
def canonicalItems (g : Grammar) (symbols : List Symbol) : Set (Item × Symbol) :=
  symbols.foldl (fun items s => g.canonicalClosure (g.canonicalStep items s))
    (g.canonicalClosure {(⟨0, 0⟩, Symbol.eof)})

theorem canonicalItems_append (g : Grammar) (symbols : List Symbol) (s : Symbol) :
    g.canonicalItems (symbols ++ [s])
      = g.canonicalClosure (g.canonicalStep (g.canonicalItems symbols) s) := by
  unfold canonicalItems
  rw [List.foldl_append]
  rfl

/-- A canonical set is a closure. -/
theorem canonicalItems_expand (g : Grammar) (symbols : List Symbol) {item : Item} {x y : Symbol}
    {i : Nat} {p q : Production} (h : (item, x) ∈ g.canonicalItems symbols)
    (hq : g.productions[item.prod]? = some q) (hp : g.productions[i]? = some p)
    (hnext : g.nextSymbol? item = some p.lhs)
    (hy : g.Starts (q.rhs.drop (item.dot + 1) ++ [x]) y) :
    ((⟨i, 0⟩ : Item), y) ∈ g.canonicalItems symbols := by
  induction symbols using List.reverseRecOn with
  | nil => exact .expand item x y i p q h hq hp hnext hy
  | append_singleton symbols s _ =>
      rw [canonicalItems_append] at h ⊢
      exact .expand item x y i p q h hq hp hnext hy

theorem mem_canonicalItems_advance (g : Grammar) {symbols : List Symbol} {s : Symbol} {item : Item}
    {x : Symbol} (h : (item, x) ∈ g.canonicalItems symbols) (hs : g.nextSymbol? item = some s) :
    (item.advance, x) ∈ g.canonicalItems (symbols ++ [s]) := by
  rw [canonicalItems_append]
  exact .item _ _ ⟨item, h, hs, rfl⟩

/-! ### What can start a rest -/

open ClosureTables (followAfter)

theorem exists_starts (hg : g.WellFormed) (hproductive : g.Productive) {item : Item}
    {q : Production} (hq : g.productions[item.prod]? = some q) {x : Symbol}
    (hx : g.isTerminal x = true) : ∃ y, g.Starts (q.rhs.drop (item.dot + 1) ++ [x]) y := by
  obtain ⟨w, hw⟩ := hproductive.exists_yieldsAll fun s hs =>
    (hg.rhs q (Array.mem_of_getElem? hq) s (List.mem_of_mem_drop hs)).2.2
  have hall := hw.append (yieldsAll_of_terminals fun s hs => by rwa [List.mem_singleton.1 hs])
  cases w with
  | nil => exact ⟨x, hx, [], hall.derives⟩
  | cons y w => exact ⟨y, hw.isTerminal y List.mem_cons_self, w ++ [x], hall.derives⟩

/-- What starts the rest of a production and what follows it is what the first sets say. -/
theorem starts_iff (hg : g.WellFormed) {item : Item} {q : Production}
    (hq : g.productions[item.prod]? = some q) {x y : Symbol} (hx : g.isTerminal x = true) :
    g.Starts (q.rhs.drop (item.dot + 1) ++ [x]) y ↔
      (followAfter g (FirstSets.ofGrammar g) item).set.contains y = true ∨
        ((followAfter g (FirstSets.ofGrammar g) item).inherits = true ∧ y = x) := by
  rw [ClosureTables.followAfter_eq hq, ← FirstSets.contains_ofSeq_iff hg,
    FirstSets.contains_ofSeq_append, Bool.or_eq_true, Bool.and_eq_true,
    FirstSets.contains_ofSeq_singleton, FirstSets.contains_firstOf_terminal_iff hg hx]

end Grammar

/-! ### States and canonical sets -/

theorem foldlM_step?_append {a : Lr0} {symbols : List Symbol} {s : Symbol} {q : Nat} :
    (symbols ++ [s]).foldlM a.step? 0 = some q ↔
      ∃ p, symbols.foldlM a.step? 0 = some p ∧ a.step? p s = some q := by
  simp [List.foldlM_append, Option.bind_eq_some_iff]

theorem lt_of_foldlM_step? (hg : g.WellFormed) {symbols : List Symbol} {q : Nat}
    (h : symbols.foldlM (states g).step? 0 = some q) : q < (states g).kernels.size := by
  cases symbols using List.reverseRecOn with
  | nil =>
      cases h
      exact Lr0.size_kernels_pos hg
  | append_singleton symbols s =>
      obtain ⟨p, _, hstep⟩ := foldlM_step?_append.1 h
      exact (Lr0.kernel_of_step? hg hstep).1

theorem exists_mem_canonicalItems_of_closure (hg : g.WellFormed) (hproductive : g.Productive)
    {symbols : List Symbol} {kernel : List Item}
    (hkernel : ∀ item ∈ kernel,
      ∃ x, g.isTerminal x = true ∧ (item, x) ∈ g.canonicalItems symbols) :
    ∀ item ∈ g.closure g.productionsByLhs kernel,
      ∃ x, g.isTerminal x = true ∧ (item, x) ∈ g.canonicalItems symbols := by
  apply Grammar.closure_induction hg hkernel
  rintro item i p ⟨x, hx, hmem⟩ hp hnext
  obtain ⟨q, hq, _⟩ := Grammar.nextSymbol?_eq_some.1 hnext
  obtain ⟨y, hy⟩ := Grammar.exists_starts hg hproductive hq hx
  exact ⟨y, hy.1, g.canonicalItems_expand symbols hmem hq hp hnext hy⟩

/-- An item of a state is a canonical item behind all symbols that lead to the state. -/
theorem exists_mem_canonicalItems (hg : g.WellFormed) (hproductive : g.Productive)
    {symbols : List Symbol} {q : Nat} (h : symbols.foldlM (states g).step? 0 = some q) :
    ∀ item ∈ g.closure g.productionsByLhs ((states g).kernel q),
      ∃ x, g.isTerminal x = true ∧ (item, x) ∈ g.canonicalItems symbols := by
  induction symbols using List.reverseRecOn generalizing q with
  | nil =>
      cases h
      apply exists_mem_canonicalItems_of_closure hg hproductive
      intro item hitem
      rw [Lr0.kernel_zero hg, Lr0.startKernel, List.mem_singleton] at hitem
      subst hitem
      exact ⟨Symbol.eof, decide_eq_true hg.terminals, .item _ _ rfl⟩
  | append_singleton symbols s ih =>
      obtain ⟨p, hp, hstep⟩ := foldlM_step?_append.1 h
      apply exists_mem_canonicalItems_of_closure hg hproductive
      intro item hitem
      rw [(Lr0.kernel_of_step? hg hstep).2, Lr0.mem_successor] at hitem
      obtain ⟨source, hsource, hnext, rfl⟩ := hitem
      obtain ⟨x, hx, hmem⟩ := ih hp source hsource
      exact ⟨x, hx, g.mem_canonicalItems_advance hmem hnext⟩

theorem Valid.of_inClosure (hg : g.WellFormed) {q : Nat} {items : Set (Item × Symbol)}
    (hitems : ∀ item x, (item, x) ∈ items → g.isTerminal x = true ∧ Valid g q item x) {item : Item}
    {x : Symbol} (h : g.InClosure items item x) : g.isTerminal x = true ∧ Valid g q item x := by
  induction h with
  | item item x h => exact hitems item x h
  | expand item x y i p r _ hr hp hnext hy ih =>
      refine ⟨hy.1, ih.2.expand hg hp ?_ ((Grammar.starts_iff hg hr ih.1).1 hy)⟩
      exact Grammar.nextNonterminal?_eq_some.2 ⟨hnext, hg.isTerminal_lhs hp⟩

/-- Canonical items are valid in the state to which the symbols lead. -/
theorem Valid.of_mem_canonicalItems (hg : g.WellFormed) {symbols : List Symbol} {q : Nat}
    (h : symbols.foldlM (states g).step? 0 = some q) {item : Item} {x : Symbol}
    (hmem : (item, x) ∈ g.canonicalItems symbols) :
    g.isTerminal x = true ∧ Valid g q item x := by
  induction symbols using List.reverseRecOn generalizing q item x with
  | nil =>
      cases h
      refine Valid.of_inClosure hg (fun item x hmem => ?_) hmem
      cases hmem
      exact ⟨decide_eq_true hg.terminals, valid_start hg⟩
  | append_singleton symbols s ih =>
      obtain ⟨p, hp, hstep⟩ := foldlM_step?_append.1 h
      rw [Grammar.canonicalItems_append] at hmem
      refine Valid.of_inClosure hg (fun item x hmem => ?_) hmem
      obtain ⟨source, hsource, hnext, rfl⟩ := hmem
      obtain ⟨hx, hvalid⟩ := ih hp hsource
      obtain ⟨q', hstep', hvalid'⟩ := hvalid.step hg (lt_of_foldlM_step? hg hp) hnext
      rw [hstep, Option.some.injEq] at hstep'
      rw [hstep']
      exact ⟨hx, hvalid'⟩

end IncrementalLR
