import IncrementalLR.Proofs.Automaton.Canonical
import IncrementalLR.Proofs.Grammar.Layout
import IncrementalLR.Proofs.Grammar.Strict

/-!
# Lookups of the compiler

The compiler goes from items to the symbols behind their dots, from there to productions and to
successors, and from lookaheads to cells. All that it looks up on this way is listed here, and in a
loaded grammar all of it is there.
-/

namespace IncrementalLR

open KernelFollows (states final)

/-- A place that compiling a grammar looks up. -/
inductive CompileLookup where
  /-- what is kept for a symbol: its record, its productions, its first terminals -/
  | symbol (s : Symbol)
  | production (number : Nat)
  /-- the step behind a dot -/
  | step (item : Item)
  /-- what is kept for a state: its kernel, its successors, its lookaheads -/
  | state (q : Nat)
  | successor (q : Nat) (s : Symbol)
  /-- the lookaheads of a kernel item in a state -/
  | kernelItem (q : Nat) (item : Item)
  /-- the lookaheads of an item in the closure of items -/
  | closureItem (items : List Item) (item : Item)
  /-- the entry of a symbol in the row of a state -/
  | entry (q : Nat) (s : Symbol)
  deriving DecidableEq, Repr

/-- There is something at the place. The rows stand side by side, so that an entry that is not in its
row would be found in another. -/
def CompileLookup.Found (g : Grammar) : CompileLookup → Prop
  | symbol s => s.index < g.symbols.size
  | production number => number < g.productions.size
  | step item => ∃ p, g.productions[item.prod]? = some p ∧ item.dot < p.steps.size
  | state q => q < (states g).kernels.size ∧ q < (states g).transitions.size ∧ q < (final g).size
  | successor q s => ∃ target, (states g).step? q s = some target
  | kernelItem q item => ∃ set, (item, set) ∈ KernelFollows.kernel (states g) (final g) q
  | closureItem items item => item ∈ g.closure g.productionsByLhs items
  | entry q s => s.index < g.symbols.size ∧
      q * g.symbols.size + s.index < (states g).kernels.size * g.symbols.size

namespace Grammar

variable {g : Grammar}

/-- The items that a closure comes by: the given ones, and the productions of a nonterminal behind the
dot of one that it came by. -/
inductive Visits (g : Grammar) (items : List Item) : Item → Prop
  | kernel {item : Item} (hitem : item ∈ items) : Visits g items item
  | expand {item : Item} {s : Symbol} {i : Nat} (h : Visits g items item)
      (hnext : g.nextNonterminal? item = some s) (hi : i ∈ g.productionsByLhs.getD s.index []) :
      Visits g items ⟨i, 0⟩

/-- All that compiling looks up, with what led to it. Closures are taken of whole kernels and of single
kernel items. -/
inductive CompileLooksUp (g : Grammar) : CompileLookup → Prop
  | terminal {s : Symbol} (hs : g.isTerminal s = true) : CompileLooksUp g (.symbol s)
  | lhs {p : Production} (hp : p ∈ g.productions) : CompileLooksUp g (.symbol p.lhs)
  | rhs {p : Production} {s : Symbol} (hp : p ∈ g.productions) (hs : s ∈ p.rhs) :
      CompileLooksUp g (.symbol s)
  | item {q : Nat} {items : List Item} {item : Item} (hitems : items ⊆ (states g).kernel q)
      (hitem : g.Visits items item) : CompileLooksUp g (.production item.prod)
  | closureItem {q : Nat} {items : List Item} {item : Item} (hitems : items ⊆ (states g).kernel q)
      (hitem : g.Visits items item) : CompileLooksUp g (.closureItem items item)
  | step {q : Nat} {items : List Item} {item : Item} {s : Symbol}
      (hitems : items ⊆ (states g).kernel q) (hitem : g.Visits items item)
      (hnext : g.nextSymbol? item = some s) : CompileLooksUp g (.step item)
  | next {q : Nat} {items : List Item} {item : Item} {s : Symbol}
      (hitems : items ⊆ (states g).kernel q) (hitem : g.Visits items item)
      (hnext : g.nextSymbol? item = some s) : CompileLooksUp g (.symbol s)
  | startState : CompileLooksUp g (.state 0)
  | state {q : Nat} (hq : q < (states g).kernels.size) : CompileLooksUp g (.state q)
  | target {q target : Nat} {s : Symbol} (hedge : (s, target) ∈ (states g).edges q) :
      CompileLooksUp g (.state target)
  | successor {q : Nat} {items : List Item} {item : Item} {s : Symbol}
      (hitems : items ⊆ (states g).kernel q) (hitem : g.Visits items item)
      (hnext : g.nextSymbol? item = some s) : CompileLooksUp g (.successor q s)
  /-- the lookaheads of a kernel item are handed on to others -/
  | source {q : Nat} {item : Item} (hitem : item ∈ (states g).kernel q) :
      CompileLooksUp g (.kernelItem q item)
  | handedOn {q target : Nat} {items : List Item} {item : Item} {s : Symbol}
      (hitems : items ⊆ (states g).kernel q) (hitem : g.Visits items item)
      (hnext : g.nextSymbol? item = some s) (htarget : (states g).step? q s = some target) :
      CompileLooksUp g (.kernelItem target item.advance)
  | edge {q target : Nat} {s : Symbol} (hedge : (s, target) ∈ (states g).edges q) :
      CompileLooksUp g (.entry q s)
  | shift {q : Nat} {item : Item} {s : Symbol} (hitem : g.Visits ((states g).kernel q) item)
      (hnext : g.nextSymbol? item = some s) : CompileLooksUp g (.entry q s)
  /-- the cell of a reduction, and what a conflict in it says of the lookahead -/
  | reduce {q : Nat} {item : Item} {x : Symbol} (hx : Looks (stateItems g q) item x) {k : CompileLookup}
      (hk : k ∈ [.entry q x, .production item.prod, .symbol x]) : CompileLooksUp g k
  /-- the terminals of a lex mode -/
  | mode {q : Nat} {s : Symbol} (hq : q < (states g).kernels.size) (hs : g.isTerminal s = true) :
      CompileLooksUp g (.entry q s)

/-- A closure comes by items of the closure only. -/
theorem Visits.mem_closure (hg : g.WellFormed) {items : List Item} {item : Item}
    (h : g.Visits items item) : item ∈ g.closure g.productionsByLhs items := by
  induction h with
  | kernel hitem => exact g.subset_closure items hitem
  | @expand item s i _ hnext hi ih =>
      have hs := hg.nextSymbol?_usable (nextNonterminal?_eq_some.1 hnext).1
      obtain ⟨p, hp, rfl⟩ := (mem_productionsByLhs hs.2.2).1 hi
      exact mem_closure_of_nextNonterminal? hg ih hp hnext

theorem Visits.mono {items others : List Item} (hsub : items ⊆ others) {item : Item}
    (h : g.Visits items item) : g.Visits others item := by
  induction h with
  | kernel hitem => exact .kernel (hsub hitem)
  | expand _ hnext hi ih => exact .expand ih hnext hi

theorem Visits.exists_mem {items : List Item} {item : Item} (h : g.Visits items item) :
    ∃ source, source ∈ items := by
  induction h with
  | kernel hitem => exact ⟨_, hitem⟩
  | expand _ _ _ ih => exact ih

theorem prod_lt_of_mem_closure {items : List Item} (hitems : ∀ item ∈ items, Lr0.ItemOf g item)
    {item : Item} (h : item ∈ g.closure g.productionsByLhs items) : item.prod < g.productions.size := by
  rcases mem_closure.1 h with h | ⟨_, hprod, _⟩
  · obtain ⟨p, hp, _⟩ := hitems item h
    exact (Array.getElem?_eq_some_iff.1 hp).1
  · exact hprod

end Grammar

/-- Only terminals follow an item. -/
theorem isTerminal_of_looks {g : Grammar} (hg : g.WellFormed) {q : Nat} {item : Item} {x : Symbol}
    (h : Looks (stateItems g q) item x) : g.isTerminal x = true := by
  have hbelow := (KernelFollows.final_spec hg).1.allBelow q
  apply decide_eq_true
  rcases LookaheadTables.looks_closure.1 h with ⟨set, hmem, hx⟩ | ⟨_, _, set, hset, hx⟩
  · exact hbelow _ hmem _ hx
  · exact LookaheadTables.below_closureFollows hg hbelow hset _ hx

namespace CompileLookup

variable {g : Grammar} {q : Nat} {item : Item} {s : Symbol}

theorem lt_of_mem_kernel (h : item ∈ (states g).kernel q) : q < (states g).kernels.size := by
  by_contra hq
  rw [Lr0.kernel, getD_of_size_le (Nat.le_of_not_lt hq)] at h
  cases h

theorem found_state (hg : g.WellFormed) (hq : q < (states g).kernels.size) : (state q).Found g := by
  obtain ⟨b, _, hsize, heq⟩ := Lr0.builder_spec hg
  have htransitions : (states g).transitions.size = (states g).kernels.size := by
    rw [states, heq]
    exact hsize
  exact ⟨hq, htransitions ▸ hq, (KernelFollows.final_spec hg).1.size ▸ hq⟩

theorem found_entry (hq : q < (states g).kernels.size) (hs : s.index < g.symbols.size) :
    (entry q s).Found g := by
  refine ⟨hs, ?_⟩
  calc q * g.symbols.size + s.index
    _ < q * g.symbols.size + g.symbols.size := Nat.add_lt_add_left hs _
    _ = (q + 1) * g.symbols.size := (Nat.succ_mul _ _).symm
    _ ≤ (states g).kernels.size * g.symbols.size := Nat.mul_le_mul_right _ hq

theorem found_kernelItem (hg : g.WellFormed) (hitem : item ∈ (states g).kernel q) :
    (kernelItem q item).Found g := by
  have hrow := (KernelFollows.final_spec hg).1.row q (lt_of_mem_kernel hitem)
  have hzip : (KernelFollows.kernel (states g) (final g) q).map Prod.fst = (states g).kernel q :=
    List.map_fst_zip (Nat.le_of_eq hrow.symm)
  rw [← hzip] at hitem
  obtain ⟨⟨_, set⟩, hmem, rfl⟩ := List.mem_map.1 hitem
  exact ⟨set, hmem⟩

/-- What a closure of kernel items comes by is in the closure of the state. -/
theorem mem_closure_of_visits (hg : g.WellFormed) {items : List Item}
    (hitems : items ⊆ (states g).kernel q) (h : g.Visits items item) :
    q < (states g).kernels.size ∧ item ∈ g.closure g.productionsByLhs ((states g).kernel q) := by
  obtain ⟨source, hsource⟩ := h.exists_mem
  exact ⟨lt_of_mem_kernel (hitems hsource), (h.mono hitems).mem_closure hg⟩

theorem found_of_looksUp (hg : g.WellFormed) {k : CompileLookup} (h : g.CompileLooksUp k) :
    k.Found g := by
  have hprod : ∀ {q : Nat} {item : Item},
      item ∈ g.closure g.productionsByLhs ((states g).kernel q) → item.prod < g.productions.size :=
    fun h => Grammar.prod_lt_of_mem_closure (Lr0.kernelOf_kernel hg _).items h
  have hterminal : ∀ {s : Symbol}, g.isTerminal s = true → s.index < g.symbols.size :=
    fun hs => Nat.lt_trans (of_decide_eq_true hs) hg.augmented_lt
  cases h with
  | terminal hs => exact hterminal hs
  | lhs hp => exact (hg.lhs _ hp).2
  | rhs hp hs => exact (hg.rhs _ hp _ hs).2.2
  | item hitems hitem => exact hprod (mem_closure_of_visits hg hitems hitem).2
  | closureItem hitems hitem => exact hitem.mem_closure hg
  | @step q items item s hitems hitem hnext =>
      obtain ⟨p, hp, hs⟩ := Grammar.nextSymbol?_eq_some.1 hnext
      obtain ⟨hlt, _⟩ := List.getElem?_eq_some_iff.1 hs
      refine ⟨p, hp, ?_⟩
      simpa only [Production.rhs, List.length_map, Array.length_toList] using hlt
  | next hitems hitem hnext => exact (hg.nextSymbol?_usable hnext).2.2
  | startState => exact found_state hg (Lr0.size_kernels_pos hg)
  | state hq => exact found_state hg hq
  | target hedge =>
      exact found_state hg (Lr0.kernel_of_step? hg ((Lr0.step?_eq_some_iff_mem hg).2 hedge)).1
  | successor hitems hitem hnext =>
      obtain ⟨hq, hclosure⟩ := mem_closure_of_visits hg hitems hitem
      obtain ⟨target, htarget, _⟩ := Lr0.exists_step? hg hq hclosure hnext
      exact ⟨target, htarget⟩
  | source hitem => exact found_kernelItem hg hitem
  | handedOn hitems hitem hnext htarget =>
      obtain ⟨hq, hclosure⟩ := mem_closure_of_visits hg hitems hitem
      obtain ⟨target, htarget', hmem⟩ := Lr0.exists_step? hg hq hclosure hnext
      rw [htarget] at htarget'
      cases htarget'
      exact found_kernelItem hg hmem
  | @edge q target s hedge =>
      have hstep := (Lr0.step?_eq_some_iff_mem hg).2 hedge
      obtain ⟨item, _, hnext⟩ := Lr0.exists_nextSymbol?_of_step? hg hstep
      have hq : q < (states g).kernels.size := by
        by_contra hq
        rw [Lr0.edges_eq_nil hg hq] at hedge
        cases hedge
      exact found_entry hq (hg.nextSymbol?_usable hnext).2.2
  | shift hitem hnext =>
      have hq := (mem_closure_of_visits hg (List.Subset.refl _) hitem).1
      exact found_entry hq (hg.nextSymbol?_usable hnext).2.2
  | @reduce q item x hx k hk =>
      have hclosure := mem_closure_of_looks hg hx
      have hsymbol := hterminal (isTerminal_of_looks hg hx)
      have hq : q < (states g).kernels.size :=
        g.closure_induction hg (fun _ => lt_of_mem_kernel) (fun _ _ _ h _ _ => h) _ hclosure
      simp only [List.mem_cons, List.not_mem_nil, or_false] at hk
      rcases hk with rfl | rfl | rfl
      · exact found_entry hq hsymbol
      · exact hprod hclosure
      · exact hsymbol
  | mode hq hs => exact found_entry hq (hterminal hs)

end CompileLookup

/-- A definition with no more field names than have numbers is loaded without missing anything, whether
it loads or not. A grammar that it loads to is laid out in order, and so compiling it does not miss
anything either. -/
theorem Grammar.load_misses_nothing (d : GrammarDef) (hfields : d.fieldNames.length ≤ 65535) :
    Strict.load d = Strict.ofExcept (Grammar.load d) ∧
      ∀ g, Grammar.load d = .ok g → g.LaidOut d ∧ ∀ k, g.CompileLooksUp k → k.Found g := by
  refine ⟨Strict.load_eq d, fun g hload => ?_⟩
  obtain ⟨L⟩ := exists_loading hload
  exact ⟨L.laidOut hfields (load_references hload), fun _ => CompileLookup.found_of_looksUp L.wellFormed⟩

theorem Grammar.load_misses_nothing_repeatedToken :
    GrammarDef.repeatedToken.fieldNames.length ≤ 65535 ∧
      Strict.load .repeatedToken = .ok .repeatedToken ∧
      Grammar.repeatedToken.LaidOut .repeatedToken ∧
      ∀ k, Grammar.repeatedToken.CompileLooksUp k → k.Found .repeatedToken := by
  have hfields : GrammarDef.repeatedToken.fieldNames.length ≤ 65535 := by decide +kernel
  obtain ⟨hstrict, hloaded⟩ := Grammar.load_misses_nothing .repeatedToken hfields
  rw [load_repeatedToken] at hstrict
  exact ⟨hfields, hstrict, hloaded _ load_repeatedToken⟩

end IncrementalLR
