import Mathlib.Data.List.Perm.Subperm
import Mathlib.Data.List.Sort
import IncrementalLR.Automaton.Item
import IncrementalLR.Proofs.Collections
import IncrementalLR.Proofs.Grammar.WellFormed
import IncrementalLR.Proofs.SymbolSet

/-!
# Closures of item sets

Item sets are ascending lists, so that inclusion of sets is the sublist relation. The search for the
nonterminals of a closure has fuel for every symbol it can meet, and so the closure holds every
production of a nonterminal behind a dot in it.
-/

namespace IncrementalLR

namespace Item

theorem before_iff {a b : Item} :
    a.before b = true ↔ a.prod < b.prod ∨ (a.prod = b.prod ∧ a.dot < b.dot) := by
  simp [before]

theorem not_before_self (a : Item) : ¬ a.before a = true := by
  rw [before_iff]
  omega

theorem before_trans {a b c : Item} (h : a.before b = true) (h' : b.before c = true) :
    a.before c = true := by
  rw [before_iff] at *
  omega

theorem before_of_not_before {a b : Item} (h : ¬ a.before b = true) (hne : a ≠ b) :
    b.before a = true := by
  rw [before_iff] at *
  have : ¬ (a.prod = b.prod ∧ a.dot = b.dot) := fun heq => hne (by
    cases a
    cases b
    simp only at heq
    rw [heq.1, heq.2])
  omega

theorem advance_before_advance {a b : Item} (h : a.before b = true) :
    a.advance.before b.advance = true := by
  rw [before_iff] at *
  simp only [advance]
  omega

theorem advance_injective {a b : Item} (h : a.advance = b.advance) : a = b := by
  cases a
  cases b
  simpa [advance] using h

instance : Std.Irrefl fun a b : Item => a.before b = true := ⟨not_before_self⟩

instance : Std.Antisymm fun a b : Item => a.before b = true :=
  ⟨fun a _ h h' => absurd (before_trans h h') (not_before_self a)⟩

end Item

/-- A list of items in strictly ascending order. -/
def Ascending (items : List Item) : Prop := items.Pairwise fun a b => a.before b = true

theorem Ascending.nodup {items : List Item} (h : Ascending items) : items.Nodup :=
  List.Pairwise.nodup h

theorem Ascending.sublist_of_subset {items others : List Item} (h : Ascending items)
    (h' : Ascending others) (hsub : items ⊆ others) : items.Sublist others :=
  List.sublist_of_subperm_of_pairwise (List.Nodup.subperm h.nodup hsub) h h'

theorem Ascending.filter {items : List Item} (h : Ascending items) (p : Item → Bool) :
    Ascending (items.filter p) :=
  List.Pairwise.filter p h

theorem Ascending.map_advance {items : List Item} (h : Ascending items) :
    Ascending (items.map Item.advance) :=
  List.pairwise_map.2 (h.imp Item.advance_before_advance)

theorem mem_insertItem {a item : Item} {items : List Item} :
    a ∈ insertItem item items ↔ a = item ∨ a ∈ items := by
  induction items with
  | nil => simp [insertItem]
  | cons other items ih =>
      rw [insertItem]
      split
      · simp
      · split
        · rename_i heq
          subst heq
          simp
        · rw [List.mem_cons, ih, List.mem_cons]
          tauto

theorem ascending_insertItem {items : List Item} (h : Ascending items) (item : Item) :
    Ascending (insertItem item items) := by
  induction items with
  | nil => exact List.pairwise_singleton _ _
  | cons other items ih =>
      obtain ⟨hother, hitems⟩ := List.pairwise_cons.1 h
      rw [insertItem]
      split
      · rename_i hbefore
        refine List.pairwise_cons.2 ⟨fun a ha => ?_, h⟩
        rcases List.mem_cons.1 ha with rfl | ha
        · exact hbefore
        · exact Item.before_trans hbefore (hother a ha)
      · split
        · exact h
        · rename_i hbefore hne
          refine List.pairwise_cons.2 ⟨fun a ha => ?_, ih hitems⟩
          rcases mem_insertItem.1 ha with rfl | ha
          · exact Item.before_of_not_before hbefore hne
          · exact hother a ha

theorem mem_foldr_insertItem {a : Item} {kernel items : List Item} :
    a ∈ kernel.foldr insertItem items ↔ a ∈ kernel ∨ a ∈ items := by
  induction kernel with
  | nil => simp
  | cons item kernel ih => rw [List.foldr_cons, mem_insertItem, ih, List.mem_cons, or_assoc]

theorem ascending_foldr_insertItem {kernel items : List Item} (h : Ascending items) :
    Ascending (kernel.foldr insertItem items) := by
  induction kernel with
  | nil => exact h
  | cons item kernel ih => exact ascending_insertItem ih item

namespace Grammar

variable {g : Grammar}

/-! ### Productions by left-hand side -/

theorem itemLhs_eq {i d : Nat} {p : Production} (hp : g.productions[i]? = some p) :
    g.itemLhs ⟨i, d⟩ = p.lhs := by
  rw [itemLhs, hp]

/-- The productions with their numbers. -/
def numbered (g : Grammar) : List (Production × Nat) := g.productions.toList.zipIdx

theorem mem_numbered {p : Production} {i : Nat} :
    (p, i) ∈ g.numbered ↔ g.productions[i]? = some p := by
  rw [numbered, List.mk_mem_zipIdx_iff_getElem?, Array.getElem?_toList]

/-- The productions of a symbol, written as a filter. -/
theorem getD_productionsByLhs {s : Symbol} (hs : s.index < g.symbols.size) :
    g.productionsByLhs.getD s.index []
      = (g.numbered.filter fun entry => decide (entry.1.lhs = s)).map (·.2) := by
  have hfold : ∀ entries : List (Production × Nat), ∃ lists : Array (List Nat),
      lists = entries.foldr (fun entry (by_ : Array (List Nat)) =>
        by_.modify entry.1.lhs.index (entry.2 :: ·)) (Array.replicate g.symbols.size []) ∧
      lists.size = g.symbols.size ∧
      lists.getD s.index [] = (entries.filter fun entry => decide (entry.1.lhs = s)).map (·.2) := by
    intro entries
    induction entries with
    | nil =>
        exact ⟨_, rfl, by simp, getD_replicate hs [] []⟩
    | cons entry entries ih =>
        obtain ⟨p, i⟩ := entry
        obtain ⟨lists, hlists, hsize, hget⟩ := ih
        refine ⟨_, rfl, ?_, ?_⟩
        · rw [List.foldr_cons, ← hlists, Array.size_modify, hsize]
        · rw [List.foldr_cons, ← hlists]
          by_cases heq : p.lhs = s
          · subst heq
            have hlt : p.lhs.index < lists.size := hsize ▸ hs
            rw [getD_modify_self hlt, hget]
            simp
          · have hindex : p.lhs.index ≠ s.index := fun h => heq (Symbol.index_injective h)
            rw [getD_modify_of_ne hindex, hget]
            simp [heq]
  obtain ⟨lists, hlists, _, hget⟩ := hfold g.numbered
  rw [← hget, hlists]
  rfl

theorem mem_productionsByLhs {s : Symbol} (hs : s.index < g.symbols.size) {i : Nat} :
    i ∈ g.productionsByLhs.getD s.index [] ↔ ∃ p, g.productions[i]? = some p ∧ p.lhs = s := by
  rw [getD_productionsByLhs hs]
  constructor
  · intro h
    obtain ⟨⟨p, j⟩, hmem, rfl⟩ := List.mem_map.1 h
    obtain ⟨hmem, hlhs⟩ := List.mem_filter.1 hmem
    exact ⟨p, mem_numbered.1 hmem, of_decide_eq_true hlhs⟩
  · rintro ⟨p, hp, hlhs⟩
    exact List.mem_map.2 ⟨(p, i), List.mem_filter.2 ⟨mem_numbered.2 hp, decide_eq_true hlhs⟩, rfl⟩

/-! ### Left corners -/

theorem nextSymbol?_eq_some {i d : Nat} {s : Symbol} :
    g.nextSymbol? ⟨i, d⟩ = some s ↔ ∃ p, g.productions[i]? = some p ∧ p.rhs[d]? = some s := by
  simp [nextSymbol?, Production.rhs, Option.bind_eq_some_iff]

theorem nextNonterminal?_eq_some {item : Item} {s : Symbol} :
    g.nextNonterminal? item = some s ↔ g.nextSymbol? item = some s ∧ g.isTerminal s = false := by
  simp [nextNonterminal?, Option.filter_eq_some_iff]

/-- A set of nonterminals with all nonterminals in front of their productions. -/
def CornerClosed (g : Grammar) (found : SymbolSet) : Prop :=
  ∀ (i : Nat) (p : Production) (s : Symbol), g.productions[i]? = some p →
    found.contains p.lhs = true → g.nextNonterminal? ⟨i, 0⟩ = some s → found.contains s = true

/-- The productions whose left-hand sides are still to be found. -/
def unvisited (g : Grammar) (found : SymbolSet) : Nat :=
  (g.numbered.filter fun entry => !found.contains entry.1.lhs).length

theorem unvisited_insert {found : SymbolSet} {s : Symbol} (hs : s.index < g.symbols.size)
    (hnew : found.contains s = false) :
    g.unvisited found
      = g.unvisited (found.insert s) + (g.productionsByLhs.getD s.index []).length := by
  rw [getD_productionsByLhs hs, List.length_map, unvisited, unvisited]
  simp only [SymbolSet.contains_insert]
  induction g.numbered with
  | nil => rfl
  | cons entry entries ih =>
      by_cases heq : entry.1.lhs = s
      · simp only [List.filter_cons, heq, hnew, decide_true, Bool.or_true, Bool.not_true,
          Bool.not_false, if_true, if_false, List.length_cons, Bool.false_eq_true]
        omega
      · simp only [List.filter_cons, heq, decide_false, Bool.or_false, Bool.false_eq_true, if_false]
        split
        · simp only [List.length_cons]
          omega
        · exact ih

theorem unvisited_le (g : Grammar) (found : SymbolSet) : g.unvisited found ≤ g.productions.size := by
  calc g.unvisited found ≤ g.numbered.length := List.length_filter_le _ _
    _ = g.productions.size := by simp [numbered]

theorem WellFormed.nextSymbol?_usable (hg : g.WellFormed) {item : Item} {s : Symbol}
    (h : g.nextSymbol? item = some s) : s.Usable g.augmented g.symbols.size := by
  obtain ⟨p, hp, hs⟩ := nextSymbol?_eq_some.1 h
  exact hg.rhs p (Array.mem_of_getElem? hp) s (List.mem_of_getElem? hs)

/-- The symbols in front of the productions of a symbol. -/
def firstsOf (g : Grammar) (s : Symbol) : List Symbol :=
  (g.productionsByLhs.getD s.index []).filterMap fun i => g.nextSymbol? ⟨i, 0⟩

theorem mem_firstsOf {s t : Symbol} (hs : s.index < g.symbols.size) {i : Nat} {p : Production}
    (hp : g.productions[i]? = some p) (hlhs : p.lhs = s) (ht : g.nextSymbol? ⟨i, 0⟩ = some t) :
    t ∈ g.firstsOf s :=
  List.mem_filterMap.2 ⟨i, (mem_productionsByLhs hs).2 ⟨p, hp, hlhs⟩, ht⟩

/-- A search under way: what stands in front of a production of a symbol done before is done too,
or still to do. -/
structure CornerSearch (g : Grammar) (todo : List Symbol) (found : SymbolSet) : Prop where
  todo_lt : ∀ s ∈ todo, s.index < g.symbols.size
  found : ∀ (i : Nat) (p : Production) (s : Symbol), g.productions[i]? = some p →
    found.contains p.lhs = true → g.nextNonterminal? ⟨i, 0⟩ = some s →
    found.contains s = true ∨ s ∈ todo

theorem CornerSearch.skip {s : Symbol} {todo : List Symbol} {found : SymbolSet}
    (h : g.CornerSearch (s :: todo) found) (hs : g.isTerminal s = false → found.contains s = true) :
    g.CornerSearch todo found := by
  refine ⟨fun t ht => h.todo_lt t (List.mem_cons_of_mem s ht), fun i p t hp hlhs ht => ?_⟩
  rcases h.found i p t hp hlhs ht with hfound | htodo
  · exact .inl hfound
  · rcases List.mem_cons.1 htodo with rfl | htodo
    · exact .inl (hs (nextNonterminal?_eq_some.1 ht).2)
    · exact .inr htodo

theorem CornerSearch.visit (hg : g.WellFormed) {s : Symbol} {todo : List Symbol}
    {found : SymbolSet} (h : g.CornerSearch (s :: todo) found) :
    g.CornerSearch (g.firstsOf s ++ todo) (found.insert s) := by
  refine ⟨fun t ht => ?_, fun i p t hp hlhs ht => ?_⟩
  · rcases List.mem_append.1 ht with ht | ht
    · obtain ⟨i, _, hi⟩ := List.mem_filterMap.1 ht
      exact (hg.nextSymbol?_usable hi).2.2
    · exact h.todo_lt t (List.mem_cons_of_mem s ht)
  · rw [SymbolSet.contains_insert, Bool.or_eq_true, decide_eq_true_iff] at hlhs ⊢
    rcases hlhs with hlhs | hlhs
    · rcases h.found i p t hp hlhs ht with hfound | htodo
      · exact .inl (.inl hfound)
      · rcases List.mem_cons.1 htodo with rfl | htodo
        · exact .inl (.inr rfl)
        · exact .inr (List.mem_append_right _ htodo)
    · have hs := h.todo_lt s List.mem_cons_self
      exact .inr (List.mem_append_left _
        (mem_firstsOf hs hp hlhs (nextNonterminal?_eq_some.1 ht).1))

/-- The search does not run out of fuel: what it finds holds the symbols to do and is closed. -/
theorem leftCornersFrom_closed (hg : g.WellFormed) {fuel : Nat} {todo : List Symbol}
    {found : SymbolSet} (h : g.CornerSearch todo found)
    (hfuel : todo.length + g.unvisited found < fuel) :
    found ⊆ leftCornersFrom g g.productionsByLhs fuel todo found ∧
      (∀ s ∈ todo, g.isTerminal s = false →
        (leftCornersFrom g g.productionsByLhs fuel todo found).contains s = true) ∧
      g.CornerClosed (leftCornersFrom g g.productionsByLhs fuel todo found) := by
  induction fuel generalizing todo found with
  | zero => omega
  | succ fuel ih =>
      cases todo with
      | nil =>
          rw [leftCornersFrom]
          · refine ⟨SymbolSet.subset_refl _, by simp, fun i p s hp hlhs hs => ?_⟩
            exact (h.found i p s hp hlhs hs).resolve_right List.not_mem_nil
          · simp
      | cons s todo =>
          rw [leftCornersFrom]
          rw [List.length_cons] at hfuel
          split
          · rename_i hskip
            have hs : g.isTerminal s = false → found.contains s = true := by
              intro hnonterminal
              simpa [hnonterminal] using hskip
            obtain ⟨hsub, htodo, hclosed⟩ := ih (h.skip hs) (by omega)
            refine ⟨hsub, fun t ht hnonterminal => ?_, hclosed⟩
            rcases List.mem_cons.1 ht with rfl | ht
            · exact SymbolSet.contains_of_subset hsub (hs hnonterminal)
            · exact htodo t ht hnonterminal
          · rename_i hvisit
            have hnew : found.contains s = false := by
              cases hfound : found.contains s with
              | false => rfl
              | true => simp [hfound] at hvisit
            have hweight := unvisited_insert (h.todo_lt s List.mem_cons_self) hnew
            have hfirsts : (g.firstsOf s).length ≤ (g.productionsByLhs.getD s.index []).length :=
              List.length_filterMap_le _ _
            obtain ⟨hsub, htodo, hclosed⟩ := ih (h.visit hg) (by
              rw [List.length_append]
              omega)
            refine ⟨SymbolSet.subset_trans (SymbolSet.subset_insert found s) hsub,
              fun t ht hnonterminal => ?_, hclosed⟩
            rcases List.mem_cons.1 ht with rfl | ht
            · exact SymbolSet.contains_of_subset hsub (by simp)
            · exact htodo t (List.mem_append_right _ ht) hnonterminal

/-! ### The closure -/

/-- The nonterminals whose productions the closure adds: those behind the dots of the kernel, and
those in front of their productions. -/
theorem closureSymbols_closed (hg : g.WellFormed) (kernel : List Item) :
    (∀ item ∈ kernel, ∀ s, g.nextNonterminal? item = some s →
      (g.closureSymbols g.productionsByLhs kernel).contains s = true) ∧
      g.CornerClosed (g.closureSymbols g.productionsByLhs kernel) := by
  have hsearch : g.CornerSearch (kernel.filterMap g.nextNonterminal?) SymbolSet.empty := by
    refine ⟨fun s hs => ?_, fun i p s _ hlhs => ?_⟩
    · obtain ⟨item, _, hitem⟩ := List.mem_filterMap.1 hs
      exact (hg.nextSymbol?_usable (nextNonterminal?_eq_some.1 hitem).1).2.2
    · rw [SymbolSet.contains_empty] at hlhs
      cases hlhs
  have hle := g.unvisited_le SymbolSet.empty
  obtain ⟨_, htodo, hclosed⟩ := leftCornersFrom_closed hg hsearch
    (show _ < g.productions.size + (kernel.filterMap g.nextNonterminal?).length + 1 by omega)
  refine ⟨fun item hitem s hs => htodo s ?_ (nextNonterminal?_eq_some.1 hs).2, hclosed⟩
  exact List.mem_filterMap.2 ⟨item, hitem, hs⟩

/-- The augmented start symbol stands behind no dot, and so in no closure. -/
theorem leftCornersFrom_augmented (hg : g.WellFormed) {fuel : Nat} {todo : List Symbol}
    {found : SymbolSet} (htodo : g.augmented ∉ todo) (hfound : found.contains g.augmented = false) :
    (leftCornersFrom g g.productionsByLhs fuel todo found).contains g.augmented = false := by
  induction fuel generalizing todo found with
  | zero => exact hfound
  | succ fuel ih =>
      cases todo with
      | nil => exact hfound
      | cons s todo =>
          rw [List.mem_cons, not_or] at htodo
          obtain ⟨hne, htodo⟩ := htodo
          rw [leftCornersFrom]
          split
          · exact ih htodo hfound
          · refine ih (fun hmem => ?_) ?_
            · rcases List.mem_append.1 hmem with hmem | hmem
              · obtain ⟨i, _, hi⟩ := List.mem_filterMap.1 hmem
                exact (hg.nextSymbol?_usable hi).2.1 rfl
              · exact htodo hmem
            · rw [SymbolSet.contains_insert, hfound, Bool.false_or]
              exact decide_eq_false hne

theorem closureSymbols_augmented (hg : g.WellFormed) (kernel : List Item) :
    (g.closureSymbols g.productionsByLhs kernel).contains g.augmented = false := by
  refine leftCornersFrom_augmented hg (fun hmem => ?_) (SymbolSet.contains_empty _)
  obtain ⟨item, _, hitem⟩ := List.mem_filterMap.1 hmem
  exact (hg.nextSymbol?_usable (nextNonterminal?_eq_some.1 hitem).1).2.1 rfl

theorem mem_closure {kernel : List Item} {item : Item} :
    item ∈ g.closure g.productionsByLhs kernel ↔ item ∈ kernel ∨
      (item.dot = 0 ∧ item.prod < g.productions.size ∧
        (g.closureSymbols g.productionsByLhs kernel).contains (g.itemLhs ⟨item.prod, 0⟩) = true) := by
  rw [closure, mem_foldr_insertItem]
  refine or_congr_right ?_
  rw [closureProductions, List.mem_map]
  constructor
  · rintro ⟨i, hi, rfl⟩
    rw [List.mem_filter, List.mem_range] at hi
    exact ⟨rfl, hi⟩
  · rintro ⟨hdot, hprod, hlhs⟩
    refine ⟨item.prod, List.mem_filter.2 ⟨List.mem_range.2 hprod, hlhs⟩, ?_⟩
    rw [← hdot]

theorem subset_closure (g : Grammar) (kernel : List Item) :
    kernel ⊆ g.closure g.productionsByLhs kernel :=
  fun _ h => mem_closure.2 (.inl h)

/-- The productions of a nonterminal behind a dot are in the closure with their dots in front. -/
theorem mem_closure_of_nextNonterminal? (hg : g.WellFormed) {kernel : List Item} {item : Item}
    (hitem : item ∈ g.closure g.productionsByLhs kernel) {i : Nat} {p : Production}
    (hp : g.productions[i]? = some p) (hnext : g.nextNonterminal? item = some p.lhs) :
    ⟨i, 0⟩ ∈ g.closure g.productionsByLhs kernel := by
  obtain ⟨hkernel, hclosed⟩ := closureSymbols_closed hg kernel
  obtain ⟨hi, _⟩ := Array.getElem?_eq_some_iff.1 hp
  refine mem_closure.2 (.inr ⟨rfl, hi, ?_⟩)
  rw [itemLhs_eq hp]
  rcases mem_closure.1 hitem with hitem | ⟨hdot, hprod, hlhs⟩
  · exact hkernel item hitem p.lhs hnext
  · obtain ⟨j, d⟩ := item
    simp only at hdot hprod hlhs
    subst hdot
    have hq : g.productions[j]? = some g.productions[j] := Array.getElem?_eq_getElem hprod
    rw [itemLhs_eq hq] at hlhs
    exact hclosed j _ p.lhs hq hlhs hnext

/-- What the search finds was found before or was to do, or stands in front of a production of what it
finds. -/
theorem leftCornersFrom_sources (hg : g.WellFormed) {fuel : Nat} {todo : List Symbol}
    {found : SymbolSet} (htodo : ∀ s ∈ todo, s.index < g.symbols.size) :
    found ⊆ leftCornersFrom g g.productionsByLhs fuel todo found ∧
      ∀ s, (leftCornersFrom g g.productionsByLhs fuel todo found).contains s = true →
        found.contains s = true ∨ s ∈ todo ∨ ∃ i p, g.productions[i]? = some p ∧
          (leftCornersFrom g g.productionsByLhs fuel todo found).contains p.lhs = true ∧
          g.nextSymbol? ⟨i, 0⟩ = some s := by
  induction fuel generalizing todo found with
  | zero => exact ⟨SymbolSet.subset_refl _, fun s hs => .inl hs⟩
  | succ fuel ih =>
      cases todo with
      | nil => exact ⟨SymbolSet.subset_refl _, fun s hs => .inl hs⟩
      | cons s todo =>
          have hrest : ∀ t ∈ todo, t.index < g.symbols.size :=
            fun t ht => htodo t (List.mem_cons_of_mem s ht)
          rw [leftCornersFrom]
          split
          · obtain ⟨hsub, hsources⟩ := @ih todo found hrest
            refine ⟨hsub, fun t ht => ?_⟩
            rcases hsources t ht with hfound | hmem | hsource
            · exact .inl hfound
            · exact .inr (.inl (List.mem_cons_of_mem s hmem))
            · exact .inr (.inr hsource)
          · have hnext : ∀ t ∈ g.firstsOf s ++ todo, t.index < g.symbols.size := by
              intro t ht
              rcases List.mem_append.1 ht with ht | ht
              · obtain ⟨i, _, hi⟩ := List.mem_filterMap.1 ht
                exact (hg.nextSymbol?_usable hi).2.2
              · exact hrest t ht
            obtain ⟨hsub, hsources⟩ := @ih _ (found.insert s) hnext
            refine ⟨SymbolSet.subset_trans (SymbolSet.subset_insert found s) hsub, fun t ht => ?_⟩
            rcases hsources t ht with hfound | hmem | hsource
            · rw [SymbolSet.contains_insert, Bool.or_eq_true, decide_eq_true_iff] at hfound
              rcases hfound with hfound | rfl
              · exact .inl hfound
              · exact .inr (.inl List.mem_cons_self)
            · rcases List.mem_append.1 hmem with hmem | hmem
              · obtain ⟨i, hi, hi'⟩ := List.mem_filterMap.1 hmem
                obtain ⟨p, hp, hlhs⟩ := (mem_productionsByLhs (htodo s List.mem_cons_self)).1 hi
                refine .inr (.inr ⟨i, p, hp, ?_, hi'⟩)
                rw [hlhs]
                exact SymbolSet.contains_of_subset hsub (by simp)
              · exact .inr (.inl (List.mem_cons_of_mem s hmem))
            · exact .inr (.inr hsource)

/-- A nonterminal whose productions the closure adds stands behind the dot of an item of it. -/
theorem exists_nextSymbol?_of_closureSymbols (hg : g.WellFormed) {kernel : List Item} {s : Symbol}
    (h : (g.closureSymbols g.productionsByLhs kernel).contains s = true) :
    ∃ item ∈ g.closure g.productionsByLhs kernel, g.nextSymbol? item = some s := by
  have htodo : ∀ s ∈ kernel.filterMap g.nextNonterminal?, s.index < g.symbols.size := by
    intro s hs
    obtain ⟨item, _, hitem⟩ := List.mem_filterMap.1 hs
    exact (hg.nextSymbol?_usable (nextNonterminal?_eq_some.1 hitem).1).2.2
  rcases (leftCornersFrom_sources hg htodo).2 s h with hfound | hmem | ⟨i, p, hp, hlhs, hnext⟩
  · rw [SymbolSet.contains_empty] at hfound
    cases hfound
  · obtain ⟨item, hitem, hs⟩ := List.mem_filterMap.1 hmem
    exact ⟨item, g.subset_closure kernel hitem, (nextNonterminal?_eq_some.1 hs).1⟩
  · obtain ⟨hi, _⟩ := Array.getElem?_eq_some_iff.1 hp
    refine ⟨⟨i, 0⟩, mem_closure.2 (.inr ⟨rfl, hi, ?_⟩), hnext⟩
    rw [itemLhs_eq hp]
    exact hlhs

theorem ascending_closure (g : Grammar) (kernel : List Item) :
    Ascending (g.closure g.productionsByLhs kernel) := by
  refine ascending_foldr_insertItem (List.pairwise_map.2 ?_)
  refine List.Pairwise.imp (fun {i j} h => ?_)
    (List.Pairwise.filter _ List.pairwise_lt_range)
  exact Item.before_iff.2 (.inl h)

/-! ### Induction over a closure -/

/-- A property that nonterminals hand to those in front of their productions holds of all that the
search finds. -/
theorem of_leftCornersFrom {P : Symbol → Prop}
    (hfirsts : ∀ s, P s → ∀ t ∈ g.firstsOf s, g.isTerminal t = false → P t) {fuel : Nat}
    {todo : List Symbol} {found : SymbolSet} (htodo : ∀ s ∈ todo, g.isTerminal s = false → P s)
    (hfound : ∀ s, found.contains s = true → P s) :
    ∀ s, (leftCornersFrom g g.productionsByLhs fuel todo found).contains s = true → P s := by
  induction fuel generalizing todo found with
  | zero => exact hfound
  | succ fuel ih =>
      cases todo with
      | nil => exact hfound
      | cons s todo =>
          have hrest : ∀ t ∈ todo, g.isTerminal t = false → P t :=
            fun t ht => htodo t (List.mem_cons_of_mem s ht)
          rw [leftCornersFrom]
          split
          · exact ih hrest hfound
          · rename_i hvisit
            have hs : P s := by
              refine htodo s List.mem_cons_self ?_
              rw [Bool.or_eq_true, not_or, Bool.not_eq_true] at hvisit
              exact hvisit.1
            refine ih (fun t ht hnonterminal => ?_) (fun t ht => ?_)
            · rcases List.mem_append.1 ht with ht | ht
              · exact hfirsts s hs t ht hnonterminal
              · exact hrest t ht hnonterminal
            · rw [SymbolSet.contains_insert, Bool.or_eq_true, decide_eq_true_iff] at ht
              rcases ht with ht | rfl
              · exact hfound t ht
              · exact hs

/-- A property of the kernel items that items hand to the productions of the nonterminal behind the
dot holds of the closure. -/
theorem closure_induction (hg : g.WellFormed) {P : Item → Prop} {kernel : List Item}
    (hkernel : ∀ item ∈ kernel, P item)
    (hexpand : ∀ (item : Item) (i : Nat) (p : Production), P item → g.productions[i]? = some p →
      g.nextSymbol? item = some p.lhs → P ⟨i, 0⟩) :
    ∀ item ∈ g.closure g.productionsByLhs kernel, P item := by
  -- the property of a nonterminal is that of its productions
  have hsymbols : ∀ s, (g.closureSymbols g.productionsByLhs kernel).contains s = true →
      s.index < g.symbols.size ∧
        ∀ (i : Nat) (p : Production), g.productions[i]? = some p → p.lhs = s → P ⟨i, 0⟩ := by
    rw [closureSymbols]
    refine of_leftCornersFrom ?_ ?_ ?_
    · rintro s ⟨hs, hP⟩ t ht -
      obtain ⟨i, hi, hnext⟩ := List.mem_filterMap.1 ht
      obtain ⟨p, hp, hlhs⟩ := (mem_productionsByLhs hs).1 hi
      refine ⟨(hg.nextSymbol?_usable hnext).2.2, fun j q hq hlhs' => ?_⟩
      exact hexpand ⟨i, 0⟩ j q (hP i p hp hlhs) hq (hlhs' ▸ hnext)
    · intro s hs _
      obtain ⟨item, hitem, hnext⟩ := List.mem_filterMap.1 hs
      have hnext := (nextNonterminal?_eq_some.1 hnext).1
      refine ⟨(hg.nextSymbol?_usable hnext).2.2, fun j q hq hlhs => ?_⟩
      exact hexpand item j q (hkernel item hitem) hq (hlhs ▸ hnext)
    · intro s hs
      rw [SymbolSet.contains_empty] at hs
      cases hs
  intro item hitem
  rcases mem_closure.1 hitem with hitem | ⟨hdot, hprod, hlhs⟩
  · exact hkernel item hitem
  · obtain ⟨i, d⟩ := item
    simp only at hdot hprod hlhs
    subst hdot
    have hp : g.productions[i]? = some g.productions[i] := Array.getElem?_eq_getElem hprod
    rw [itemLhs_eq hp] at hlhs
    exact (hsymbols _ hlhs).2 i _ hp rfl

end Grammar

end IncrementalLR
