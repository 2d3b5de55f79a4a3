import IncrementalLR.Proofs.Automaton.Corners
import IncrementalLR.Proofs.Automaton.Lr0

/-!
# Lookaheads of closures

What follows the items of a closure is what follows the kernel items, and what the kernel items hand
to the nonterminals behind their dots and from there to the corners of these.
-/

namespace IncrementalLR

/-- The terminal is in a set that the list has for the key. -/
def Looks {κ : Type} (entries : List (κ × SymbolSet)) (key : κ) (x : Symbol) : Prop :=
  ∃ set, (key, set) ∈ entries ∧ set.contains x = true

/-- The terminal follows the nonterminal in an array of what follows nonterminals. -/
def Trails (known : Array (Option SymbolSet)) (s x : Symbol) : Prop :=
  ∃ set, known.getD s.index none = some set ∧ set.contains x = true

theorem looks_nil {κ : Type} {key : κ} {x : Symbol} : ¬ Looks [] key x := by
  rintro ⟨_, h, _⟩
  cases h

theorem looks_cons {κ : Type} {other key : κ} {set : SymbolSet} {entries : List (κ × SymbolSet)}
    {x : Symbol} : Looks ((other, set) :: entries) key x ↔
      (key = other ∧ set.contains x = true) ∨ Looks entries key x := by
  constructor
  · rintro ⟨set', hmem, hx⟩
    rcases List.mem_cons.1 hmem with heq | hmem
    · cases heq
      exact .inl ⟨rfl, hx⟩
    · exact .inr ⟨set', hmem, hx⟩
  · rintro (⟨rfl, hx⟩ | ⟨set', hmem, hx⟩)
    · exact ⟨set, List.mem_cons_self, hx⟩
    · exact ⟨set', List.mem_cons_of_mem _ hmem, hx⟩

/-- All sets of the list hold terminals only. -/
def AllBelow {κ : Type} (bound : Nat) (entries : List (κ × SymbolSet)) : Prop :=
  ∀ entry ∈ entries, entry.2.Below bound

namespace LookaheadTables

open ClosureTables (followAfter)

variable {g : Grammar}

@[simp] theorem grammar_ofGrammar (g : Grammar) : (ofGrammar g).grammar = g := rfl

@[simp] theorem firsts_ofGrammar (g : Grammar) :
    (ofGrammar g).firsts = FirstSets.ofGrammar g := rfl

theorem getD_cornersOf {s : Symbol} (hs : s.Usable g.augmented g.symbols.size)
    (hnonterminal : g.isTerminal s = false) :
    (ofGrammar g).cornersOf.getD s.index [] = (ClosureTables.ofGrammar g).corners s := by
  have hindex : ¬ s.index < g.terminalCount := by simpa [Grammar.isTerminal] using hnonterminal
  simp [ofGrammar, Array.getD_eq_getD_getElem?, hs.2.2, hindex]

/-! ### Origins -/

/-- What one kernel item hands to the nonterminal behind its dot. -/
def addOrigin (s : Symbol) (new : SymbolSet) :
    List (Symbol × SymbolSet) → List (Symbol × SymbolSet)
  | (s', old) :: rest =>
    if s' = s then (s, old.union new) :: rest else (s, new) :: (s', old) :: rest
  | [] => [(s, new)]

theorem origins_cons (item : Item) (set : SymbolSet) (kernel : List (Item × SymbolSet)) :
    (ofGrammar g).origins ((item, set) :: kernel) = match g.nextNonterminal? item with
      | none => (ofGrammar g).origins kernel
      | some s => addOrigin s ((followAfter g (FirstSets.ofGrammar g) item).resolve set)
          ((ofGrammar g).origins kernel) := by
  rw [origins, List.foldr_cons, ← origins]
  simp only [grammar_ofGrammar, firsts_ofGrammar]
  cases g.nextNonterminal? item with
  | none => rfl
  | some s =>
      cases (ofGrammar g).origins kernel with
      | nil => rfl
      | cons entry rest => rfl

theorem looks_addOrigin {s t x : Symbol} {new : SymbolSet} {found : List (Symbol × SymbolSet)} :
    Looks (addOrigin s new found) t x ↔ (t = s ∧ new.contains x = true) ∨ Looks found t x := by
  cases found with
  | nil =>
      rw [addOrigin, looks_cons]
  | cons entry rest =>
      obtain ⟨s', old⟩ := entry
      rw [addOrigin]
      split
      · rename_i heq
        subst heq
        rw [looks_cons, looks_cons, SymbolSet.contains_union, Bool.or_eq_true]
        tauto
      · rw [looks_cons]

theorem exists_mem_addOrigin_self {s : Symbol} {new : SymbolSet} {found : List (Symbol × SymbolSet)} :
    ∃ set, (s, set) ∈ addOrigin s new found ∧ new ⊆ set := by
  cases found with
  | nil => exact ⟨new, List.mem_cons_self, SymbolSet.subset_refl _⟩
  | cons entry rest =>
      obtain ⟨s', old⟩ := entry
      rw [addOrigin]
      split
      · exact ⟨_, List.mem_cons_self, SymbolSet.subset_union_right _ _⟩
      · exact ⟨new, List.mem_cons_self, SymbolSet.subset_refl _⟩

theorem exists_mem_addOrigin {s t : Symbol} {new set : SymbolSet} {found : List (Symbol × SymbolSet)}
    (h : (t, set) ∈ found) : ∃ set', (t, set') ∈ addOrigin s new found ∧ set ⊆ set' := by
  cases found with
  | nil => cases h
  | cons entry rest =>
      obtain ⟨s', old⟩ := entry
      rw [addOrigin]
      split
      · rename_i heq
        rcases List.mem_cons.1 h with hentry | h
        · cases hentry
          subst heq
          exact ⟨_, List.mem_cons_self, SymbolSet.subset_union_left _ _⟩
        · exact ⟨set, List.mem_cons_of_mem _ h, SymbolSet.subset_refl _⟩
      · exact ⟨set, List.mem_cons_of_mem _ h, SymbolSet.subset_refl _⟩

theorem mem_addOrigin {s : Symbol} {new : SymbolSet} {found : List (Symbol × SymbolSet)}
    {entry : Symbol × SymbolSet} {bound : Nat} (h : entry ∈ addOrigin s new found)
    (hnew : new.Below bound) (hfound : AllBelow bound found) :
    (entry.1 = s ∨ ∃ set, (entry.1, set) ∈ found) ∧ entry.2.Below bound := by
  cases found with
  | nil =>
      rw [List.mem_singleton.1 h]
      exact ⟨.inl rfl, hnew⟩
  | cons first rest =>
      obtain ⟨s', old⟩ := first
      rw [addOrigin] at h
      split at h
      · rcases List.mem_cons.1 h with rfl | h
        · exact ⟨.inl rfl, (hfound _ List.mem_cons_self).union hnew⟩
        · exact ⟨.inr ⟨entry.2, List.mem_cons_of_mem _ h⟩, hfound _ (List.mem_cons_of_mem _ h)⟩
      · rcases List.mem_cons.1 h with rfl | h
        · exact ⟨.inl rfl, hnew⟩
        · exact ⟨.inr ⟨entry.2, h⟩, hfound _ h⟩

/-- What follows a nonterminal behind the dot of a kernel item. -/
theorem looks_origins {kernel : List (Item × SymbolSet)} {item : Item} {set : SymbolSet}
    {s x : Symbol} (hmem : (item, set) ∈ kernel) (hs : g.nextNonterminal? item = some s)
    (hx : ((followAfter g (FirstSets.ofGrammar g) item).resolve set).contains x = true) :
    Looks ((ofGrammar g).origins kernel) s x := by
  induction kernel with
  | nil => cases hmem
  | cons first kernel ih =>
      obtain ⟨item', set'⟩ := first
      rw [origins_cons]
      rcases List.mem_cons.1 hmem with heq | hmem
      · cases heq
        rw [hs]
        exact looks_addOrigin.2 (.inl ⟨rfl, hx⟩)
      · split
        · exact ih hmem
        · exact looks_addOrigin.2 (.inr (ih hmem))

/-- A nonterminal behind the dot of a kernel item is an origin, though nothing may follow it. -/
theorem exists_mem_origins {kernel : List (Item × SymbolSet)} {item : Item} {set : SymbolSet}
    {s : Symbol} (hmem : (item, set) ∈ kernel) (hs : g.nextNonterminal? item = some s) :
    ∃ origin, (s, origin) ∈ (ofGrammar g).origins kernel ∧
      (followAfter g (FirstSets.ofGrammar g) item).resolve set ⊆ origin := by
  induction kernel with
  | nil => cases hmem
  | cons first kernel ih =>
      obtain ⟨item', set'⟩ := first
      rw [origins_cons]
      rcases List.mem_cons.1 hmem with heq | hmem
      · cases heq
        rw [hs]
        exact exists_mem_addOrigin_self
      · obtain ⟨origin, horigin, hsub⟩ := ih hmem
        split
        · exact ⟨origin, horigin, hsub⟩
        · obtain ⟨origin', horigin', hsub'⟩ := exists_mem_addOrigin horigin
          exact ⟨origin', horigin', SymbolSet.subset_trans hsub hsub'⟩

/-- Nothing else follows them there. -/
theorem exists_of_looks_origins {kernel : List (Item × SymbolSet)} {s x : Symbol}
    (h : Looks ((ofGrammar g).origins kernel) s x) :
    ∃ item set, (item, set) ∈ kernel ∧ g.nextNonterminal? item = some s ∧
      ((followAfter g (FirstSets.ofGrammar g) item).resolve set).contains x = true := by
  induction kernel with
  | nil => exact absurd h looks_nil
  | cons first kernel ih =>
      obtain ⟨item, set⟩ := first
      have hrest : Looks ((ofGrammar g).origins kernel) s x →
          ∃ item' set', (item', set') ∈ (item, set) :: kernel ∧ g.nextNonterminal? item' = some s ∧
            ((followAfter g (FirstSets.ofGrammar g) item').resolve set').contains x = true := by
        intro h
        obtain ⟨item', set', hmem, hnext, hx⟩ := ih h
        exact ⟨item', set', List.mem_cons_of_mem _ hmem, hnext, hx⟩
      rw [origins_cons] at h
      split at h
      · exact hrest h
      · rename_i t ht
        rcases looks_addOrigin.1 h with ⟨rfl, hx⟩ | h
        · exact ⟨item, set, List.mem_cons_self, ht, hx⟩
        · exact hrest h

/-- Origins are nonterminals behind dots, and terminals follow them. -/
theorem mem_origins (hg : g.WellFormed) {kernel : List (Item × SymbolSet)}
    (hkernel : AllBelow g.terminalCount kernel) {entry : Symbol × SymbolSet}
    (h : entry ∈ (ofGrammar g).origins kernel) :
    (∃ source ∈ kernel, g.nextNonterminal? source.1 = some entry.1) ∧
      entry.2.Below g.terminalCount := by
  induction kernel generalizing entry with
  | nil => cases h
  | cons first kernel ih =>
      obtain ⟨item, set⟩ := first
      have hset : set.Below g.terminalCount := hkernel _ List.mem_cons_self
      have hrest : AllBelow g.terminalCount kernel :=
        fun other hother => hkernel other (List.mem_cons_of_mem _ hother)
      rw [origins_cons] at h
      split at h
      · obtain ⟨⟨source, hsource, hnext⟩, hbelow⟩ := ih hrest h
        exact ⟨⟨source, List.mem_cons_of_mem _ hsource, hnext⟩, hbelow⟩
      · rename_i s hs
        obtain ⟨hkey, hbelow⟩ := mem_addOrigin h
          (Follow.below_resolve (ClosureTables.below_followAfter hg item) hset)
          (fun other hother => (ih hrest hother).2)
        refine ⟨?_, hbelow⟩
        rcases hkey with heq | ⟨set', hmem⟩
        · rw [heq]
          exact ⟨(item, set), List.mem_cons_self, hs⟩
        · obtain ⟨⟨source, hsource, hnext⟩, _⟩ := ih hrest hmem
          exact ⟨source, List.mem_cons_of_mem _ hsource, hnext⟩

/-! ### What follows the nonterminals of a closure -/

/-- What the origins hand to their corners, one after the other. -/
def handed (g : Grammar) (origins : List (Symbol × SymbolSet)) : List (Symbol × SymbolSet) :=
  origins.flatMap fun entry => ((ofGrammar g).cornersOf.getD entry.1.index []).map
    fun corner => (corner.1, corner.2.resolve entry.2)

/-- What follows one nonterminal more. -/
def addTrail (known : Array (Option SymbolSet)) (entry : Symbol × SymbolSet) :
    Array (Option SymbolSet) :=
  known.modify entry.1.index fun old => some ((old.getD SymbolSet.empty).union entry.2)

theorem closureFollows_eq (kernel : List (Item × SymbolSet)) :
    (ofGrammar g).closureFollows kernel = (handed g ((ofGrammar g).origins kernel)).foldl addTrail
      (Array.replicate g.symbols.size none) := by
  rw [closureFollows, handed, List.foldl_flatMap]
  simp only [grammar_ofGrammar, List.foldl_map]
  rfl

theorem mem_handed (hg : g.WellFormed) {kernel : List (Item × SymbolSet)}
    (hkernel : AllBelow g.terminalCount kernel) {entry : Symbol × SymbolSet} :
    entry ∈ handed g ((ofGrammar g).origins kernel) ↔
      ∃ s origin f, (s, origin) ∈ (ofGrammar g).origins kernel ∧
        (entry.1, f) ∈ (ClosureTables.ofGrammar g).corners s ∧ entry.2 = f.resolve origin := by
  have hcorners : ∀ s origin, (s, origin) ∈ (ofGrammar g).origins kernel →
      (ofGrammar g).cornersOf.getD s.index [] = (ClosureTables.ofGrammar g).corners s := by
    intro s origin h
    obtain ⟨⟨source, _, hnext⟩, _⟩ := mem_origins hg hkernel h
    obtain ⟨hnext, hnonterminal⟩ := Grammar.nextNonterminal?_eq_some.1 hnext
    exact getD_cornersOf (hg.nextSymbol?_usable hnext) hnonterminal
  rw [handed, List.mem_flatMap]
  constructor
  · rintro ⟨⟨s, origin⟩, horigin, hmem⟩
    rw [hcorners s origin horigin] at hmem
    obtain ⟨⟨corner, f⟩, hf, rfl⟩ := List.mem_map.1 hmem
    exact ⟨s, origin, f, horigin, hf, rfl⟩
  · rintro ⟨s, origin, f, horigin, hf, heq⟩
    refine ⟨(s, origin), horigin, ?_⟩
    rw [hcorners s origin horigin]
    refine List.mem_map.2 ⟨(entry.1, f), hf, ?_⟩
    rw [← heq]

theorem usable_of_mem_origins (hg : g.WellFormed) {kernel : List (Item × SymbolSet)}
    (hkernel : AllBelow g.terminalCount kernel) {s : Symbol} {origin : SymbolSet}
    (h : (s, origin) ∈ (ofGrammar g).origins kernel) : s.Usable g.augmented g.symbols.size := by
  obtain ⟨⟨source, _, hnext⟩, _⟩ := mem_origins hg hkernel h
  exact hg.nextSymbol?_usable (Grammar.nextNonterminal?_eq_some.1 hnext).1

/-- Corners are symbols of the grammar, and terminals follow them. -/
theorem mem_handed_spec (hg : g.WellFormed) {kernel : List (Item × SymbolSet)}
    (hkernel : AllBelow g.terminalCount kernel) {entry : Symbol × SymbolSet}
    (h : entry ∈ handed g ((ofGrammar g).origins kernel)) :
    entry.1.index < g.symbols.size ∧ entry.1 ≠ g.augmented ∧ entry.2.Below g.terminalCount := by
  obtain ⟨s, origin, f, horigin, hf, heq⟩ := (mem_handed hg hkernel).1 h
  have hs := usable_of_mem_origins hg hkernel horigin
  obtain ⟨hknown, _, _⟩ := ClosureTables.cornerFollows_spec hg hs
  have hget := (ClosureTables.mem_corners hg hs).1 hf
  refine ⟨?_, hknown.ne_augmented _ _ hget, ?_⟩
  · by_contra hge
    rw [getD_of_size_le (by rw [hknown.size]; omega)] at hget
    cases hget
  · rw [heq]
    exact Follow.below_resolve (hknown.below _ _ hget) (mem_origins hg hkernel horigin).2

theorem trails_addTrail {known : Array (Option SymbolSet)} {entry : Symbol × SymbolSet}
    (hentry : entry.1.index < known.size) {s x : Symbol} :
    Trails (addTrail known entry) s x ↔
      Trails known s x ∨ (entry.1 = s ∧ entry.2.contains x = true) := by
  by_cases heq : entry.1 = s
  · subst heq
    rw [Trails, addTrail, getD_modify_self hentry]
    cases hknown : known.getD entry.1.index none with
    | none => simp [Trails, hknown]
    | some old => simp [Trails, hknown]
  · have hindex : entry.1.index ≠ s.index := fun h => heq (Symbol.index_injective h)
    rw [Trails, addTrail, getD_modify_of_ne hindex]
    simp [Trails, heq]

theorem trails_foldl_addTrail {entries : List (Symbol × SymbolSet)}
    {known : Array (Option SymbolSet)} (hentries : ∀ entry ∈ entries, entry.1.index < known.size)
    {s x : Symbol} : Trails (entries.foldl addTrail known) s x ↔
      Trails known s x ∨ ∃ set, (s, set) ∈ entries ∧ set.contains x = true := by
  induction entries generalizing known with
  | nil => simp
  | cons entry entries ih =>
      have hsize : (addTrail known entry).size = known.size := by
        rw [addTrail, Array.size_modify]
      rw [List.foldl_cons, ih (fun other hother => by
        rw [hsize]
        exact hentries other (List.mem_cons_of_mem _ hother)),
        trails_addTrail (hentries entry List.mem_cons_self), or_assoc]
      refine or_congr_right ?_
      obtain ⟨t, set⟩ := entry
      rw [← Looks, ← Looks, looks_cons]
      exact or_congr_left (and_congr_left fun _ => eq_comm)

theorem trails_closureFollows (hg : g.WellFormed) {kernel : List (Item × SymbolSet)}
    (hkernel : AllBelow g.terminalCount kernel) {s x : Symbol} :
    Trails ((ofGrammar g).closureFollows kernel) s x ↔
      ∃ t origin f, (t, origin) ∈ (ofGrammar g).origins kernel ∧
        (s, f) ∈ (ClosureTables.ofGrammar g).corners t ∧ (f.resolve origin).contains x = true := by
  have hempty : ¬ Trails (Array.replicate g.symbols.size none) s x := by
    rintro ⟨set, hset, _⟩
    rw [getD_replicate_none] at hset
    cases hset
  rw [closureFollows_eq, trails_foldl_addTrail (fun entry hentry => by
    rw [Array.size_replicate]
    exact (mem_handed_spec hg hkernel hentry).1)]
  simp only [hempty, false_or]
  constructor
  · rintro ⟨set, hset, hx⟩
    obtain ⟨t, origin, f, horigin, hf, heq⟩ := (mem_handed hg hkernel).1 hset
    simp only at heq
    subst heq
    exact ⟨t, origin, f, horigin, hf, hx⟩
  · rintro ⟨t, origin, f, horigin, hf, hx⟩
    exact ⟨f.resolve origin, (mem_handed hg hkernel).2 ⟨t, origin, f, horigin, hf, rfl⟩, hx⟩

/-- Nothing follows the augmented start symbol, which no closure has. -/
theorem not_trails_augmented (hg : g.WellFormed) {kernel : List (Item × SymbolSet)}
    (hkernel : AllBelow g.terminalCount kernel) {x : Symbol} :
    ¬ Trails ((ofGrammar g).closureFollows kernel) g.augmented x := by
  intro htrail
  obtain ⟨t, origin, f, horigin, hf, _⟩ := (trails_closureFollows hg hkernel).1 htrail
  have ht := usable_of_mem_origins hg hkernel horigin
  have hknown := (ClosureTables.cornerFollows_spec hg ht).1
  exact hknown.ne_augmented _ _ ((ClosureTables.mem_corners hg ht).1 hf) rfl

theorem below_closureFollows (hg : g.WellFormed) {kernel : List (Item × SymbolSet)}
    (hkernel : AllBelow g.terminalCount kernel) {i : Nat} {set : SymbolSet}
    (h : ((ofGrammar g).closureFollows kernel).getD i none = some set) :
    set.Below g.terminalCount := by
  rw [closureFollows_eq] at h
  have hall : ∀ known : Array (Option SymbolSet),
      known = (handed g ((ofGrammar g).origins kernel)).foldl addTrail
        (Array.replicate g.symbols.size none) →
      ∀ set, known.getD i none = some set → set.Below g.terminalCount := by
    rintro _ rfl
    refine foldl_induction (f := addTrail)
      (fun (_ : List (Symbol × SymbolSet)) (known : Array (Option SymbolSet)) =>
        ∀ set, known.getD i none = some set → set.Below g.terminalCount) ?_ ?_
    · intro set hset
      rw [getD_replicate_none] at hset
      cases hset
    · intro done entry rest known heq hknown set hset
      have hentry : entry ∈ handed g ((ofGrammar g).origins kernel) := by
        rw [heq]
        simp
      obtain ⟨_, _, hbelow⟩ := mem_handed_spec hg hkernel hentry
      by_cases hi : entry.1.index = i
      · by_cases hsize : i < known.size
        · subst hi
          rw [addTrail, getD_modify_self hsize, Option.some.injEq] at hset
          rw [← hset]
          refine SymbolSet.Below.union ?_ hbelow
          cases hold : known.getD entry.1.index none with
          | none => exact SymbolSet.below_empty
          | some old => exact hknown old hold
        · rw [addTrail, getD_of_size_le (by rw [Array.size_modify]; omega)] at hset
          cases hset
      · rw [addTrail, getD_modify_of_ne hi] at hset
        exact hknown set hset
  exact hall _ rfl set h

/-! ### The closure -/

theorem looks_insertFollowed {new : Item × SymbolSet} {items : List (Item × SymbolSet)}
    {item : Item} {x : Symbol} : Looks (closure.insertFollowed new items) item x ↔
      (item = new.1 ∧ new.2.contains x = true) ∨ Looks items item x := by
  obtain ⟨item', set'⟩ := new
  induction items with
  | nil => rw [closure.insertFollowed, looks_cons]
  | cons other items ih =>
      obtain ⟨item'', set''⟩ := other
      rw [closure.insertFollowed]
      split
      · rw [looks_cons]
      · split
        · rename_i heq
          simp only at heq
          subst heq
          rw [looks_cons, looks_cons, SymbolSet.contains_union, Bool.or_eq_true]
          tauto
        · rw [looks_cons, ih, looks_cons]
          tauto

theorem looks_foldr_insertFollowed {kernel items : List (Item × SymbolSet)} {item : Item}
    {x : Symbol} : Looks (kernel.foldr closure.insertFollowed items) item x ↔
      Looks kernel item x ∨ Looks items item x := by
  induction kernel with
  | nil => simp [looks_nil]
  | cons new kernel ih =>
      obtain ⟨item', set'⟩ := new
      rw [List.foldr_cons, looks_insertFollowed, ih, looks_cons, or_assoc]

/-- The closure has the kernel items, and the productions of its nonterminals with their dots in
front. -/
theorem looks_closure {kernel : List (Item × SymbolSet)} {item : Item} {x : Symbol} :
    Looks ((ofGrammar g).closure kernel) item x ↔ Looks kernel item x ∨
      (item.dot = 0 ∧ item.prod < g.productions.size ∧
        Trails ((ofGrammar g).closureFollows kernel) (g.itemLhs item) x) := by
  rw [closure, looks_foldr_insertFollowed]
  refine or_congr_right ?_
  obtain ⟨i, d⟩ := item
  rw [Looks, grammar_ofGrammar]
  constructor
  · rintro ⟨set, hmem, hx⟩
    obtain ⟨j, hj, hsome⟩ := List.mem_filterMap.1 hmem
    obtain ⟨set', hset', heq⟩ := Option.map_eq_some_iff.1 hsome
    cases heq
    exact ⟨rfl, List.mem_range.1 hj, set, hset', hx⟩
  · rintro ⟨hdot, hprod, set, hset, hx⟩
    simp only at hdot hprod
    subst hdot
    refine ⟨set, List.mem_filterMap.2 ⟨i, List.mem_range.2 hprod, ?_⟩, hx⟩
    rw [hset, Option.map_some]

/-- Only items of the closure are followed by anything in it. -/
theorem mem_closure_of_looks (hg : g.WellFormed) {kernel : List (Item × SymbolSet)}
    (hkernel : AllBelow g.terminalCount kernel) {items : List Item}
    (hitems : ∀ entry ∈ kernel, entry.1 ∈ items) {item : Item} {x : Symbol}
    (h : Looks ((ofGrammar g).closure kernel) item x) :
    item ∈ g.closure g.productionsByLhs items := by
  rcases looks_closure.1 h with ⟨set, hmem, _⟩ | ⟨hdot, hprod, htrail⟩
  · exact g.subset_closure items (hitems _ hmem)
  · obtain ⟨i, d⟩ := item
    simp only at hdot hprod
    subst hdot
    obtain ⟨t, origin, f, horigin, hf, _⟩ := (trails_closureFollows hg hkernel).1 htrail
    obtain ⟨⟨source, hsource, hnext⟩, _⟩ := mem_origins hg hkernel horigin
    obtain ⟨hfound, hclosed⟩ := Grammar.closureSymbols_closed hg items
    refine Grammar.mem_closure.2 (.inr ⟨rfl, hprod, ?_⟩)
    exact ClosureTables.contains_of_mem_corners hg hclosed (usable_of_mem_origins hg hkernel horigin)
      (hfound source.1 (hitems source hsource) t hnext) hf

/-- The productions of a nonterminal behind a dot are followed by what can come after it there. -/
theorem looks_closure_of_nextNonterminal? (hg : g.WellFormed) {kernel : List (Item × SymbolSet)}
    (hkernel : AllBelow g.terminalCount kernel) {item : Item} {x y : Symbol}
    (hitem : Looks ((ofGrammar g).closure kernel) item x) {i : Nat} {p : Production}
    (hp : g.productions[i]? = some p) (hnext : g.nextNonterminal? item = some p.lhs)
    (hy : (followAfter g (FirstSets.ofGrammar g) item).set.contains y = true ∨
      ((followAfter g (FirstSets.ofGrammar g) item).inherits = true ∧ y = x)) :
    Looks ((ofGrammar g).closure kernel) ⟨i, 0⟩ y := by
  obtain ⟨hlt, _⟩ := Array.getElem?_eq_some_iff.1 hp
  refine looks_closure.2 (.inr ⟨rfl, hlt, ?_⟩)
  rw [Grammar.itemLhs_eq hp]
  rw [trails_closureFollows hg hkernel]
  rcases looks_closure.1 hitem with ⟨set, hmem, hx⟩ | ⟨hdot, hprod, htrail⟩
  · have hresolve : ((followAfter g (FirstSets.ofGrammar g) item).resolve set).contains y = true := by
      rcases hy with hy | ⟨hinherits, rfl⟩
      · exact SymbolSet.contains_of_subset (Follow.set_subset_resolve _ _) hy
      · exact SymbolSet.contains_of_subset (Follow.subset_resolve hinherits _) hx
    obtain ⟨origin, horigin, hyo⟩ := looks_origins hmem hnext hresolve
    obtain ⟨f, hf, hinherits⟩ :=
      ClosureTables.exists_mem_corners_self hg (usable_of_mem_origins hg hkernel horigin)
    exact ⟨p.lhs, origin, f, horigin, hf,
      SymbolSet.contains_of_subset (Follow.subset_resolve hinherits _) hyo⟩
  · obtain ⟨j, d⟩ := item
    simp only at hdot hprod
    subst hdot
    have hq : g.productions[j]? = some g.productions[j] := Array.getElem?_eq_getElem hprod
    rw [Grammar.itemLhs_eq hq, trails_closureFollows hg hkernel] at htrail
    obtain ⟨t, origin, f, horigin, hf, hx⟩ := htrail
    obtain ⟨f', hf', hle⟩ := ClosureTables.exists_mem_corners_of_mem hg
      (usable_of_mem_origins hg hkernel horigin) hf hq rfl hnext
    refine ⟨t, origin, f', horigin, hf', ?_⟩
    have hset : f'.set ⊆ f'.resolve origin := Follow.set_subset_resolve _ _
    rcases hy with hy | ⟨hinherits, rfl⟩
    · refine SymbolSet.contains_of_subset hset (SymbolSet.contains_of_subset hle.set ?_)
      exact SymbolSet.contains_of_subset (Follow.set_subset_resolve _ _) hy
    · rw [Follow.resolve] at hx
      split at hx
      · rename_i hf
        rw [SymbolSet.contains_union, Bool.or_eq_true] at hx
        rcases hx with hx | hx
        · refine SymbolSet.contains_of_subset hset (SymbolSet.contains_of_subset hle.set ?_)
          exact SymbolSet.contains_of_subset (Follow.subset_resolve hinherits _) hx
        · refine SymbolSet.contains_of_subset (Follow.subset_resolve (hle.inherits ?_) _) hx
          rw [Follow.through, hinherits, hf, Bool.and_true]
      · refine SymbolSet.contains_of_subset hset (SymbolSet.contains_of_subset hle.set ?_)
        exact SymbolSet.contains_of_subset (Follow.subset_resolve hinherits _) hx

end LookaheadTables

end IncrementalLR
