import IncrementalLR.Automaton.Lookahead
import IncrementalLR.Proofs.Automaton.Closure
import IncrementalLR.Proofs.Automaton.First
import IncrementalLR.Proofs.Fold

/-!
# What follows the corners of a nonterminal

The search for what follows the nonterminals in the closure of a nonterminal goes on until what
follows each of them has been handed to the nonterminals in front of its productions. Every symbol
that is put on the list of those to do has got more to follow it, which bounds the search.
-/

namespace IncrementalLR

namespace Follow

/-- What follows one origin also follows the other. -/
structure Le (a b : Follow) : Prop where
  set : a.set ⊆ b.set
  inherits : a.inherits = true → b.inherits = true

theorem Le.refl (a : Follow) : a.Le a := ⟨SymbolSet.subset_refl _, id⟩

theorem Le.trans {a b c : Follow} (h : a.Le b) (h' : b.Le c) : a.Le c :=
  ⟨SymbolSet.subset_trans h.set h'.set, h'.inherits ∘ h.inherits⟩

theorem le_merge_left (a b : Follow) : a.Le (a.merge b) :=
  ⟨SymbolSet.subset_union_left _ _, fun h => by simp [merge, h]⟩

theorem le_merge_right (a b : Follow) : b.Le (a.merge b) :=
  ⟨SymbolSet.subset_union_right _ _, fun h => by simp [merge, h]⟩

theorem set_subset_resolve (f : Follow) (origin : SymbolSet) : f.set ⊆ f.resolve origin := by
  rw [resolve]
  split
  · exact SymbolSet.subset_union_left _ _
  · exact SymbolSet.subset_refl _

theorem subset_resolve {f : Follow} (h : f.inherits = true) (origin : SymbolSet) :
    origin ⊆ f.resolve origin := by
  rw [resolve, if_pos h]
  exact SymbolSet.subset_union_right _ _

theorem below_resolve {f : Follow} {origin : SymbolSet} {bound : Nat} (hf : f.set.Below bound)
    (ho : origin.Below bound) : (f.resolve origin).Below bound := by
  rw [resolve]
  split
  · exact hf.union ho
  · exact hf

theorem contains_resolve {f : Follow} {origin : SymbolSet} {x : Symbol} :
    (f.resolve origin).contains x = true ↔
      f.set.contains x = true ∨ (f.inherits = true ∧ origin.contains x = true) := by
  rw [resolve]
  cases f.inherits with
  | false => simp
  | true => rw [if_pos rfl, SymbolSet.contains_union, Bool.or_eq_true, eq_self, true_and]

/-- What follows a corner of a corner. -/
def through (f origin : Follow) : Follow := ⟨f.resolve origin.set, f.inherits && origin.inherits⟩

/-- How much follows a nonterminal. -/
def rank (bound : Nat) : Option Follow → Nat
  | none => 0
  | some f => 1 + f.set.count bound + f.inherits.toNat

theorem rank_le (bound : Nat) (f : Option Follow) : rank bound f ≤ bound + 2 := by
  cases f with
  | none => exact Nat.zero_le _
  | some f =>
      have hcount := SymbolSet.count_le bound f.set
      have hbit := f.inherits.toNat_le
      rw [rank]
      omega

theorem rank_lt_rank {bound : Nat} {a b : Follow} (h : a.Le b) (hne : a ≠ b)
    (hb : b.set.Below bound) : rank bound (some a) < rank bound (some b) := by
  have hcount := SymbolSet.count_mono h.set bound
  rw [rank, rank]
  by_cases hset : a.set = b.set
  · have hinherits : a.inherits = false ∧ b.inherits = true := by
      have hle := h.inherits
      have hne' : a.inherits ≠ b.inherits := fun heq => hne (by
        cases a
        cases b
        simp only at hset heq
        rw [hset, heq])
      revert hle hne'
      cases a.inherits <;> cases b.inherits <;> simp
    rw [hinherits.1, hinherits.2, Bool.toNat_false, Bool.toNat_true]
    omega
  · have hlt := SymbolSet.count_lt_count h.set hset hb
    have hbit : a.inherits.toNat ≤ b.inherits.toNat := by
      have hle := h.inherits
      revert hle
      cases a.inherits <;> cases b.inherits <;> simp
    omega

end Follow

namespace ClosureTables

variable {g : Grammar}

/-! ### Heads -/

theorem mem_headsOf {firsts : FirstSets} {prods : List Nat} {s : Symbol} {f : Follow} :
    (s, f) ∈ headsOf g firsts prods ↔ ∃ i ∈ prods, g.nextNonterminal? ⟨i, 0⟩ = some s ∧
      f = followAfter g firsts ⟨i, 0⟩ := by
  rw [headsOf, List.mem_eraseDups, List.mem_filterMap]
  refine exists_congr fun i => and_congr_right fun _ => ?_
  rw [Option.map_eq_some_iff]
  constructor
  · rintro ⟨t, ht, heq⟩
    cases heq
    exact ⟨ht, rfl⟩
  · rintro ⟨hs, rfl⟩
    exact ⟨s, hs, rfl⟩

theorem followAfter_eq {firsts : FirstSets} {i d : Nat} {p : Production}
    (hp : g.productions[i]? = some p) : followAfter g firsts ⟨i, d⟩
      = ⟨(firsts.ofSeq (p.rhs.drop (d + 1))).1, (firsts.ofSeq (p.rhs.drop (d + 1))).2⟩ := by
  rw [followAfter, hp]

theorem mem_heads {s h : Symbol} {f : Follow} (hs : s.index < g.symbols.size) :
    (h, f) ∈ (ofGrammar g).heads.getD s.index [] ↔
      ∃ i p, g.productions[i]? = some p ∧ p.lhs = s ∧ g.nextNonterminal? ⟨i, 0⟩ = some h ∧
        f = followAfter g (FirstSets.ofGrammar g) ⟨i, 0⟩ := by
  have hmap : (ofGrammar g).heads.getD s.index []
      = headsOf g (FirstSets.ofGrammar g) (g.productionsByLhs.getD s.index []) :=
    getD_map (headsOf g (FirstSets.ofGrammar g)) []
  rw [hmap, mem_headsOf]
  constructor
  · rintro ⟨i, hi, hnext, hf⟩
    obtain ⟨p, hp, hlhs⟩ := (Grammar.mem_productionsByLhs hs).1 hi
    exact ⟨i, p, hp, hlhs, hnext, hf⟩
  · rintro ⟨i, p, hp, hlhs, hnext, hf⟩
    exact ⟨i, (Grammar.mem_productionsByLhs hs).2 ⟨p, hp, hlhs⟩, hnext, hf⟩

theorem below_followAfter (hg : g.WellFormed) (item : Item) :
    (followAfter g (FirstSets.ofGrammar g) item).set.Below g.terminalCount := by
  rw [followAfter]
  split
  · exact SymbolSet.below_empty
  · exact (FirstSets.within_ofGrammar hg).ofSeq _

/-! ### Spreading -/

/-- The nonterminal has got what follows it through one production. -/
def handOver (origin : Follow) (state : List Symbol × Array (Option Follow))
    (entry : Symbol × Follow) : List Symbol × Array (Option Follow) :=
  match state.2.getD entry.1.index none with
  | none => (entry.1 :: state.1, state.2.set! entry.1.index (some (entry.2.through origin)))
  | some old =>
    if old.merge (entry.2.through origin) = old then state
    else (entry.1 :: state.1,
      state.2.set! entry.1.index (some (old.merge (entry.2.through origin))))

theorem spread_cons (c : ClosureTables) (fuel : Nat) (s : Symbol) (todo : List Symbol)
    (known : Array (Option Follow)) : c.spread (fuel + 1) (s :: todo) known
      = c.spread fuel
          ((c.heads.getD s.index []).foldl
            (handOver ((known.getD s.index none).getD {})) (todo, known)).1
          ((c.heads.getD s.index []).foldl
            (handOver ((known.getD s.index none).getD {})) (todo, known)).2 :=
  rfl

/-- What is known to follow a nonterminal is at least this. -/
def Knows (known : Array (Option Follow)) (s : Symbol) (f : Follow) : Prop :=
  ∃ f', known.getD s.index none = some f' ∧ f.Le f'

/-- Everything known stays known. -/
def Grows (known known' : Array (Option Follow)) : Prop :=
  ∀ s f, known.getD s.index none = some f → Knows known' s f

theorem Grows.refl (known : Array (Option Follow)) : Grows known known :=
  fun _ f h => ⟨f, h, .refl f⟩

theorem Knows.mono {known known' : Array (Option Follow)} (h : Grows known known') {s : Symbol}
    {f : Follow} (hs : Knows known s f) : Knows known' s f := by
  obtain ⟨f', hf', hle⟩ := hs
  obtain ⟨f'', hf'', hle'⟩ := h s f' hf'
  exact ⟨f'', hf'', hle.trans hle'⟩

theorem Grows.trans {known known' known'' : Array (Option Follow)} (h : Grows known known')
    (h' : Grows known' known'') : Grows known known'' :=
  fun s f hs => (h s f hs).mono h'

/-- How much follows all nonterminals. -/
def rankAll (g : Grammar) (known : Array (Option Follow)) : Nat :=
  ∑ i ∈ Finset.range g.symbols.size, Follow.rank g.terminalCount (known.getD i none)

theorem rankAll_le (g : Grammar) (known : Array (Option Follow)) :
    rankAll g known ≤ g.symbols.size * (g.terminalCount + 2) := by
  calc rankAll g known ≤ ∑ _i ∈ Finset.range g.symbols.size, (g.terminalCount + 2) :=
        Finset.sum_le_sum fun i _ => Follow.rank_le g.terminalCount _
    _ = g.symbols.size * (g.terminalCount + 2) := by simp

theorem rankAll_set! {known : Array (Option Follow)} {i : Nat} {f : Follow}
    (hsize : known.size = g.symbols.size) (hi : i < g.symbols.size)
    (hlt : Follow.rank g.terminalCount (known.getD i none)
      < Follow.rank g.terminalCount (some f)) :
    rankAll g known < rankAll g (known.set! i (some f)) :=
  sum_getD_lt_sum_getD_set! (Follow.rank g.terminalCount) hsize hi hlt

/-- What a search has found so far is in order. -/
structure KnownOf (g : Grammar) (known : Array (Option Follow)) : Prop where
  size : known.size = g.symbols.size
  below : ∀ (s : Symbol) (f : Follow), known.getD s.index none = some f →
    f.set.Below g.terminalCount
  ne_augmented : ∀ (s : Symbol) (f : Follow), known.getD s.index none = some f → s ≠ g.augmented

theorem KnownOf.set! {known : Array (Option Follow)} (h : KnownOf g known) {s : Symbol} {f : Follow}
    (hs : s.Usable g.augmented g.symbols.size) (hf : f.set.Below g.terminalCount) :
    KnownOf g (known.set! s.index (some f)) := by
  have hlt : s.index < known.size := by
    rw [h.size]
    exact hs.2.2
  refine ⟨?_, fun t f' ht => ?_, fun t f' ht => ?_⟩
  · rw [size_set!, h.size]
  · by_cases heq : s.index = t.index
    · rw [← heq, getD_set!_self hlt, Option.some.injEq] at ht
      rw [← ht]
      exact hf
    · rw [getD_set!_of_ne heq] at ht
      exact h.below t f' ht
  · by_cases heq : s.index = t.index
    · rw [← Symbol.index_injective heq]
      exact hs.2.1
    · rw [getD_set!_of_ne heq] at ht
      exact h.ne_augmented t f' ht

/-- A nonterminal with what follows it changed is to do. -/
structure Handed (g : Grammar) (todo todo' : List Symbol) (known known' : Array (Option Follow)) :
    Prop where
  knownOf : KnownOf g known'
  grows : Grows known known'
  kept : ∀ s ∈ todo, s ∈ todo'
  changed : ∀ s : Symbol, s ∈ todo' ∨ known'.getD s.index none = known.getD s.index none
  rank : todo'.length + rankAll g known ≤ todo.length + rankAll g known'

theorem Handed.refl {todo : List Symbol} {known : Array (Option Follow)} (h : KnownOf g known) :
    Handed g todo todo known known :=
  ⟨h, .refl known, fun _ hs => hs, fun _ => .inr rfl, Nat.le_refl _⟩

theorem Handed.trans {todo todo' todo'' : List Symbol} {known known' known'' : Array (Option Follow)}
    (h : Handed g todo todo' known known') (h' : Handed g todo' todo'' known' known'') :
    Handed g todo todo'' known known'' := by
  refine ⟨h'.knownOf, h.grows.trans h'.grows, fun s hs => h'.kept s (h.kept s hs), fun s => ?_, ?_⟩
  · rcases h'.changed s with hs | hs
    · exact .inl hs
    · rcases h.changed s with hs' | hs'
      · exact .inl (h'.kept s hs')
      · exact .inr (hs.trans hs')
  · have h₁ := h.rank
    have h₂ := h'.rank
    omega

/-- Putting more at one place of the array, and the symbol on the list. -/
theorem handed_set! {todo : List Symbol} {known : Array (Option Follow)} (h : KnownOf g known)
    {s : Symbol} {f : Follow} (hs : s.Usable g.augmented g.symbols.size)
    (hf : f.set.Below g.terminalCount)
    (hold : ∀ old, known.getD s.index none = some old → old.Le f)
    (hlt : Follow.rank g.terminalCount (known.getD s.index none)
      < Follow.rank g.terminalCount (some f)) :
    Handed g todo (s :: todo) known (known.set! s.index (some f)) := by
  have hsize : s.index < known.size := by
    rw [h.size]
    exact hs.2.2
  have hrank := rankAll_set! h.size hs.2.2 hlt
  refine ⟨h.set! hs hf, fun t f' ht => ?_, fun t ht => List.mem_cons_of_mem s ht, fun t => ?_, ?_⟩
  · by_cases heq : s.index = t.index
    · rw [← heq] at ht
      exact ⟨f, by rw [← heq, getD_set!_self hsize], hold f' ht⟩
    · exact ⟨f', by rw [getD_set!_of_ne heq, ht], .refl f'⟩
  · by_cases heq : s.index = t.index
    · rw [Symbol.index_injective heq]
      exact .inl List.mem_cons_self
    · exact .inr (getD_set!_of_ne heq _ _)
  · rw [List.length_cons]
    omega

theorem handed_handOver (todo : List Symbol) {known : Array (Option Follow)} {origin : Follow}
    {entry : Symbol × Follow} (h : KnownOf g known)
    (hentry : entry.1.Usable g.augmented g.symbols.size)
    (hbelow : (entry.2.through origin).set.Below g.terminalCount) :
    Handed g todo (handOver origin (todo, known) entry).1 known
        (handOver origin (todo, known) entry).2 ∧
      Knows (handOver origin (todo, known) entry).2 entry.1 (entry.2.through origin) := by
  have hsize : entry.1.index < known.size := by
    rw [h.size]
    exact hentry.2.2
  rw [handOver]
  simp only
  cases hknown : known.getD entry.1.index none with
  | none =>
      refine ⟨handed_set! h hentry hbelow ?_ ?_, _, getD_set!_self hsize _ _, .refl _⟩
      · rw [hknown]
        simp
      · rw [hknown, Follow.rank, Follow.rank]
        omega
  | some old =>
      simp only
      split
      · rename_i hmerge
        refine ⟨.refl h, old, hknown, ?_⟩
        rw [← hmerge]
        exact Follow.le_merge_right _ _
      · rename_i hmerge
        have hmerged : (old.merge (entry.2.through origin)).set.Below g.terminalCount :=
          (h.below _ _ hknown).union hbelow
        refine ⟨handed_set! h hentry hmerged ?_ ?_, _, getD_set!_self hsize _ _,
          Follow.le_merge_right _ _⟩
        · rw [hknown]
          rintro _ ⟨⟩
          exact Follow.le_merge_left _ _
        · rw [hknown]
          exact Follow.rank_lt_rank (Follow.le_merge_left _ _) (Ne.symm hmerge) hmerged

theorem foldl_handOver_spec {origin : Follow} {entries : List (Symbol × Follow)}
    (hentries : ∀ entry ∈ entries, entry.1.Usable g.augmented g.symbols.size ∧
      (entry.2.through origin).set.Below g.terminalCount) (todo : List Symbol)
    {known : Array (Option Follow)} (h : KnownOf g known) :
    Handed g todo (entries.foldl (handOver origin) (todo, known)).1 known
        (entries.foldl (handOver origin) (todo, known)).2 ∧
      ∀ entry ∈ entries, Knows (entries.foldl (handOver origin) (todo, known)).2 entry.1
        (entry.2.through origin) := by
  induction entries generalizing todo known with
  | nil => exact ⟨.refl h, by simp⟩
  | cons entry entries ih =>
      obtain ⟨husable, hbelow⟩ := hentries entry List.mem_cons_self
      obtain ⟨hhanded, hknows⟩ := handed_handOver todo h husable hbelow
      obtain ⟨hrest, hknowsRest⟩ := ih (fun other hother =>
        hentries other (List.mem_cons_of_mem entry hother)) _ hhanded.knownOf
      rw [List.foldl_cons]
      refine ⟨hhanded.trans hrest, fun other hother => ?_⟩
      rcases List.mem_cons.1 hother with rfl | hother
      · exact hknows.mono hrest.grows
      · exact hknowsRest other hother

theorem usable_of_mem_heads (hg : g.WellFormed) {i : Nat} {entry : Symbol × Follow}
    (h : entry ∈ (ofGrammar g).heads.getD i []) :
    entry.1.Usable g.augmented g.symbols.size ∧ entry.2.set.Below g.terminalCount := by
  have hmap : (ofGrammar g).heads.getD i []
      = headsOf g (FirstSets.ofGrammar g) (g.productionsByLhs.getD i []) :=
    getD_map (headsOf g (FirstSets.ofGrammar g)) []
  rw [hmap] at h
  obtain ⟨j, _, hnext, hf⟩ := mem_headsOf.1 h
  refine ⟨hg.nextSymbol?_usable (Grammar.nextNonterminal?_eq_some.1 hnext).1, ?_⟩
  rw [hf]
  exact below_followAfter hg _

/-- What follows the nonterminal has been handed to the nonterminals in front of its productions. -/
def Settled (g : Grammar) (known : Array (Option Follow)) (s : Symbol) : Prop :=
  ∀ f, known.getD s.index none = some f →
    ∀ entry ∈ (ofGrammar g).heads.getD s.index [], Knows known entry.1 (entry.2.through f)

/-- One visit settles its symbol; what it changes is to do. -/
theorem settled_of_handed {s t : Symbol} {todo todo' : List Symbol}
    {known known' : Array (Option Follow)} (hhanded : Handed g todo todo' known known')
    (hknows : ∀ entry ∈ (ofGrammar g).heads.getD s.index [],
      Knows known' entry.1 (entry.2.through ((known.getD s.index none).getD {})))
    (h : t ∈ s :: todo ∨ Settled g known t) : t ∈ todo' ∨ Settled g known' t := by
  rcases hhanded.changed t with ht | ht
  · exact .inl ht
  · rcases h with h | h
    · rcases List.mem_cons.1 h with rfl | h
      · refine .inr fun f hf entry hentry => ?_
        have hknows := hknows entry hentry
        rwa [← ht, hf, Option.getD_some] at hknows
      · exact .inl (hhanded.kept t h)
    · refine .inr fun f hf entry hentry => ?_
      rw [ht] at hf
      exact (h f hf entry hentry).mono hhanded.grows

/-- The search settles every nonterminal it knows of. -/
theorem spread_spec (hg : g.WellFormed) {fuel : Nat} {todo : List Symbol}
    {known : Array (Option Follow)} (h : KnownOf g known)
    (hsettled : ∀ s, s ∈ todo ∨ Settled g known s)
    (hfuel : todo.length + g.symbols.size * (g.terminalCount + 2) < fuel + rankAll g known) :
    KnownOf g ((ofGrammar g).spread fuel todo known) ∧
      Grows known ((ofGrammar g).spread fuel todo known) ∧
      ∀ s, Settled g ((ofGrammar g).spread fuel todo known) s := by
  induction fuel generalizing todo known with
  | zero =>
      have hle := rankAll_le g known
      omega
  | succ fuel ih =>
      cases todo with
      | nil => exact ⟨h, .refl known, fun s => (hsettled s).resolve_left List.not_mem_nil⟩
      | cons s todo =>
          rw [spread_cons]
          have hentries : ∀ entry ∈ (ofGrammar g).heads.getD s.index [],
              entry.1.Usable g.augmented g.symbols.size ∧
              (entry.2.through ((known.getD s.index none).getD {})).set.Below
                g.terminalCount := by
            intro entry hentry
            obtain ⟨husable, hbelow⟩ := usable_of_mem_heads hg hentry
            refine ⟨husable, Follow.below_resolve hbelow ?_⟩
            cases hs : known.getD s.index none with
            | none => exact SymbolSet.below_empty
            | some f => exact h.below s f hs
          obtain ⟨hhanded, hknows⟩ := foldl_handOver_spec hentries todo h
          have hrank := hhanded.rank
          rw [List.length_cons] at hfuel
          obtain ⟨hknown, hgrows, hall⟩ := ih hhanded.knownOf
            (fun t => settled_of_handed hhanded hknows (hsettled t)) (by omega)
          exact ⟨hknown, hhanded.grows.trans hgrows, hall⟩

/-! ### What a search reaches -/

section Reaches

variable {P : Symbol → Follow → Prop}

theorem of_handOver (hweaken : ∀ s f, P s f → P s {}) (hmerge : ∀ s a b, P s a → P s b → P s (a.merge b))
    {origin : Follow} {state : List Symbol × Array (Option Follow)} {entry : Symbol × Follow}
    (hentry : P entry.1 (entry.2.through origin)) (htodo : ∀ s ∈ state.1, P s {})
    (hknown : ∀ (s : Symbol) (f : Follow), state.2.getD s.index none = some f → P s f) :
    (∀ s ∈ (handOver origin state entry).1, P s {}) ∧
      ∀ (s : Symbol) (f : Follow),
        (handOver origin state entry).2.getD s.index none = some f → P s f := by
  have hset : ∀ (follow : Follow), P entry.1 follow → ∀ (s : Symbol) (f : Follow),
      (state.2.set! entry.1.index (some follow)).getD s.index none = some f → P s f := by
    intro follow hfollow s f hf
    by_cases heq : entry.1.index = s.index
    · obtain rfl := Symbol.index_injective heq
      by_cases hsize : entry.1.index < state.2.size
      · rw [getD_set!_self hsize, Option.some.injEq] at hf
        rwa [← hf]
      · rw [getD_of_size_le (by rw [size_set!]; omega)] at hf
        cases hf
    · rw [getD_set!_of_ne heq] at hf
      exact hknown s f hf
  have htodo' : ∀ s ∈ entry.1 :: state.1, P s {} :=
    List.forall_mem_cons.2 ⟨hweaken _ _ hentry, htodo⟩
  rw [handOver]
  split
  · exact ⟨htodo', hset _ hentry⟩
  · rename_i old hold
    split
    · exact ⟨htodo, hknown⟩
    · exact ⟨htodo', hset _ (hmerge _ _ _ (hknown _ _ hold) hentry)⟩

/-- A property that heads take over holds of all that a search gets to know. -/
theorem of_spread (hweaken : ∀ s f, P s f → P s {}) (hmerge : ∀ s a b, P s a → P s b → P s (a.merge b))
    (hheads : ∀ s f, P s f →
      ∀ entry ∈ (ofGrammar g).heads.getD s.index [], P entry.1 (entry.2.through f))
    {fuel : Nat} {todo : List Symbol} {known : Array (Option Follow)} (htodo : ∀ s ∈ todo, P s {})
    (hknown : ∀ (s : Symbol) (f : Follow), known.getD s.index none = some f → P s f) :
    ∀ (s : Symbol) (f : Follow),
      ((ofGrammar g).spread fuel todo known).getD s.index none = some f → P s f := by
  induction fuel generalizing todo known with
  | zero => exact hknown
  | succ fuel ih =>
      cases todo with
      | nil => exact hknown
      | cons s todo =>
          rw [spread_cons]
          have hs : P s ((known.getD s.index none).getD {}) := by
            cases hget : known.getD s.index none with
            | none => exact htodo s List.mem_cons_self
            | some f => exact hknown s f hget
          have hreached : ∀ state : List Symbol × Array (Option Follow),
              state = ((ofGrammar g).heads.getD s.index []).foldl
                (handOver ((known.getD s.index none).getD {})) (todo, known) →
              (∀ t ∈ state.1, P t {}) ∧
                ∀ (t : Symbol) (f : Follow), state.2.getD t.index none = some f → P t f := by
            rintro _ rfl
            refine foldl_induction (fun _ (state : List Symbol × Array (Option Follow)) =>
              (∀ t ∈ state.1, P t {}) ∧
                ∀ (t : Symbol) (f : Follow), state.2.getD t.index none = some f → P t f) ?_ ?_
            · exact ⟨fun t ht => htodo t (List.mem_cons_of_mem s ht), hknown⟩
            · intro done entry rest state heq hstate
              refine of_handOver hweaken hmerge (hheads s _ hs entry ?_) hstate.1 hstate.2
              rw [heq]
              simp
          obtain ⟨htodo', hknown'⟩ := hreached _ rfl
          exact ih htodo' hknown'

end Reaches

/-! ### Corners -/

/-- Where the search for the corners of a nonterminal starts. -/
def knownAt (g : Grammar) (s : Symbol) : Array (Option Follow) :=
  (Array.replicate g.symbols.size none).set! s.index (some ⟨SymbolSet.empty, true⟩)

theorem knownOf_knownAt {s : Symbol} (hs : s.Usable g.augmented g.symbols.size) :
    KnownOf g (knownAt g s) := by
  refine KnownOf.set! ⟨Array.size_replicate, ?_, ?_⟩ hs SymbolSet.below_empty
  · intro t f ht
    rw [getD_replicate_none] at ht
    cases ht
  · intro t f ht
    rw [getD_replicate_none] at ht
    cases ht

theorem settled_knownAt {s : Symbol} (t : Symbol) : t ∈ [s] ∨ Settled g (knownAt g s) t := by
  by_cases heq : s.index = t.index
  · rw [Symbol.index_injective heq]
    exact .inl List.mem_cons_self
  · refine .inr fun f hf => ?_
    rw [knownAt, getD_set!_of_ne heq, getD_replicate_none] at hf
    cases hf

/-- What follows the nonterminals in the closure of a nonterminal, as the search leaves it. -/
def cornerFollows (g : Grammar) (s : Symbol) : Array (Option Follow) :=
  (ofGrammar g).spread (g.symbols.size * (g.terminalCount + 2) + 1) [s] (knownAt g s)

theorem cornerFollows_spec (hg : g.WellFormed) {s : Symbol}
    (hs : s.Usable g.augmented g.symbols.size) :
    KnownOf g (cornerFollows g s) ∧ Grows (knownAt g s) (cornerFollows g s) ∧
      ∀ t, Settled g (cornerFollows g s) t := by
  refine spread_spec hg (knownOf_knownAt hs) settled_knownAt ?_
  have hrank : rankAll g (Array.replicate g.symbols.size none) < rankAll g (knownAt g s) := by
    refine rankAll_set! Array.size_replicate hs.2.2 ?_
    rw [getD_replicate_none, Follow.rank, Follow.rank]
    omega
  rw [List.length_singleton]
  omega

theorem mem_corners (hg : g.WellFormed) {s t : Symbol} {f : Follow}
    (hs : s.Usable g.augmented g.symbols.size) :
    (t, f) ∈ (ofGrammar g).corners s ↔ (cornerFollows g s).getD t.index none = some f := by
  have hsize := (cornerFollows_spec hg hs).1.size
  have hbound := hg.size
  have hcorners : (ofGrammar g).corners s
      = (cornerFollows g s).toList.zipIdx.filterMap fun entry =>
          entry.1.map fun f => (Symbol.ofIndex entry.2, f) := rfl
  rw [hcorners, List.mem_filterMap]
  constructor
  · rintro ⟨⟨follow, i⟩, hmem, hsome⟩
    rw [List.mk_mem_zipIdx_iff_getElem?, Array.getElem?_toList] at hmem
    obtain ⟨hi, _⟩ := Array.getElem?_eq_some_iff.1 hmem
    obtain ⟨f', rfl, heq⟩ := Option.map_eq_some_iff.1 hsome
    cases heq
    rw [Symbol.index_ofIndex (by omega), Array.getD_eq_getD_getElem?, hmem, Option.getD_some]
  · intro ht
    have hi : t.index < (cornerFollows g s).size := by
      by_contra hge
      rw [getD_of_size_le (Nat.le_of_not_lt hge)] at ht
      cases ht
    refine ⟨(some f, t.index), ?_, ?_⟩
    · rw [List.mk_mem_zipIdx_iff_getElem?, Array.getElem?_toList, getElem?_eq_some_getD hi none, ht]
    · simp only [Option.map_some, Symbol.ofIndex_index]

/-- A property of a nonterminal, as what follows it, that heads take over holds of the corners. -/
theorem of_mem_corners (hg : g.WellFormed) {P : Symbol → Follow → Prop}
    (hweaken : ∀ s f, P s f → P s {}) (hmerge : ∀ s a b, P s a → P s b → P s (a.merge b))
    (hheads : ∀ s f, P s f →
      ∀ entry ∈ (ofGrammar g).heads.getD s.index [], P entry.1 (entry.2.through f))
    {s t : Symbol} {f : Follow} (hs : s.Usable g.augmented g.symbols.size)
    (hself : P s ⟨SymbolSet.empty, true⟩) (h : (t, f) ∈ (ofGrammar g).corners s) : P t f := by
  refine of_spread hweaken hmerge hheads ?_ ?_ t f ((mem_corners hg hs).1 h)
  · intro t ht
    rw [List.mem_singleton.1 ht]
    exact hweaken s _ hself
  · intro t f ht
    by_cases heq : s.index = t.index
    · rw [knownAt, ← heq, getD_set!_self (by rw [Array.size_replicate]; exact hs.2.2)] at ht
      cases ht
      rwa [← Symbol.index_injective heq]
    · rw [knownAt, getD_set!_of_ne heq, getD_replicate_none] at ht
      cases ht

/-- Corners of a nonterminal of a set that is closed under corners are in the set. -/
theorem contains_of_mem_corners (hg : g.WellFormed) {found : SymbolSet} (hfound : g.CornerClosed found)
    {s t : Symbol} {f : Follow} (hs : s.Usable g.augmented g.symbols.size)
    (hcontains : found.contains s = true) (h : (t, f) ∈ (ofGrammar g).corners s) :
    found.contains t = true := by
  refine (of_mem_corners hg (P := fun t _ => t.index < g.symbols.size ∧ found.contains t = true)
    (fun _ _ h => h) (fun _ _ _ h _ => h) ?_ hs ⟨hs.2.2, hcontains⟩ h).2
  rintro t _ ⟨ht, hcontains⟩ ⟨head, follow⟩ hentry
  obtain ⟨i, p, hp, rfl, hnext, _⟩ := (mem_heads ht).1 hentry
  have husable := hg.nextSymbol?_usable (Grammar.nextNonterminal?_eq_some.1 hnext).1
  exact ⟨husable.2.2, hfound i p head hp hcontains hnext⟩

/-- What follows the nonterminal itself is inherited. -/
theorem exists_mem_corners_self (hg : g.WellFormed) {s : Symbol}
    (hs : s.Usable g.augmented g.symbols.size) :
    ∃ f, (s, f) ∈ (ofGrammar g).corners s ∧ f.inherits = true := by
  obtain ⟨_, hgrows, _⟩ := cornerFollows_spec hg hs
  have hstart : (knownAt g s).getD s.index none = some ⟨SymbolSet.empty, true⟩ :=
    getD_set!_self (by rw [Array.size_replicate]; exact hs.2.2) _ _
  obtain ⟨f, hf, hle⟩ := hgrows s _ hstart
  exact ⟨f, (mem_corners hg hs).2 hf, hle.inherits rfl⟩

/-- What follows a corner is handed to the nonterminals in front of its productions. -/
theorem exists_mem_corners_of_mem (hg : g.WellFormed) {s t h : Symbol} {f : Follow}
    (hs : s.Usable g.augmented g.symbols.size) (hmem : (t, f) ∈ (ofGrammar g).corners s) {i : Nat}
    {p : Production} (hp : g.productions[i]? = some p) (hlhs : p.lhs = t)
    (hnext : g.nextNonterminal? ⟨i, 0⟩ = some h) :
    ∃ f', (h, f') ∈ (ofGrammar g).corners s ∧
      ((followAfter g (FirstSets.ofGrammar g) ⟨i, 0⟩).through f).Le f' := by
  obtain ⟨_, _, hsettled⟩ := cornerFollows_spec hg hs
  have ht : t.index < g.symbols.size := by
    rw [← hlhs]
    exact (hg.lhs p (Array.mem_of_getElem? hp)).2
  obtain ⟨f', hf', hle⟩ := hsettled t f ((mem_corners hg hs).1 hmem) _
    ((mem_heads ht).2 ⟨i, p, hp, hlhs, hnext, rfl⟩)
  exact ⟨f', (mem_corners hg hs).2 hf', hle⟩

end ClosureTables

end IncrementalLR
