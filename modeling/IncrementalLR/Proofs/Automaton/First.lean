import IncrementalLR.Automaton.First
import IncrementalLR.Proofs.Collections
import IncrementalLR.Proofs.Grammar.Derivation
import IncrementalLR.Proofs.Grammar.WellFormed
import IncrementalLR.Proofs.SymbolSet

/-!
# First sets

The rounds of the computation of first sets go on until the sets satisfy what the productions
require. A terminal that starts a string derived from a symbol is then in the set of the symbol, and
a symbol that derives the empty string is nullable, since rewriting never finds out more than the sets
already know. Nothing else is in the sets, since every entry is put there along a derivation.
-/

namespace IncrementalLR

theorem Grammar.Derives.eq_of_isTerminal {g : Grammar} (hg : g.WellFormed) {s : Symbol}
    {w : List Symbol} (h : g.Derives [s] w) (hs : g.isTerminal s = true) : w = [s] := by
  induction h with
  | refl => rfl
  | tail _ hstep ih =>
      obtain ⟨i, p, before, after, hp, hu, rfl⟩ := hstep
      obtain rfl : p.lhs = s := List.mem_singleton.1 (ih ▸ hu ▸ by simp)
      rw [hg.isTerminal_lhs hp] at hs
      cases hs

namespace FirstSets

variable {g : Grammar}

/-- One family of sets is contained in another. -/
structure Le (f f' : FirstSets) : Prop where
  size : f.first.size = f'.first.size
  first : ∀ i, f.first.getD i SymbolSet.empty ⊆ f'.first.getD i SymbolSet.empty
  nullable : f.nullable ⊆ f'.nullable

theorem Le.refl (f : FirstSets) : f.Le f :=
  ⟨rfl, fun _ => SymbolSet.subset_refl _, SymbolSet.subset_refl _⟩

theorem Le.trans {f f' f'' : FirstSets} (h : f.Le f') (h' : f'.Le f'') : f.Le f'' :=
  ⟨h.size.trans h'.size, fun i => SymbolSet.subset_trans (h.first i) (h'.first i),
    SymbolSet.subset_trans h.nullable h'.nullable⟩

theorem Le.antisymm {f f' : FirstSets} (h : f.Le f') (h' : f'.Le f) : f = f' := by
  have hfirst : f.first = f'.first := by
    refine Array.ext h.size fun i hi hi' => ?_
    have heq := SymbolSet.subset_antisymm (h.first i) (h'.first i)
    rwa [Array.getD_eq_getD_getElem?, Array.getD_eq_getD_getElem?, Array.getElem?_eq_getElem hi,
      Array.getElem?_eq_getElem hi'] at heq
  have hnullable := SymbolSet.subset_antisymm h.nullable h'.nullable
  cases f
  cases f'
  simp only at hfirst hnullable
  rw [hfirst, hnullable]

/-- The sets hold terminals and symbols of the grammar only. -/
structure Within (g : Grammar) (f : FirstSets) : Prop where
  size : f.first.size = g.symbols.size
  first : ∀ i, (f.first.getD i SymbolSet.empty).Below g.terminalCount
  nullable : f.nullable.Below g.symbols.size

theorem Within.ofSeq {f : FirstSets} (h : f.Within g) (symbols : List Symbol) :
    (f.ofSeq symbols).1.Below g.terminalCount := by
  induction symbols with
  | nil => exact SymbolSet.below_empty
  | cons s rest ih =>
      rw [FirstSets.ofSeq]
      split
      · exact (h.first s.index).union ih
      · exact h.first s.index

theorem le_addProduction (f : FirstSets) (p : Production) : f.Le (f.addProduction p) := by
  refine ⟨?_, fun i => ?_, ?_⟩
  · simp [addProduction]
  · by_cases hi : p.lhs.index = i
    · subst hi
      by_cases hsize : p.lhs.index < f.first.size
      · rw [addProduction, getD_modify_self hsize]
        exact SymbolSet.subset_union_left _ _
      · rw [getD_of_size_le (by omega)]
        exact SymbolSet.empty_subset _
    · rw [addProduction, getD_modify_of_ne hi]
      exact SymbolSet.subset_refl _
  · simp only [addProduction]
    split
    · exact SymbolSet.subset_insert _ _
    · exact SymbolSet.subset_refl _

theorem Within.addProduction {f : FirstSets} (h : f.Within g) {p : Production}
    (hp : p.lhs.index < g.symbols.size) : (f.addProduction p).Within g := by
  refine ⟨?_, fun i => ?_, ?_⟩
  · simp [FirstSets.addProduction, h.size]
  · by_cases hi : p.lhs.index = i
    · subst hi
      rw [FirstSets.addProduction, getD_modify_self (by rw [h.size]; exact hp)]
      exact (h.first _).union (h.ofSeq p.rhs)
    · rw [FirstSets.addProduction, getD_modify_of_ne hi]
      exact h.first i
  · simp only [FirstSets.addProduction]
    split
    · exact h.nullable.insert hp
    · exact h.nullable

theorem le_foldl_addProduction (productions : List Production) (f : FirstSets) :
    f.Le (productions.foldl addProduction f) := by
  induction productions generalizing f with
  | nil => exact .refl f
  | cons p rest ih => exact (le_addProduction f p).trans (ih (f.addProduction p))

theorem addAll_eq_foldl (g : Grammar) (f : FirstSets) :
    addAll g f = g.productions.toList.foldl addProduction f := by
  rw [addAll, Array.foldl_toList]

theorem Within.addAll {f : FirstSets} (hg : g.WellFormed) (h : f.Within g) :
    (addAll g f).Within g := by
  rw [addAll_eq_foldl]
  refine foldl_induction (fun _ (f : FirstSets) => f.Within g) h ?_
  intro done p rest f heq hf
  have hp : p ∈ g.productions := by
    rw [← Array.mem_toList_iff, heq]
    simp
  exact hf.addProduction (hg.lhs p hp).2

theorem within_initial (hg : g.WellFormed) : (initial g).Within g := by
  have haug := hg.augmented_lt
  refine ⟨by simp [initial], fun i => ?_, SymbolSet.below_empty⟩
  by_cases hi : i < g.symbols.size
  · simp only [initial, Array.getD_eq_getD_getElem?, Array.getElem?_map, Array.getElem?_range, hi,
      if_true, Option.map_some, Option.getD_some]
    split
    · rename_i hterminal
      refine SymbolSet.below_singleton ?_
      rw [Symbol.index_ofIndex (by have := hg.size; omega)]
      exact hterminal
    · exact SymbolSet.below_empty
  · rw [getD_of_size_le (by simp [initial]; omega)]
    exact SymbolSet.below_empty

/-! ### The rounds come to an end -/

/-- The number of members of all sets. -/
def weight (g : Grammar) (f : FirstSets) : Nat :=
  (∑ i ∈ Finset.range g.symbols.size,
    (f.first.getD i SymbolSet.empty).count g.terminalCount) + f.nullable.count g.symbols.size

theorem weight_le (g : Grammar) (f : FirstSets) :
    weight g f ≤ g.symbols.size * (g.terminalCount + 1) := by
  have hsum : (∑ i ∈ Finset.range g.symbols.size,
      (f.first.getD i SymbolSet.empty).count g.terminalCount)
        ≤ g.symbols.size * g.terminalCount := by
    calc _ ≤ ∑ _i ∈ Finset.range g.symbols.size, g.terminalCount :=
          Finset.sum_le_sum fun i _ => SymbolSet.count_le g.terminalCount _
      _ = g.symbols.size * g.terminalCount := by simp
  have hnullable := SymbolSet.count_le g.symbols.size f.nullable
  rw [weight, Nat.mul_succ]
  omega

theorem weight_lt_weight {f f' : FirstSets} (h : f.Le f') (hne : f ≠ f') (hf' : f'.Within g) :
    weight g f < weight g f' := by
  have hsum : (∑ i ∈ Finset.range g.symbols.size,
      (f.first.getD i SymbolSet.empty).count g.terminalCount)
        ≤ ∑ i ∈ Finset.range g.symbols.size,
          (f'.first.getD i SymbolSet.empty).count g.terminalCount :=
    Finset.sum_le_sum fun i _ => SymbolSet.count_mono (h.first i) g.terminalCount
  have hnullable := SymbolSet.count_mono h.nullable g.symbols.size
  by_cases hfirst : ∀ i, f'.first.getD i SymbolSet.empty ⊆ f.first.getD i SymbolSet.empty
  · have hne' : f.nullable ≠ f'.nullable := fun heq =>
      hne (h.antisymm ⟨h.size.symm, hfirst, heq ▸ SymbolSet.subset_refl _⟩)
    have := SymbolSet.count_lt_count h.nullable hne' hf'.nullable
    rw [weight, weight]
    omega
  · push Not at hfirst
    obtain ⟨i, hi⟩ := hfirst
    have hsize : i < g.symbols.size := by
      by_contra hge
      refine hi ?_
      rw [getD_of_size_le (by rw [hf'.size]; omega)]
      exact SymbolSet.empty_subset _
    have hlt := SymbolSet.count_lt_count (h.first i)
      (fun heq => hi (heq ▸ SymbolSet.subset_refl _)) (hf'.first i)
    have hsumlt := Finset.sum_lt_sum
      (fun j _ => SymbolSet.count_mono (h.first j) g.terminalCount) ⟨i, Finset.mem_range.2 hsize, hlt⟩
    rw [weight, weight]
    omega

theorem le_close (g : Grammar) (fuel : Nat) (f : FirstSets) : f.Le (close g fuel f) := by
  induction fuel generalizing f with
  | zero => exact .refl f
  | succ fuel ih =>
      rw [close]
      split
      · exact .refl f
      · refine Le.trans ?_ (ih (addAll g f))
        rw [addAll_eq_foldl]
        exact le_foldl_addProduction _ f

theorem addAll_close (hg : g.WellFormed) {fuel : Nat} {f : FirstSets} (hf : f.Within g)
    (hfuel : g.symbols.size * (g.terminalCount + 1) < fuel + weight g f) :
    addAll g (close g fuel f) = close g fuel f := by
  induction fuel generalizing f with
  | zero =>
      have := weight_le g f
      omega
  | succ fuel ih =>
      rw [close]
      split
      · assumption
      · rename_i hne
        have hle : f.Le (addAll g f) := by
          rw [addAll_eq_foldl]
          exact le_foldl_addProduction _ f
        have hlt := weight_lt_weight hle (Ne.symm hne) (hf.addAll hg)
        exact ih (hf.addAll hg) (by omega)

theorem Within.close {f : FirstSets} (hg : g.WellFormed) (h : f.Within g) (fuel : Nat) :
    (close g fuel f).Within g := by
  induction fuel generalizing f with
  | zero => exact h
  | succ fuel ih =>
      rw [FirstSets.close]
      split
      · exact h
      · exact ih (h.addAll hg)

theorem within_ofGrammar (hg : g.WellFormed) : (ofGrammar g).Within g :=
  (within_initial hg).close hg _

/-- The sets satisfy what the production requires. -/
theorem addProduction_ofGrammar (hg : g.WellFormed) {p : Production} (hp : p ∈ g.productions) :
    ((ofGrammar g).addProduction p).Le (ofGrammar g) := by
  have hfix : addAll g (ofGrammar g) = ofGrammar g :=
    addAll_close hg (within_initial hg) (by omega)
  obtain ⟨before, after, hsplit⟩ := List.append_of_mem (Array.mem_toList_iff.2 hp)
  have hle := le_foldl_addProduction before (ofGrammar g)
  have hrest := le_foldl_addProduction after
    ((before.foldl addProduction (ofGrammar g)).addProduction p)
  have htotal : after.foldl addProduction
      ((before.foldl addProduction (ofGrammar g)).addProduction p) = ofGrammar g := by
    rw [addAll_eq_foldl, hsplit, List.foldl_append, List.foldl_cons] at hfix
    exact hfix
  rw [htotal] at hrest
  -- the sets before the production are caught between the same sets
  have hbefore : before.foldl addProduction (ofGrammar g) = ofGrammar g :=
    ((le_addProduction _ p).trans hrest).antisymm hle
  rwa [hbefore] at hrest

/-! ### Sequences of symbols -/

theorem contains_ofSeq_cons (f : FirstSets) (s : Symbol) (rest : List Symbol) (x : Symbol) :
    (f.ofSeq (s :: rest)).1.contains x
      = ((f.firstOf s).contains x || (f.nullable.contains s && (f.ofSeq rest).1.contains x)) := by
  rw [ofSeq]
  split <;> simp_all

theorem ofSeq_cons_snd (f : FirstSets) (s : Symbol) (rest : List Symbol) :
    (f.ofSeq (s :: rest)).2 = (f.nullable.contains s && (f.ofSeq rest).2) := by
  rw [ofSeq]
  split <;> simp_all

/-- The symbols behind a sequence count as long as the sequence is nullable. -/
theorem contains_ofSeq_append (f : FirstSets) (u v : List Symbol) (x : Symbol) :
    (f.ofSeq (u ++ v)).1.contains x
      = ((f.ofSeq u).1.contains x || ((f.ofSeq u).2 && (f.ofSeq v).1.contains x)) := by
  induction u with
  | nil => simp [ofSeq]
  | cons s rest ih =>
      rw [List.cons_append, contains_ofSeq_cons, contains_ofSeq_cons, ofSeq_cons_snd, ih,
        Bool.and_or_distrib_left, Bool.or_assoc, Bool.and_assoc]

theorem ofSeq_append_snd (f : FirstSets) (u v : List Symbol) :
    (f.ofSeq (u ++ v)).2 = ((f.ofSeq u).2 && (f.ofSeq v).2) := by
  induction u with
  | nil => simp [ofSeq]
  | cons s rest ih =>
      rw [List.cons_append, ofSeq_cons_snd, ofSeq_cons_snd, ih, Bool.and_assoc]

@[simp] theorem contains_ofSeq_singleton (f : FirstSets) (s x : Symbol) :
    (f.ofSeq [s]).1.contains x = (f.firstOf s).contains x := by
  rw [contains_ofSeq_cons]
  simp [ofSeq]

@[simp] theorem ofSeq_singleton_snd (f : FirstSets) (s : Symbol) :
    (f.ofSeq [s]).2 = f.nullable.contains s := by
  rw [ofSeq_cons_snd]
  simp [ofSeq]

/-! ### All that derivations start with is in the sets -/

variable {s x : Symbol} {u v w : List Symbol}

theorem contains_firstOf_terminal (hg : g.WellFormed) (hs : g.isTerminal s = true) :
    ((ofGrammar g).firstOf s).contains s = true := by
  have hindex : s.index < g.terminalCount := by simpa [Grammar.isTerminal] using hs
  have haug := hg.augmented_lt
  refine SymbolSet.contains_of_subset ((le_close g _ (initial g)).first s.index) ?_
  simp [initial, Array.getD_eq_getD_getElem?, hindex, show s.index < g.symbols.size by omega]

theorem subset_firstOf_lhs (hg : g.WellFormed) {p : Production} (hp : p ∈ g.productions) :
    ((ofGrammar g).ofSeq p.rhs).1 ⊆ (ofGrammar g).firstOf p.lhs := by
  have hle := (addProduction_ofGrammar hg hp).first p.lhs.index
  rw [addProduction, getD_modify_self (by
    rw [(within_ofGrammar hg).size]
    exact (hg.lhs p hp).2)] at hle
  exact SymbolSet.subset_trans (SymbolSet.subset_union_right _ _) hle

theorem nullable_lhs (hg : g.WellFormed) {p : Production} (hp : p ∈ g.productions)
    (hnull : ((ofGrammar g).ofSeq p.rhs).2 = true) :
    (ofGrammar g).nullable.contains p.lhs = true := by
  refine SymbolSet.contains_of_subset (addProduction_ofGrammar hg hp).nullable ?_
  simp [addProduction, hnull]

/-- What is known of a string is known of the string that it was rewritten from. -/
theorem ofSeq_of_rewrites (hg : g.WellFormed) (h : g.Rewrites u v) :
    (((ofGrammar g).ofSeq v).2 = true → ((ofGrammar g).ofSeq u).2 = true) ∧
      ∀ x, ((ofGrammar g).ofSeq v).1.contains x = true →
        ((ofGrammar g).ofSeq u).1.contains x = true := by
  obtain ⟨i, p, before, after, hp, rfl, rfl⟩ := h
  have hmem : p ∈ g.productions := Array.mem_of_getElem? hp
  have hnull := nullable_lhs hg hmem
  refine ⟨?_, fun x => ?_⟩
  · simp only [ofSeq_append_snd, ofSeq_cons_snd, Bool.and_eq_true]
    rintro ⟨⟨hbefore, hrhs⟩, hafter⟩
    exact ⟨hbefore, hnull hrhs, hafter⟩
  · have hfirst := SymbolSet.contains_of_subset (subset_firstOf_lhs hg hmem) (s := x)
    simp only [contains_ofSeq_append, contains_ofSeq_cons, ofSeq_append_snd, Bool.or_eq_true,
      Bool.and_eq_true]
    rintro ((hbefore | ⟨hbefore, hrhs⟩) | ⟨⟨hbefore, hrhs⟩, hafter⟩)
    · exact .inl hbefore
    · exact .inr ⟨hbefore, .inl (hfirst hrhs)⟩
    · exact .inr ⟨hbefore, .inr ⟨hnull hrhs, hafter⟩⟩

theorem ofSeq_of_derives (hg : g.WellFormed) (h : g.Derives u v) :
    (((ofGrammar g).ofSeq v).2 = true → ((ofGrammar g).ofSeq u).2 = true) ∧
      ∀ x, ((ofGrammar g).ofSeq v).1.contains x = true →
        ((ofGrammar g).ofSeq u).1.contains x = true := by
  induction h using Relation.ReflTransGen.head_induction_on with
  | refl => exact ⟨id, fun _ => id⟩
  | head hstep _ ih =>
      obtain ⟨hnull, hfirst⟩ := ofSeq_of_rewrites hg hstep
      exact ⟨fun hv => hnull (ih.1 hv), fun x hx => hfirst x (ih.2 x hx)⟩

/-! ### Nothing else is in them -/

/-- Whatever the sets hold has a derivation. -/
structure Sound (g : Grammar) (f : FirstSets) : Prop where
  nullable : ∀ s, f.nullable.contains s = true → g.Derives [s] []
  first : ∀ s x, (f.firstOf s).contains x = true → g.Starts [s] x

theorem Sound.derives_nil {f : FirstSets} (h : f.Sound g) (hu : (f.ofSeq u).2 = true) :
    g.Derives u [] := by
  induction u with
  | nil => exact .refl
  | cons s rest ih =>
      rw [ofSeq_cons_snd, Bool.and_eq_true] at hu
      exact (h.nullable s hu.1).append (ih hu.2)

theorem Sound.starts {f : FirstSets} (h : f.Sound g) (hx : (f.ofSeq u).1.contains x = true) :
    g.Starts u x := by
  induction u with
  | nil => simp [ofSeq] at hx
  | cons s rest ih =>
      rw [contains_ofSeq_cons, Bool.or_eq_true, Bool.and_eq_true] at hx
      rcases hx with hs | ⟨hs, hrest⟩
      · exact (h.first s x hs).append_right rest
      · exact (ih hrest).of_derives ((h.nullable s hs).append_right rest)

theorem Sound.addProduction {f : FirstSets} (h : f.Sound g) {p : Production}
    (hp : p ∈ g.productions) : (f.addProduction p).Sound g := by
  obtain ⟨i, hi⟩ := Array.mem_iff_getElem?.1 hp
  have hrhs : g.Derives [p.lhs] p.rhs := Grammar.derives_rhs hi
  refine ⟨fun s hs => ?_, fun s x hx => ?_⟩
  · simp only [FirstSets.addProduction] at hs
    split at hs
    · rename_i hnull
      rw [SymbolSet.contains_insert, Bool.or_eq_true, decide_eq_true_iff] at hs
      rcases hs with hs | rfl
      · exact h.nullable s hs
      · exact hrhs.trans (h.derives_nil hnull)
    · exact h.nullable s hs
  · simp only [firstOf, FirstSets.addProduction] at hx
    by_cases heq : p.lhs.index = s.index
    · obtain rfl := Symbol.index_injective heq
      by_cases hsize : p.lhs.index < f.first.size
      · rw [getD_modify_self hsize, SymbolSet.contains_union, Bool.or_eq_true] at hx
        rcases hx with hx | hx
        · exact h.first _ x hx
        · exact (h.starts hx).of_derives hrhs
      · rw [getD_of_size_le (by rw [Array.size_modify]; omega), SymbolSet.contains_empty] at hx
        cases hx
    · rw [getD_modify_of_ne heq] at hx
      exact h.first s x hx

theorem Sound.addAll {f : FirstSets} (h : f.Sound g) : (addAll g f).Sound g := by
  rw [addAll_eq_foldl]
  refine foldl_induction (fun _ (f : FirstSets) => f.Sound g) h ?_
  intro done p rest f heq hf
  refine hf.addProduction ?_
  rw [← Array.mem_toList_iff, heq]
  simp

theorem Sound.close {f : FirstSets} (h : f.Sound g) (fuel : Nat) : (close g fuel f).Sound g := by
  induction fuel generalizing f with
  | zero => exact h
  | succ fuel ih =>
      rw [FirstSets.close]
      split
      · exact h
      · exact ih h.addAll

theorem sound_initial (g : Grammar) : (initial g).Sound g := by
  refine ⟨fun s hs => ?_, fun s x hx => ?_⟩
  · rw [initial, SymbolSet.contains_empty] at hs
    cases hs
  · by_cases hsize : s.index < g.symbols.size
    · simp only [firstOf, initial, Array.getD_eq_getD_getElem?, Array.getElem?_map,
        Array.getElem?_range, hsize, if_true, Option.map_some, Option.getD_some] at hx
      split at hx
      · rename_i hterminal
        rw [SymbolSet.contains_singleton, decide_eq_true_iff, Symbol.ofIndex_index] at hx
        subst hx
        exact Grammar.starts_terminal (decide_eq_true hterminal)
      · rw [SymbolSet.contains_empty] at hx
        cases hx
    · rw [firstOf, getD_of_size_le (by simp [initial]; omega), SymbolSet.contains_empty] at hx
      cases hx

theorem sound_ofGrammar (g : Grammar) : (ofGrammar g).Sound g := (sound_initial g).close _

/-! ### What symbols derive -/

theorem ofSeq_snd_iff (hg : g.WellFormed) :
    ((ofGrammar g).ofSeq u).2 = true ↔ g.Derives u [] :=
  ⟨(sound_ofGrammar g).derives_nil, fun h => (ofSeq_of_derives hg h).1 rfl⟩

theorem contains_ofSeq_iff (hg : g.WellFormed) :
    ((ofGrammar g).ofSeq u).1.contains x = true ↔ g.Starts u x := by
  refine ⟨(sound_ofGrammar g).starts, ?_⟩
  rintro ⟨hx, w, hw⟩
  refine (ofSeq_of_derives hg hw).2 x ?_
  rw [contains_ofSeq_cons, contains_firstOf_terminal hg hx, Bool.true_or]

/-- No production has a terminal on its left. -/
theorem contains_firstOf_terminal_iff (hg : g.WellFormed) (hs : g.isTerminal s = true) :
    ((ofGrammar g).firstOf s).contains x = true ↔ x = s := by
  constructor
  · intro hx
    obtain ⟨-, w, hw⟩ := (sound_ofGrammar g).first s x hx
    have hself := hw.eq_of_isTerminal hg hs
    rw [List.cons.injEq] at hself
    exact hself.1
  · rintro rfl
    exact contains_firstOf_terminal hg hs

end FirstSets

end IncrementalLR
