import IncrementalLR.Proofs.Automaton.Lalr
import IncrementalLR.Proofs.Automaton.Worklist

/-!
# Lookaheads by probes

What follows the kernel items can be found out kernel item by kernel item. A probe takes the closure of
one of them without knowing what follows it. It finds what follows the items of the closure of itself,
and which of them whatever follows the kernel item follows too. The former is added once to the kernel
items that the items become behind their symbols, and the latter is passed on in rounds until nothing
changes. The rounds come to an end, with the lookaheads that the tables of corners give, and these are
those of the canonical items.
-/

namespace IncrementalLR

open Std
open ClosureTables (followAfter)
open KernelFollows (states final)

variable {g : Grammar}

/-! ### What follows is handed through -/

namespace Follow

variable {a b c d : Follow}

instance : SemilatticeSup Follow where
  le := Le
  le_refl := Le.refl
  le_trans _ _ _ := Le.trans
  le_antisymm a b h h' := by
    obtain ⟨set, inherits⟩ := a
    obtain ⟨set', inherits'⟩ := b
    obtain rfl : set = set' := SymbolSet.subset_antisymm h.set h'.set
    obtain rfl : inherits = inherits' := Bool.eq_iff_iff.2 ⟨h.inherits, h'.inherits⟩
    rfl
  sup := merge
  le_sup_left := le_merge_left
  le_sup_right := le_merge_right
  sup_le _ _ _ h h' := ⟨SymbolSet.union_subset h.set h'.set, fun hor =>
    (Bool.or_eq_true _ _ ▸ hor).elim h.inherits h'.inherits⟩

theorem resolve_mono {f f' : Follow} {set set' : SymbolSet} (hf : f ≤ f') (hset : set ⊆ set') :
    f.resolve set ⊆ f'.resolve set' := by
  have hown : f.set ⊆ f'.resolve set' := SymbolSet.subset_trans hf.set (set_subset_resolve _ _)
  rw [resolve]
  split
  · rename_i hinherits
    exact SymbolSet.union_subset hown
      (SymbolSet.subset_trans hset (subset_resolve (hf.inherits hinherits) _))
  · exact hown

theorem through_mono (hab : a ≤ b) (hcd : c ≤ d) : a.through c ≤ b.through d := by
  refine ⟨resolve_mono hab hcd.set, fun h => ?_⟩
  simp only [through, Bool.and_eq_true] at h ⊢
  exact ⟨hab.inherits h.1, hcd.inherits h.2⟩

theorem through_assoc (a b c : Follow) : (a.through b).through c = a.through (b.through c) := by
  obtain ⟨set, inherits⟩ := a
  obtain ⟨set', inherits'⟩ := b
  cases inherits <;> cases inherits' <;> simp [through, resolve, SymbolSet.union_assoc]

theorem self_through (f : Follow) : (⟨SymbolSet.empty, true⟩ : Follow).through f = f := by
  simp [through, resolve, SymbolSet.empty_union]

theorem through_self (f : Follow) : f.through ⟨SymbolSet.empty, true⟩ = f := by
  obtain ⟨set, inherits⟩ := f
  cases inherits <;> simp [through, resolve, SymbolSet.union_empty]

theorem sup_through (a b f : Follow) : (a ⊔ b).through f ≤ a.through f ⊔ b.through f := by
  change ((a.merge b).through f).Le ((a.through f).merge (b.through f))
  obtain ⟨set, inherits⟩ := a
  obtain ⟨set', inherits'⟩ := b
  refine ⟨fun i hi => ?_, fun h => ?_⟩
  · simp only [merge, through, resolve, SymbolSet.union] at hi ⊢
    cases inherits <;> cases inherits' <;> simp at hi ⊢ <;> tauto
  · simp only [merge, through, Bool.and_eq_true, Bool.or_eq_true] at h ⊢
    tauto

theorem resolve_through (a b : Follow) (set : SymbolSet) :
    (a.through b).resolve set = a.resolve (b.resolve set) := by
  obtain ⟨own, inherits⟩ := a
  obtain ⟨own', inherits'⟩ := b
  cases inherits <;> cases inherits' <;> simp [through, resolve, SymbolSet.union_assoc]

theorem empty_le (f : Follow) : ({} : Follow) ≤ f := ⟨SymbolSet.empty_subset _, nofun⟩

end Follow

/-! ### Probes -/

/-- What follows the nonterminal behind the dot of an item. -/
abbrev behind (g : Grammar) (item : Item) : Follow := followAfter g (FirstSets.ofGrammar g) item

/-- The closure of a kernel item of which nothing is known but that it follows itself. -/
def probe (g : Grammar) (item : Item) : Worklist Follow :=
  Worklist.search g (fun item f => (behind g item).through f)
    ((g.productions.size + 1) * (g.terminalCount + 2)) [(item, ⟨SymbolSet.empty, true⟩)]

theorem bounded_probe (hg : g.WellFormed) (item : Item) :
    Worklist.Bounded g (fun item f => (behind g item).through f)
      (insert item ((Finset.range g.productions.size).image fun p => ⟨p, 0⟩))
      (fun f => f.set.Below g.terminalCount) (Follow.rank g.terminalCount) (g.terminalCount + 2) where
  mem p hp := Finset.mem_insert_of_mem (Finset.mem_image_of_mem _ (Finset.mem_range.2 hp))
  sup _ _ ha hb := ha.union hb
  derive item _ hf := Follow.below_resolve (ClosureTables.below_followAfter hg item) hf
  none_lt _ := by
    rw [Follow.rank, Follow.rank]
    omega
  lt _ _ hb h := Follow.rank_lt_rank h.le h.ne hb
  le := Follow.rank_le g.terminalCount

/-- The list of a probe gets empty, and then every item has handed on what follows it. -/
theorem probe_spec (hg : g.WellFormed) (item : Item) :
    (probe g item).todo = [] ∧ (probe g item).Knows (item, ⟨SymbolSet.empty, true⟩) ∧
      ∀ other, Worklist.Settled g (fun item f => (behind g item).through f) (probe g item) other := by
  have hcard : (insert item ((Finset.range g.productions.size).image fun p => (⟨p, 0⟩ : Item))).card
      ≤ g.productions.size + 1 := by
    refine (Finset.card_insert_le _ _).trans (Nat.add_le_add_right ?_ 1)
    exact Finset.card_image_le.trans (Finset.card_range _).le
  have hkernel : ∀ entry ∈ [(item, (⟨SymbolSet.empty, true⟩ : Follow))],
      entry.1 ∈ insert item ((Finset.range g.productions.size).image fun p => (⟨p, 0⟩ : Item)) ∧
        entry.2.set.Below g.terminalCount := by
    simp [SymbolSet.below_empty]
  obtain ⟨htodo, hknows, hsettled⟩ := Worklist.search_spec hg (bounded_probe hg item) hkernel
    (Nat.mul_le_mul_right _ hcard)
  exact ⟨htodo, hknows _ (List.mem_singleton_self _), hsettled⟩

theorem below_probe (hg : g.WellFormed) {item other : Item} {f : Follow}
    (h : (probe g item).found[other]? = some f) : f.set.Below g.terminalCount := by
  refine Worklist.holds_search (P := fun _ (f : Follow) => f.set.Below g.terminalCount)
    (fun _ _ _ ha hb => ha.union hb) ?_ (by simp [SymbolSet.below_empty]) _ other f h
  intro item f hf entry hentry
  obtain ⟨i, p, -, -, rfl⟩ := (Worklist.mem_derived hg).1 hentry
  exact Follow.below_resolve (ClosureTables.below_followAfter hg item) hf

/-- A production of the nonterminal behind the dot of what is found gets what follows that. -/
theorem knows_probe_of_found (hg : g.WellFormed) {item other : Item} {f : Follow}
    (hfound : (probe g item).found[other]? = some f) {i : Nat} {p : Production}
    (hp : g.productions[i]? = some p) (hnext : g.nextNonterminal? other = some p.lhs) :
    (probe g item).Knows (⟨i, 0⟩, (behind g other).through f) :=
  (probe_spec hg item).2.2 other f hfound _ ((Worklist.mem_derived hg).2 ⟨i, p, hp, hnext, rfl⟩)

theorem knows_probe_of_next (hg : g.WellFormed) {item : Item} {i : Nat} {p : Production}
    (hp : g.productions[i]? = some p) (hnext : g.nextNonterminal? item = some p.lhs) :
    (probe g item).Knows (⟨i, 0⟩, behind g item) := by
  obtain ⟨-, ⟨own, hown, hle⟩, -⟩ := probe_spec hg item
  refine (knows_probe_of_found hg hown hp hnext).lower ?_
  calc behind g item
      = (behind g item).through ⟨SymbolSet.empty, true⟩ := (Follow.through_self _).symm
    _ ≤ (behind g item).through own := Follow.through_mono le_rfl hle

/-- The productions of a corner of the nonterminal behind the dot are found. -/
theorem knows_probe_of_mem_corners (hg : g.WellFormed) {item : Item} {s t : Symbol} {f : Follow}
    (hnext : g.nextNonterminal? item = some s) (hcorner : (t, f) ∈ (ClosureTables.ofGrammar g).corners s)
    {i : Nat} {p : Production} (hp : g.productions[i]? = some p) (hlhs : p.lhs = t) :
    (probe g item).Knows (⟨i, 0⟩, f.through (behind g item)) := by
  have husable := hg.nextSymbol?_usable (Grammar.nextNonterminal?_eq_some.1 hnext).1
  refine ClosureTables.of_mem_corners hg
    (P := fun t f => t.index < g.symbols.size ∧ ∀ i p, g.productions[i]? = some p → p.lhs = t →
      (probe g item).Knows (⟨i, 0⟩, f.through (behind g item)))
    ?_ ?_ ?_ husable ?_ hcorner |>.2 i p hp hlhs
  · rintro t f ⟨ht, h⟩
    exact ⟨ht, fun i p hp hlhs => (h i p hp hlhs).lower (Follow.empty_le _)⟩
  · rintro t a b ⟨ht, ha⟩ ⟨-, hb⟩
    refine ⟨ht, fun i p hp hlhs => ?_⟩
    obtain ⟨f, hf, hle⟩ := ha i p hp hlhs
    obtain ⟨f', hf', hle'⟩ := hb i p hp hlhs
    obtain rfl : f = f' := Option.some.inj (hf.symm.trans hf')
    exact ⟨f, hf, (Follow.sup_through a b _).trans (sup_le hle hle')⟩
  · rintro t f ⟨ht, h⟩ ⟨head, follow⟩ hentry
    obtain ⟨j, r, hr, hlhs, hhead, rfl⟩ := (ClosureTables.mem_heads ht).1 hentry
    refine ⟨(hg.nextSymbol?_usable (Grammar.nextNonterminal?_eq_some.1 hhead).1).2.2, ?_⟩
    intro i p hp hlhs'
    obtain ⟨f', hf', hle⟩ := h j r hr hlhs
    refine (knows_probe_of_found hg hf' hp (by rw [hlhs', hhead])).lower ?_
    rw [Follow.through_assoc]
    exact Follow.through_mono le_rfl hle
  · refine ⟨husable.2.2, fun i p hp hlhs => ?_⟩
    rw [Follow.self_through]
    exact knows_probe_of_next hg hp (by rw [hlhs, hnext])

/-- A production of a corner of the nonterminal behind the dot of an item, with what follows it. -/
def Corner (g : Grammar) (item other : Item) (f : Follow) : Prop :=
  ∃ s corner, g.nextNonterminal? item = some s ∧ other.dot = 0 ∧ other.prod < g.productions.size ∧
    (g.itemLhs other, corner) ∈ (ClosureTables.ofGrammar g).corners s ∧
      f ≤ corner.through (behind g item)

namespace Corner

variable {item other : Item} {f f' : Follow} {i : Nat} {p : Production}

theorem ne (hg : g.WellFormed) (h : Corner g item other f)
    (hitem : item.dot = 0 → g.itemLhs item = g.augmented) : other ≠ item := by
  rintro rfl
  obtain ⟨s, corner, hnext, hdot, -, hcorner, -⟩ := h
  have hs := hg.nextSymbol?_usable (Grammar.nextNonterminal?_eq_some.1 hnext).1
  have hget := (ClosureTables.mem_corners hg hs).1 hcorner
  exact (ClosureTables.cornerFollows_spec hg hs).1.ne_augmented _ _ hget (hitem hdot)

theorem sup (hg : g.WellFormed) (h : Corner g item other f) (h' : Corner g item other f') :
    Corner g item other (f ⊔ f') := by
  obtain ⟨s, corner, hnext, hdot, hprod, hcorner, hle⟩ := h
  obtain ⟨s', corner', hnext', -, -, hcorner', hle'⟩ := h'
  obtain rfl : s = s' := Option.some.inj (hnext.symm.trans hnext')
  have hs := hg.nextSymbol?_usable (Grammar.nextNonterminal?_eq_some.1 hnext).1
  obtain rfl : corner = corner' := Option.some.inj
    (((ClosureTables.mem_corners hg hs).1 hcorner).symm.trans
      ((ClosureTables.mem_corners hg hs).1 hcorner'))
  exact ⟨s, corner, hnext, hdot, hprod, hcorner, sup_le hle hle'⟩

theorem of_next (hg : g.WellFormed) (hp : g.productions[i]? = some p)
    (hnext : g.nextNonterminal? item = some p.lhs) : Corner g item ⟨i, 0⟩ (behind g item) := by
  have husable := hg.nextSymbol?_usable (Grammar.nextNonterminal?_eq_some.1 hnext).1
  obtain ⟨corner, hcorner, hinherits⟩ := ClosureTables.exists_mem_corners_self hg husable
  refine ⟨p.lhs, corner, hnext, rfl, (Array.getElem?_eq_some_iff.1 hp).1,
    by rwa [Grammar.itemLhs_eq hp], ?_⟩
  calc behind g item
      = Follow.through ⟨SymbolSet.empty, true⟩ (behind g item) := (Follow.self_through _).symm
    _ ≤ corner.through (behind g item) :=
        Follow.through_mono ⟨SymbolSet.empty_subset _, fun _ => hinherits⟩ le_rfl

/-- A corner of a corner is a corner. -/
theorem next (hg : g.WellFormed) (h : Corner g item other f) (hp : g.productions[i]? = some p)
    (hnext : g.nextNonterminal? other = some p.lhs) :
    Corner g item ⟨i, 0⟩ ((behind g other).through f) := by
  obtain ⟨s, corner, hs, hdot, hother, hcorner, hle⟩ := h
  obtain ⟨j, d⟩ := other
  obtain rfl : d = 0 := hdot
  have hr : g.productions[j]? = some g.productions[j] := Array.getElem?_eq_getElem hother
  rw [Grammar.itemLhs_eq hr] at hcorner
  have husable := hg.nextSymbol?_usable (Grammar.nextNonterminal?_eq_some.1 hs).1
  obtain ⟨corner', hcorner', hle'⟩ := ClosureTables.exists_mem_corners_of_mem hg husable hcorner hr
    rfl hnext
  refine ⟨s, corner', hs, rfl, (Array.getElem?_eq_some_iff.1 hp).1, by rwa [Grammar.itemLhs_eq hp], ?_⟩
  calc (behind g ⟨j, 0⟩).through f
      ≤ (behind g ⟨j, 0⟩).through (corner.through (behind g item)) := Follow.through_mono le_rfl hle
    _ = ((behind g ⟨j, 0⟩).through corner).through (behind g item) := (Follow.through_assoc _ _ _).symm
    _ ≤ corner'.through (behind g item) := Follow.through_mono hle' le_rfl

theorem lower (h : Corner g item other f) (hle : f' ≤ f) : Corner g item other f' := by
  obtain ⟨s, corner, hnext, hdot, hprod, hcorner, hle'⟩ := h
  exact ⟨s, corner, hnext, hdot, hprod, hcorner, hle.trans hle'⟩

end Corner

/-- Nothing else is found but the item itself. -/
theorem corner_of_probe (hg : g.WellFormed) {item other : Item} {f : Follow}
    (hitem : item.dot = 0 → g.itemLhs item = g.augmented)
    (h : (probe g item).found[other]? = some f) :
    (other = item ∧ f ≤ ⟨SymbolSet.empty, true⟩) ∨ Corner g item other f := by
  refine Worklist.holds_search
    (P := fun other f => (other = item ∧ f ≤ ⟨SymbolSet.empty, true⟩) ∨ Corner g item other f)
    ?_ ?_ (by simp) _ other f h
  · rintro other a b (⟨rfl, ha⟩ | ha) (⟨heq, hb⟩ | hb)
    · exact .inl ⟨rfl, sup_le ha hb⟩
    · exact absurd rfl (hb.ne hg hitem)
    · exact absurd heq (ha.ne hg hitem)
    · exact .inr (ha.sup hg hb)
  · intro other f hf entry hentry
    obtain ⟨i, p, hp, hnext, rfl⟩ := (Worklist.mem_derived hg).1 hentry
    refine .inr ?_
    rcases hf with ⟨rfl, hle⟩ | hcorner
    · refine (Corner.of_next hg hp hnext).lower ?_
      calc (behind g other).through f
          ≤ (behind g other).through ⟨SymbolSet.empty, true⟩ := Follow.through_mono le_rfl hle
        _ = behind g other := Follow.through_self _
    · exact hcorner.next hg hp hnext

/-! ### Passing on -/

/-- For each state a map from its kernel items to what follows them. -/
abbrev Lookaheads := Array (TreeMap Item SymbolSet)

namespace Lookaheads

def lookup (known : Lookaheads) (place : Nat × Item) : SymbolSet :=
  ((known.getD place.1 ∅)[place.2]?).getD SymbolSet.empty

/-- Adds to what follows a kernel item. -/
def extend (known : Lookaheads) (place : Nat × Item) (set : SymbolSet) : Lookaheads :=
  known.modify place.1 fun row => row.modify place.2 fun old => old.union set

/-- Nothing follows the kernel items yet. -/
def empty (g : Grammar) : Lookaheads :=
  (states g).kernels.map fun kernel => TreeMap.ofList (kernel.map fun item => (item, SymbolSet.empty))

/-- The kernel items with their states, in order. -/
def places (g : Grammar) : List (Nat × Item) :=
  (List.range (states g).kernels.size).flatMap fun q => ((states g).kernel q).map fun item => (q, item)

/-- Where the items of the closure of a kernel item become kernel items, with what follows them. -/
def passes (g : Grammar) (place : Nat × Item) : List ((Nat × Item) × Follow) :=
  (probe g place.2).found.toList.filterMap fun (item, f) =>
    (g.nextSymbol? item).bind fun s => ((states g).step? place.1 s).map fun target =>
      ((target, item.advance), f)

/-- What follows kernel items whatever follows others. -/
def spontaneous (g : Grammar) : Lookaheads :=
  ((places g).flatMap (passes g)).foldl (fun known (target, f) => extend known target f.set)
    (extend (empty g) (0, ⟨0, 0⟩) (SymbolSet.singleton Symbol.eof))

/-- For each kernel item those that what follows it follows too. -/
def edges (g : Grammar) : List ((Nat × Item) × List (Nat × Item)) :=
  (places g).map fun place => (place, ((passes g place).filter (·.2.inherits)).map (·.1))

/-- Passes a set on to one place; says whether something has changed so far. -/
def push (source : SymbolSet) (s : Lookaheads × Bool) (target : Nat × Item) : Lookaheads × Bool :=
  let next := extend s.1 target source
  (next, s.2 || decide (lookup next target ≠ lookup s.1 target))

def passOn (s : Lookaheads × Bool) (edge : (Nat × Item) × List (Nat × Item)) : Lookaheads × Bool :=
  edge.2.foldl (push (lookup s.1 edge.1)) s

def round (g : Grammar) (known : Lookaheads) : Lookaheads × Bool :=
  (edges g).foldl passOn (known, false)

/-- What is known after some rounds, and whether the last one has changed something. -/
def rounds (g : Grammar) : Nat → Lookaheads × Bool
  | 0 => (spontaneous g, true)
  | n + 1 => round g (rounds g n).1

/-! ### Adding to what follows one item -/

variable {known known' known'' : Lookaheads} {place target : Nat × Item} {set : SymbolSet} {x : Symbol}

/-- The maps are about the kernel items, and only terminals follow these. -/
structure LookaheadsOf (g : Grammar) (known : Lookaheads) : Prop where
  isSome : ∀ q item, ((known.getD q ∅)[item]?).isSome = true ↔ item ∈ (states g).kernel q
  below : ∀ place, (lookup known place).Below g.terminalCount

theorem getElem?_extend (known : Lookaheads) (target : Nat × Item) (set : SymbolSet) (q : Nat)
    (item : Item) : ((extend known target set).getD q ∅)[item]? =
      if target = (q, item) then ((known.getD q ∅)[item]?).map fun old => old.union set
      else (known.getD q ∅)[item]? := by
  obtain ⟨q', other⟩ := target
  unfold extend
  by_cases hq : q' = q
  · subst hq
    by_cases hsize : q' < known.size
    · rw [getD_modify_self hsize, TreeMap.getElem?_modify]
      by_cases hitem : other = item
      · subst hitem
        rw [if_pos compare_self, if_pos rfl]
      · rw [if_neg fun heq => hitem (LawfulEqCmp.eq_of_compare heq), if_neg fun heq =>
          hitem (Prod.mk.inj heq).2]
    · rw [getD_of_size_le (by rw [Array.size_modify]; omega), getD_of_size_le (by omega),
        TreeMap.getElem?_emptyc, Option.map_none, ite_self]
  · rw [getD_modify_of_ne hq, if_neg fun heq => hq (Prod.mk.inj heq).1]

theorem lookup_extend (hknown : LookaheadsOf g known) (place target : Nat × Item) (set : SymbolSet) :
    lookup (extend known target set) place =
      if place = target ∧ target.2 ∈ (states g).kernel target.1 then (lookup known place).union set
      else lookup known place := by
  obtain ⟨q, item⟩ := place
  rw [lookup, getElem?_extend, lookup]
  by_cases htarget : target = (q, item)
  · subst htarget
    simp only [← hknown.isSome]
    cases (known.getD q ∅)[item]? <;> simp
  · have hne : (q, item) ≠ target := Ne.symm htarget
    simp [htarget, hne]

theorem LookaheadsOf.extend (hknown : LookaheadsOf g known) (target : Nat × Item)
    (hset : set.Below g.terminalCount) : LookaheadsOf g (extend known target set) := by
  refine ⟨fun q item => ?_, fun place => ?_⟩
  · rw [getElem?_extend, ← hknown.isSome]
    split <;> simp
  · rw [lookup_extend hknown]
    split
    · exact (hknown.below place).union hset
    · exact hknown.below place

theorem subset_lookup_extend (hknown : LookaheadsOf g known) (place target : Nat × Item)
    (set : SymbolSet) : lookup known place ⊆ lookup (extend known target set) place := by
  rw [lookup_extend hknown]
  split
  · exact SymbolSet.subset_union_left _ _
  · exact SymbolSet.subset_refl _

theorem subset_lookup_extend_self (hknown : LookaheadsOf g known)
    (htarget : target.2 ∈ (states g).kernel target.1) (set : SymbolSet) :
    set ⊆ lookup (extend known target set) target := by
  rw [lookup_extend hknown, if_pos ⟨rfl, htarget⟩]
  exact SymbolSet.subset_union_right _ _

/-- The predicate holds of all that is known. -/
def Holds (P : Nat → Item → Symbol → Prop) (known : Lookaheads) : Prop :=
  ∀ (place : Nat × Item) (x : Symbol), (lookup known place).contains x = true → P place.1 place.2 x

theorem Holds.extend {P : Nat → Item → Symbol → Prop} (hknown : LookaheadsOf g known)
    (h : Holds P known) (hset : target.2 ∈ (states g).kernel target.1 →
      ∀ x, set.contains x = true → P target.1 target.2 x) : Holds P (extend known target set) := by
  intro place x hx
  rw [lookup_extend hknown] at hx
  split at hx
  · rename_i hboth
    obtain ⟨rfl, htarget⟩ := hboth
    rw [SymbolSet.contains_union, Bool.or_eq_true] at hx
    exact hx.elim (h place x) (hset htarget x)
  · exact h place x hx

/-! ### Rounds -/

theorem mem_places {place : Nat × Item} : place ∈ places g ↔ place.2 ∈ (states g).kernel place.1 := by
  obtain ⟨q, item⟩ := place
  simp only [places, List.mem_flatMap, List.mem_range, List.mem_map, Prod.mk.injEq]
  constructor
  · rintro ⟨_, _, _, hitem, rfl, rfl⟩
    exact hitem
  · intro hitem
    refine ⟨q, ?_, item, hitem, rfl, rfl⟩
    by_contra hge
    rw [Lr0.kernel, getD_of_size_le (Nat.le_of_not_lt hge)] at hitem
    cases hitem

/-- How many terminals follow all kernel items. -/
def weight (g : Grammar) (known : Lookaheads) : Nat :=
  ∑ place ∈ (places g).toFinset, (lookup known place).count g.terminalCount

theorem weight_le (g : Grammar) (known : Lookaheads) :
    weight g known ≤ (places g).toFinset.card * g.terminalCount := by
  calc weight g known ≤ ∑ _place ∈ (places g).toFinset, g.terminalCount :=
        Finset.sum_le_sum fun _ _ => SymbolSet.count_le _ _
    _ = (places g).toFinset.card * g.terminalCount := by simp

theorem weight_mono (h : ∀ place, lookup known place ⊆ lookup known' place) :
    weight g known ≤ weight g known' :=
  Finset.sum_le_sum fun place _ => SymbolSet.count_mono (h place) _

/-- More is known, and that something has changed is known too. -/
structure Grown (g : Grammar) (s s' : Lookaheads × Bool) : Prop where
  lookaheadsOf : LookaheadsOf g s'.1
  subset : ∀ place, lookup s.1 place ⊆ lookup s'.1 place
  same : s'.2 = false → s.2 = false ∧ ∀ place, lookup s'.1 place = lookup s.1 place
  weight : s'.2 = true → s.2 = true ∨ weight g s.1 < weight g s'.1

variable {s s' s'' : Lookaheads × Bool}

theorem Grown.refl (h : LookaheadsOf g s.1) : Grown g s s :=
  ⟨h, fun _ => SymbolSet.subset_refl _, fun hs => ⟨hs, fun _ => rfl⟩, .inl⟩

theorem Grown.trans (h : Grown g s s') (h' : Grown g s' s'') : Grown g s s'' := by
  refine ⟨h'.lookaheadsOf, fun place => SymbolSet.subset_trans (h.subset place) (h'.subset place),
    fun hs => ?_, fun hs => ?_⟩
  · obtain ⟨hs', hsame'⟩ := h'.same hs
    obtain ⟨hs, hsame⟩ := h.same hs'
    exact ⟨hs, fun place => (hsame' place).trans (hsame place)⟩
  · have hle : Lookaheads.weight g s.1 ≤ Lookaheads.weight g s'.1 := weight_mono h.subset
    have hle' : Lookaheads.weight g s'.1 ≤ Lookaheads.weight g s''.1 := weight_mono h'.subset
    rcases h'.weight hs with hs' | hlt
    · exact (h.weight hs').imp_right fun hlt => hlt.trans_le hle'
    · exact .inr (hle.trans_lt hlt)

theorem grown_push {source : SymbolSet} (h : LookaheadsOf g s.1) (hsource : source.Below g.terminalCount)
    (target : Nat × Item) : Grown g s (push source s target) := by
  have hsubset := subset_lookup_extend h
  have hnext := h.extend target hsource
  refine ⟨hnext, fun place => hsubset place target source, fun hs => ?_, fun hs => ?_⟩
  · simp only [push, Bool.or_eq_false_iff, decide_eq_false_iff_not, not_not] at hs
    refine ⟨hs.1, fun place => ?_⟩
    by_cases hplace : place = target
    · subst hplace
      exact hs.2
    · change lookup (extend s.1 target source) place = _
      rw [lookup_extend h, if_neg fun hboth => hplace hboth.1]
  · simp only [push, Bool.or_eq_true, decide_eq_true_eq] at hs
    refine hs.imp_right fun hne => ?_
    have htarget : target ∈ places g := by
      by_contra hnot
      rw [lookup_extend h, if_neg fun hboth => hnot (mem_places.2 hboth.2)] at hne
      exact hne rfl
    exact Finset.sum_lt_sum (fun place _ => SymbolSet.count_mono (hsubset place target source) _)
      ⟨target, List.mem_toFinset.2 htarget,
        SymbolSet.count_lt_count (hsubset target target source) (Ne.symm hne) (hnext.below target)⟩

theorem foldl_push_spec {source : SymbolSet} (hsource : source.Below g.terminalCount)
    (targets : List (Nat × Item)) (h : LookaheadsOf g s.1) :
    Grown g s (targets.foldl (push source) s) ∧ ∀ target ∈ targets,
      target.2 ∈ (states g).kernel target.1 →
        source ⊆ lookup (targets.foldl (push source) s).1 target := by
  induction targets generalizing s with
  | nil => exact ⟨.refl h, nofun⟩
  | cons target targets ih =>
      have hpush := grown_push h hsource target
      obtain ⟨hrest, harrived⟩ := ih hpush.lookaheadsOf
      refine ⟨hpush.trans hrest, List.forall_mem_cons.2 ⟨fun htarget => ?_, harrived⟩⟩
      exact SymbolSet.subset_trans (subset_lookup_extend_self h htarget source) (hrest.subset target)

theorem foldl_passOn_spec (edges : List ((Nat × Item) × List (Nat × Item))) (h : LookaheadsOf g s.1) :
    Grown g s (edges.foldl passOn s) ∧ ∀ edge ∈ edges, ∀ target ∈ edge.2,
      target.2 ∈ (states g).kernel target.1 →
        lookup s.1 edge.1 ⊆ lookup (edges.foldl passOn s).1 target := by
  induction edges generalizing s with
  | nil => exact ⟨.refl h, nofun⟩
  | cons edge edges ih =>
      obtain ⟨hedge, harrived⟩ := foldl_push_spec (h.below edge.1) edge.2 h
      obtain ⟨hrest, hall⟩ := ih (s := passOn s edge) hedge.lookaheadsOf
      refine ⟨hedge.trans hrest, List.forall_mem_cons.2 ⟨fun target hmem htarget => ?_,
        fun other hother target hmem htarget => ?_⟩⟩
      · exact SymbolSet.subset_trans (harrived target hmem htarget) (hrest.subset target)
      · exact SymbolSet.subset_trans (hedge.subset other.1) (hall other hother target hmem htarget)

/-! ### Where probes lead -/

theorem mem_passes {place : Nat × Item} {pass : (Nat × Item) × Follow} :
    pass ∈ passes g place ↔ ∃ item s target, (probe g place.2).found[item]? = some pass.2 ∧
      g.nextSymbol? item = some s ∧ (states g).step? place.1 s = some target ∧
        pass.1 = (target, item.advance) := by
  obtain ⟨goal, f⟩ := pass
  simp only [passes, List.mem_filterMap, Prod.exists, TreeMap.mem_toList_iff_getElem?_eq_some,
    Option.bind_eq_some_iff, Option.map_eq_some_iff, Prod.mk.injEq]
  constructor
  · rintro ⟨item, _, hfound, s, hs, target, hstep, rfl, rfl⟩
    exact ⟨item, s, target, hfound, hs, hstep, rfl⟩
  · rintro ⟨item, s, target, hfound, hs, hstep, rfl⟩
    exact ⟨item, f, hfound, s, hs, target, hstep, rfl, rfl⟩

theorem mem_closure_of_probe (hg : g.WellFormed) {kernel : List Item} {item other : Item} {f : Follow}
    (hitem : item ∈ kernel) (h : (probe g item).found[other]? = some f) :
    other ∈ g.closure g.productionsByLhs kernel := by
  refine Worklist.holds_search (P := fun other _ => other ∈ g.closure g.productionsByLhs kernel)
    (fun _ _ _ ha _ => ha) ?_ (by simpa using g.subset_closure _ hitem) _ other f h
  intro other f hother entry hentry
  obtain ⟨i, p, hp, hnext, rfl⟩ := (Worklist.mem_derived hg).1 hentry
  exact g.mem_closure_of_nextNonterminal? hg hother hp hnext

/-- Probes lead to kernel items. -/
theorem mem_kernel_of_mem_passes (hg : g.WellFormed) {place : Nat × Item}
    (hplace : place.2 ∈ (states g).kernel place.1) {pass : (Nat × Item) × Follow}
    (h : pass ∈ passes g place) : pass.1.2 ∈ (states g).kernel pass.1.1 := by
  obtain ⟨item, s, target, hfound, hs, hstep, hpass⟩ := mem_passes.1 h
  rw [hpass, (Lr0.kernel_of_step? hg hstep).2, Lr0.mem_successor]
  exact ⟨item, mem_closure_of_probe hg hplace hfound, hs, rfl⟩

/-- The predicate holds of what the probes find, and goes where they pass it on. -/
structure PassedOn (g : Grammar) (P : Nat → Item → Symbol → Prop) : Prop where
  start : P 0 ⟨0, 0⟩ Symbol.eof
  spontaneous : ∀ place ∈ places g, ∀ pass ∈ passes g place, ∀ x, pass.2.set.contains x = true →
    P pass.1.1 pass.1.2 x
  inherited : ∀ place ∈ places g, ∀ pass ∈ passes g place, pass.2.inherits = true → ∀ x,
    P place.1 place.2 x → P pass.1.1 pass.1.2 x

/-! ### The rounds end -/

theorem getElem?_empty (hg : g.WellFormed) (q : Nat) (item : Item) : ((empty g).getD q ∅)[item]? =
    if item ∈ (states g).kernel q then some SymbolSet.empty else none := by
  have hrow : (empty g).getD q ∅
      = TreeMap.ofList (((states g).kernel q).map fun item => (item, SymbolSet.empty)) :=
    getD_map (fun kernel : List Item =>
      (TreeMap.ofList (kernel.map fun item => (item, SymbolSet.empty)) : TreeMap Item SymbolSet)) []
  rw [hrow]
  split
  · rename_i hitem
    refine TreeMap.getElem?_ofList_of_mem compare_self ?_ (List.mem_map_of_mem hitem)
    refine List.pairwise_map.2 ((Lr0.kernelOf_kernel hg q).ascending.imp fun hbefore heq => ?_)
    obtain rfl := LawfulEqCmp.eq_of_compare heq
    exact Item.not_before_self _ hbefore
  · rename_i hitem
    refine TreeMap.getElem?_ofList_of_contains_eq_false ?_
    simpa using hitem

theorem lookup_empty (hg : g.WellFormed) (place : Nat × Item) :
    lookup (empty g) place = SymbolSet.empty := by
  rw [lookup, getElem?_empty hg]
  split <;> rfl

theorem lookaheadsOf_empty (hg : g.WellFormed) : LookaheadsOf g (empty g) := by
  refine ⟨fun q item => ?_, fun place => ?_⟩
  · rw [getElem?_empty hg]
    split <;> simp_all
  · rw [lookup_empty hg]
    exact SymbolSet.below_empty

/-- The end of input behind the start production. -/
theorem lookaheadsOf_start (hg : g.WellFormed) :
    LookaheadsOf g (extend (empty g) (0, ⟨0, 0⟩) (SymbolSet.singleton Symbol.eof)) :=
  (lookaheadsOf_empty hg).extend _ (SymbolSet.below_singleton hg.terminals)

theorem foldl_extend_spec {entries : List ((Nat × Item) × Follow)}
    (hentries : ∀ entry ∈ entries, entry.2.set.Below g.terminalCount) (h : LookaheadsOf g known) :
    LookaheadsOf g (entries.foldl (fun known entry => extend known entry.1 entry.2.set) known) ∧
      (∀ place, lookup known place
        ⊆ lookup (entries.foldl (fun known entry => extend known entry.1 entry.2.set) known) place) ∧
      ∀ entry ∈ entries, entry.1.2 ∈ (states g).kernel entry.1.1 → entry.2.set
        ⊆ lookup (entries.foldl (fun known entry => extend known entry.1 entry.2.set) known) entry.1 := by
  induction entries generalizing known with
  | nil => exact ⟨h, fun _ => SymbolSet.subset_refl _, nofun⟩
  | cons entry entries ih =>
      obtain ⟨hentry, hentries⟩ := List.forall_mem_cons.1 hentries
      obtain ⟨hlast, hsubset, harrived⟩ := ih hentries (h.extend entry.1 hentry)
      refine ⟨hlast, fun place => ?_, List.forall_mem_cons.2 ⟨fun htarget => ?_, harrived⟩⟩
      · exact SymbolSet.subset_trans (subset_lookup_extend h place _ _) (hsubset place)
      · exact SymbolSet.subset_trans (subset_lookup_extend_self h htarget _) (hsubset entry.1)

theorem below_of_mem_passes (hg : g.WellFormed) {place : Nat × Item} {pass : (Nat × Item) × Follow}
    (h : pass ∈ passes g place) : pass.2.set.Below g.terminalCount := by
  obtain ⟨item, s, target, hfound, -⟩ := mem_passes.1 h
  exact below_probe hg hfound

theorem mem_flatMap_passes {pass : (Nat × Item) × Follow} :
    pass ∈ (places g).flatMap (passes g) ↔
      ∃ place, place.2 ∈ (states g).kernel place.1 ∧ pass ∈ passes g place := by
  simp only [List.mem_flatMap, mem_places]

theorem spontaneous_spec (hg : g.WellFormed) : LookaheadsOf g (spontaneous g) ∧
    (lookup (spontaneous g) (0, ⟨0, 0⟩)).contains Symbol.eof = true ∧
      ∀ place ∈ places g, ∀ pass ∈ passes g place, pass.2.set ⊆ lookup (spontaneous g) pass.1 := by
  have hstart : (⟨0, 0⟩ : Item) ∈ (states g).kernel 0 := by
    rw [Lr0.kernel_zero hg]
    exact List.mem_singleton_self _
  obtain ⟨hlast, hsubset, harrived⟩ := foldl_extend_spec (g := g)
    (fun entry hentry => by
      obtain ⟨place, -, hmem⟩ := mem_flatMap_passes.1 hentry
      exact below_of_mem_passes hg hmem) (lookaheadsOf_start hg)
  refine ⟨hlast, SymbolSet.contains_of_subset (hsubset _) ?_, fun place hplace pass hpass => ?_⟩
  · refine SymbolSet.contains_of_subset
      (subset_lookup_extend_self (lookaheadsOf_empty hg) hstart _) ?_
    simp
  · have hkernel := mem_places.1 hplace
    exact harrived pass (mem_flatMap_passes.2 ⟨place, hkernel, hpass⟩)
      (mem_kernel_of_mem_passes hg hkernel hpass)

/-- One round more. -/
theorem round_spec (h : LookaheadsOf g known) : Grown g (known, false) (round g known) ∧
    ∀ edge ∈ edges g, ∀ target ∈ edge.2, target.2 ∈ (states g).kernel target.1 →
      lookup known edge.1 ⊆ lookup (round g known).1 target :=
  foldl_passOn_spec (s := (known, false)) (edges g) h

theorem lookaheadsOf_rounds (hg : g.WellFormed) (n : Nat) : LookaheadsOf g (rounds g n).1 := by
  induction n with
  | zero => exact (spontaneous_spec hg).1
  | succ n ih => exact (round_spec ih).1.lookaheadsOf

theorem subset_lookup_rounds (hg : g.WellFormed) (n : Nat) (place : Nat × Item) :
    lookup (spontaneous g) place ⊆ lookup (rounds g n).1 place := by
  induction n with
  | zero => exact SymbolSet.subset_refl _
  | succ n ih =>
      have hgrown := (round_spec (lookaheadsOf_rounds hg n)).1
      exact SymbolSet.subset_trans ih (hgrown.subset place)

/-- There are only so many terminals, so a round comes that changes nothing. -/
theorem exists_rounds_end (hg : g.WellFormed) :
    ∃ n, (∀ i < n, (rounds g i).2 = true) ∧ (rounds g n).2 = false := by
  have hsome : ∃ n, (rounds g n).2 = false := by
    by_contra hnone
    have hall : ∀ n, (rounds g n).2 = true := fun n => by simpa using not_exists.1 hnone n
    have hweight : ∀ n, n ≤ weight g (rounds g n).1 := by
      intro n
      induction n with
      | zero => exact Nat.zero_le _
      | succ n ih =>
          have hlt : weight g (rounds g n).1 < weight g (rounds g (n + 1)).1 :=
            ((round_spec (lookaheadsOf_rounds hg n)).1.weight (hall (n + 1))).resolve_left
              Bool.false_ne_true
          omega
    have hle := weight_le g (rounds g ((places g).toFinset.card * g.terminalCount + 1)).1
    have hlt := hweight ((places g).toFinset.card * g.terminalCount + 1)
    omega
  refine ⟨Nat.find hsome, fun i hi => ?_, Nat.find_spec hsome⟩
  simpa using Nat.find_min hsome hi

/-- After the last round everything has been passed on. -/
theorem passedOn_rounds (hg : g.WellFormed) {n : Nat} (hend : (rounds g n).2 = false) :
    PassedOn g fun q item x => (lookup (rounds g n).1 (q, item)).contains x = true := by
  obtain ⟨-, hstart, hspontaneous⟩ := spontaneous_spec hg
  refine ⟨SymbolSet.contains_of_subset (subset_lookup_rounds hg n _) hstart, ?_, ?_⟩
  · intro place hplace pass hpass x hx
    refine SymbolSet.contains_of_subset (subset_lookup_rounds hg n _) ?_
    exact SymbolSet.contains_of_subset (hspontaneous place hplace pass hpass) hx
  · intro place hplace pass hpass hinherits x hx
    cases n with
    | zero => cases hend
    | succ n =>
        obtain ⟨hgrown, harrived⟩ := round_spec (lookaheadsOf_rounds hg n)
        have hsame := (hgrown.same hend).2
        have hedge : (place, ((passes g place).filter (·.2.inherits)).map (·.1)) ∈ edges g :=
          List.mem_map_of_mem hplace
        have htarget : pass.1 ∈ ((passes g place).filter (·.2.inherits)).map (·.1) :=
          List.mem_map_of_mem (List.mem_filter.2 ⟨hpass, hinherits⟩)
        have hx : (lookup (rounds g n).1 place).contains x = true := hsame place ▸ hx
        exact SymbolSet.contains_of_subset (harrived _ hedge pass.1 htarget
          (mem_kernel_of_mem_passes hg (mem_places.1 hplace) hpass)) hx

section Holds

variable {P : Nat → Item → Symbol → Prop}

theorem holds_spontaneous (hg : g.WellFormed) (hP : PassedOn g P) : Holds P (spontaneous g) := by
  have hstart : Holds P (extend (empty g) (0, ⟨0, 0⟩) (SymbolSet.singleton Symbol.eof)) := by
    refine Holds.extend (lookaheadsOf_empty hg) (fun place x hx => ?_) fun _ x hx => ?_
    · rw [lookup_empty hg, SymbolSet.contains_empty] at hx
      cases hx
    · obtain rfl : x = Symbol.eof := by simpa using hx
      exact hP.start
  refine (foldl_induction (fun _ known => LookaheadsOf g known ∧ Holds P known)
    ⟨lookaheadsOf_start hg, hstart⟩ ?_).2
  rintro done pass rest known heq ⟨hknown, hholds⟩
  have hmem : pass ∈ (places g).flatMap (passes g) := heq ▸ by simp
  obtain ⟨place, hplace, hpass⟩ := mem_flatMap_passes.1 hmem
  exact ⟨hknown.extend _ (below_of_mem_passes hg hpass), hholds.extend hknown fun _ =>
    hP.spontaneous place (mem_places.2 hplace) pass hpass⟩

theorem Holds.passOn (hP : PassedOn g P) (h : LookaheadsOf g s.1) (hs : Holds P s.1)
    {edge : (Nat × Item) × List (Nat × Item)} (hedge : edge ∈ edges g) :
    LookaheadsOf g (passOn s edge).1 ∧ Holds P (passOn s edge).1 := by
  obtain ⟨place, hplace, rfl⟩ := List.mem_map.1 hedge
  refine foldl_induction (fun _ (s' : Lookaheads × Bool) => LookaheadsOf g s'.1 ∧ Holds P s'.1)
    ⟨h, hs⟩ ?_
  rintro done target rest s' heq ⟨hs', hholds⟩
  have hmem : target ∈ ((passes g place).filter (·.2.inherits)).map (·.1) := by
    have hlist : ((passes g place).filter (·.2.inherits)).map (·.1) = done ++ target :: rest := heq
    rw [hlist]
    simp
  obtain ⟨pass, hpass, rfl⟩ := List.mem_map.1 hmem
  obtain ⟨hpass, hinherits⟩ := List.mem_filter.1 hpass
  refine ⟨hs'.extend _ (h.below place), hholds.extend hs' fun _ x hx => ?_⟩
  exact hP.inherited place hplace pass hpass hinherits x (hs place x hx)

theorem Holds.round (hP : PassedOn g P) (h : LookaheadsOf g known) (hknown : Holds P known) :
    Holds P (round g known).1 := by
  have hfold : LookaheadsOf g ((edges g).foldl Lookaheads.passOn (known, false)).1 ∧
      Holds P ((edges g).foldl Lookaheads.passOn (known, false)).1 := by
    refine foldl_induction (fun _ (s : Lookaheads × Bool) => LookaheadsOf g s.1 ∧ Holds P s.1)
      ⟨h, hknown⟩ ?_
    rintro done edge rest s heq ⟨hs, hholds⟩
    have hedge : edge ∈ edges g := heq ▸ by simp
    exact hholds.passOn hP hs hedge
  exact hfold.2

theorem holds_rounds (hg : g.WellFormed) (hP : PassedOn g P) (n : Nat) : Holds P (rounds g n).1 := by
  induction n with
  | zero => exact holds_spontaneous hg hP
  | succ n ih => exact ih.round hP (lookaheadsOf_rounds hg n)

end Holds

/-! ### The tables of corners give the same -/

theorem exists_mem_kernel (hg : g.WellFormed) {q : Nat} {item : Item}
    (hitem : item ∈ (states g).kernel q) :
    ∃ set, (item, set) ∈ KernelFollows.kernel (states g) (final g) q := by
  have hq : q < (states g).kernels.size := by
    by_contra hge
    rw [Lr0.kernel, getD_of_size_le (Nat.le_of_not_lt hge)] at hitem
    cases hitem
  have hrow := (KernelFollows.final_spec hg).1.row q hq
  have hfst : (KernelFollows.kernel (states g) (final g) q).map Prod.fst = (states g).kernel q :=
    List.map_fst_zip (Nat.le_of_eq hrow.symm)
  rw [← hfst] at hitem
  obtain ⟨⟨_, set⟩, hmem, rfl⟩ := List.mem_map.1 hitem
  exact ⟨set, hmem⟩

theorem looks_final_of_step (hg : g.WellFormed) {q target : Nat} {item : Item} {s x : Symbol}
    (h : Looks (stateItems g q) item x) (hs : g.nextSymbol? item = some s)
    (hstep : (states g).step? q s = some target) :
    Looks (KernelFollows.kernel (states g) (final g) target) item.advance x := by
  have hvalid : Valid g q item x := ⟨mem_closure_of_looks hg h, h⟩
  have hq : q < (states g).kernels.size := by
    by_contra hge
    have hmem := (Lr0.step?_eq_some_iff_mem hg).1 hstep
    rw [Lr0.edges_eq_nil hg hge] at hmem
    cases hmem
  obtain ⟨target', hstep', hlooks⟩ := hvalid.step hg hq hs
  obtain rfl : target = target' := Option.some.inj (hstep.symm.trans hstep')
  exact looks_kernel_of_looks hg (mem_kernel_of_looks hlooks.looks (Nat.succ_ne_zero _)) hlooks.looks

theorem itemLhs_of_mem_kernel (hg : g.WellFormed) {q : Nat} {item : Item}
    (hitem : item ∈ (states g).kernel q) (hdot : item.dot = 0) : g.itemLhs item = g.augmented := by
  obtain ⟨p, hp, hlhs, -⟩ := hg.start
  rw [Lr0.eq_start_of_mem_kernel hg hitem hdot, Grammar.itemLhs_eq hp, hlhs]

/-- What a corner gets from a kernel item follows it in the closure of the state. -/
theorem looks_of_corner (hg : g.WellFormed) {q : Nat} {item other : Item} {f : Follow} {set : SymbolSet}
    (hentry : (item, set) ∈ KernelFollows.kernel (states g) (final g) q)
    (hcorner : Corner g item other f) {x : Symbol} (hx : (f.resolve set).contains x = true) :
    Looks (stateItems g q) other x := by
  obtain ⟨s, corner, hnext, hdot, hprod, hmem, hle⟩ := hcorner
  obtain ⟨origin, horigin, hsub⟩ := LookaheadTables.exists_mem_origins hentry hnext
  have hsets : f.resolve set ⊆ corner.resolve origin := by
    refine SymbolSet.subset_trans (Follow.resolve_mono hle (SymbolSet.subset_refl set)) ?_
    rw [Follow.resolve_through]
    exact Follow.resolve_mono le_rfl hsub
  refine LookaheadTables.looks_closure.2 (.inr ⟨hdot, hprod, ?_⟩)
  exact (LookaheadTables.trails_closureFollows hg ((KernelFollows.final_spec hg).1.allBelow q)).2
    ⟨s, origin, corner, horigin, hmem, SymbolSet.contains_of_subset hsets hx⟩

/-- What the tables give holds of what the probes find, and goes where they pass it on. -/
theorem passedOn_final (hg : g.WellFormed) :
    PassedOn g fun q item x => Looks (KernelFollows.kernel (states g) (final g) q) item x := by
  have hpass : ∀ place ∈ places g, ∀ pass ∈ passes g place, ∀ set,
      (place.2, set) ∈ KernelFollows.kernel (states g) (final g) place.1 →
        ∀ x, (pass.2.resolve set).contains x = true →
          Looks (KernelFollows.kernel (states g) (final g) pass.1.1) pass.1.2 x := by
    intro place hplace pass hpass set hentry x hx
    obtain ⟨item, s, target, hfound, hs, hstep, heq⟩ := mem_passes.1 hpass
    rw [heq]
    refine looks_final_of_step hg ?_ hs hstep
    rcases corner_of_probe hg (itemLhs_of_mem_kernel hg (mem_places.1 hplace)) hfound with
      ⟨rfl, hle⟩ | hcorner
    · refine LookaheadTables.looks_closure.2 (.inl ⟨set, hentry, ?_⟩)
      have hsets := Follow.resolve_mono hle (SymbolSet.subset_refl set)
      simpa [Follow.resolve, SymbolSet.empty_union] using SymbolSet.contains_of_subset hsets hx
    · exact looks_of_corner hg hentry hcorner hx
  refine ⟨(KernelFollows.final_spec hg).2.1, fun place hplace pass hmem x hx => ?_,
    fun place hplace pass hmem hinherits x hx => ?_⟩
  · obtain ⟨set, hentry⟩ := exists_mem_kernel hg (mem_places.1 hplace)
    exact hpass place hplace pass hmem set hentry x
      (SymbolSet.contains_of_subset (Follow.set_subset_resolve _ _) hx)
  · obtain ⟨set, hentry, hx⟩ := hx
    exact hpass place hplace pass hmem set hentry x
      (SymbolSet.contains_of_subset (Follow.subset_resolve hinherits _) hx)

section Inherited

variable {P : Nat → Item → Symbol → Prop} {source : List (Item × SymbolSet)} {q target : Nat}

/-- What follows a kernel item goes along with its dot. -/
theorem PassedOn.advance (hg : g.WellFormed) (hP : PassedOn g P) {item : Item} {s : Symbol}
    (hitem : item ∈ (states g).kernel q) (hs : g.nextSymbol? item = some s)
    (hstep : (states g).step? q s = some target) (hx : P q item x) : P target item.advance x := by
  obtain ⟨-, ⟨f, hf, hle⟩, -⟩ := probe_spec hg item
  have hpass : ((target, item.advance), f) ∈ passes g (q, item) :=
    mem_passes.2 ⟨item, s, target, hf, hs, hstep, rfl⟩
  exact hP.inherited (q, item) (mem_places.2 hitem) _ hpass (hle.inherits rfl) x hx

/-- What a production of a corner gets from a kernel item goes along with its dot. -/
theorem PassedOn.corner (hg : g.WellFormed) (hP : PassedOn g P) {item : Item} {set : SymbolSet}
    (hitem : item ∈ (states g).kernel q) (hset : ∀ x, set.contains x = true → P q item x)
    {s t u : Symbol} {corner : Follow} (hnext : g.nextNonterminal? item = some s)
    (hcorner : (t, corner) ∈ (ClosureTables.ofGrammar g).corners s) {i : Nat} {p : Production}
    (hp : g.productions[i]? = some p) (hlhs : p.lhs = t) (hu : g.nextSymbol? ⟨i, 0⟩ = some u)
    (hstep : (states g).step? q u = some target)
    (hx : ((corner.through (behind g item)).resolve set).contains x = true) : P target ⟨i, 1⟩ x := by
  obtain ⟨f, hf, hle⟩ := knows_probe_of_mem_corners hg hnext hcorner hp hlhs
  have hpass : ((target, ⟨i, 1⟩), f) ∈ passes g (q, item) :=
    mem_passes.2 ⟨⟨i, 0⟩, u, target, hf, hu, hstep, rfl⟩
  have hplace : (q, item) ∈ places g := mem_places.2 hitem
  have hx := SymbolSet.contains_of_subset (Follow.resolve_mono hle (SymbolSet.subset_refl set)) hx
  rcases Follow.contains_resolve.1 hx with hx | ⟨hinherits, hx⟩
  · exact hP.spontaneous (q, item) hplace _ hpass x hx
  · exact hP.inherited (q, item) hplace _ hpass hinherits x (hset x hx)

/-- What follows a corner comes from some kernel item with the nonterminal behind its dot. -/
theorem exists_mem_of_origin (hg : g.WellFormed)
    (hbelow : ∀ entry ∈ source, entry.2.Below g.terminalCount) {s x : Symbol} {origin : SymbolSet}
    {corner : Follow} (horigin : (s, origin) ∈ (LookaheadTables.ofGrammar g).origins source)
    (hx : (corner.resolve origin).contains x = true) :
    ∃ entry ∈ source, g.nextNonterminal? entry.1 = some s ∧
      ((corner.through (behind g entry.1)).resolve entry.2).contains x = true := by
  rcases Follow.contains_resolve.1 hx with hx | ⟨hinherits, hx⟩
  · obtain ⟨⟨entry, hentry, hnext⟩, -⟩ := LookaheadTables.mem_origins hg hbelow horigin
    refine ⟨entry, hentry, hnext, ?_⟩
    rw [Follow.resolve_through]
    exact SymbolSet.contains_of_subset (Follow.set_subset_resolve _ _) hx
  · obtain ⟨kernelItem, set, hentry, hnext, hx⟩ :=
      LookaheadTables.exists_of_looks_origins ⟨origin, horigin, hx⟩
    refine ⟨(kernelItem, set), hentry, hnext, ?_⟩
    rw [Follow.resolve_through]
    exact SymbolSet.contains_of_subset (Follow.subset_resolve hinherits _) hx

/-- Whatever holds of what the probes find is handed on by the tables. -/
theorem inherited_of_passedOn (hg : g.WellFormed) (hP : PassedOn g P) : KernelFollows.Inherited g P := by
  refine ⟨hP.start, fun q source hbelow hkernel hsource edge hedge item x hx => ?_⟩
  have hstep : (states g).step? q edge.1 = some edge.2 := (Lr0.step?_eq_some_iff_mem hg).2 hedge
  rcases KernelFollows.of_looks_handOn hx with ⟨hdot, htrail⟩ | ⟨kernelItem, rfl, hlooks⟩
  · obtain ⟨set, hmem, -⟩ := hx
    have htarget := (List.of_mem_zip hmem).1
    rw [(Lr0.kernel_of_step? hg hstep).2, Lr0.mem_successor] at htarget
    obtain ⟨⟨i, d⟩, -, hu, rfl⟩ := htarget
    obtain rfl : d = 0 := by simpa [Item.advance] using hdot
    obtain ⟨p, hp, -⟩ := Grammar.nextSymbol?_eq_some.1 hu
    rw [Item.advance, Grammar.itemLhs_eq hp] at htrail
    obtain ⟨s, origin, corner, horigin, hcorner, hx⟩ :=
      (LookaheadTables.trails_closureFollows hg hbelow).1 htrail
    obtain ⟨⟨kernelItem, set⟩, hentry, hnext, hx⟩ := exists_mem_of_origin hg hbelow horigin hx
    exact hP.corner hg (hkernel _ hentry) (fun y hy => hsource _ y ⟨set, hentry, hy⟩) hnext hcorner hp
      rfl hu hstep hx
  · obtain ⟨hlooks, hnext⟩ :=
      (KernelFollows.looks_filter fun item => decide (g.nextSymbol? item = some edge.1)).1 hlooks
    obtain ⟨set, hmem, -⟩ := id hlooks
    exact hP.advance hg (hkernel _ hmem) (of_decide_eq_true hnext) hstep (hsource _ x hlooks)

end Inherited

/-- After the last round the maps have what the tables give. -/
theorem contains_lookup_iff (hg : g.WellFormed) {n : Nat} (hend : (rounds g n).2 = false) {q : Nat}
    {item : Item} {x : Symbol} : (lookup (rounds g n).1 (q, item)).contains x = true ↔
      Looks (KernelFollows.kernel (states g) (final g) q) item x := by
  constructor
  · exact holds_rounds hg (passedOn_final hg) n (q, item) x
  · exact KernelFollows.of_looks_final hg (inherited_of_passedOn hg (passedOn_rounds hg hend))

/-- The probes come to an end, and so do the rounds. Then a terminal follows a kernel item just when
some canonical set behind symbols that lead to the state has the item with the terminal, and the tables
of corners give the same. -/
theorem contains_lookup_iff_mem_canonicalItems {d : GrammarDef} (hload : Grammar.load d = .ok g)
    (hproductive : g.Productive) :
    (∀ item, (probe g item).todo = []) ∧
    ∃ n, (∀ i < n, (rounds g i).2 = true) ∧ (rounds g n).2 = false ∧
      ∀ (q : Nat) (item : Item) (x : Symbol), item ∈ (Lr0.ofGrammar g).kernel q →
        ((lookup (rounds g n).1 (q, item)).contains x = true ↔
          ∃ symbols : List Symbol, symbols.foldlM (Lr0.ofGrammar g).step? 0 = some q ∧
            (item, x) ∈ g.canonicalItems symbols) ∧
        ((lookup (rounds g n).1 (q, item)).contains x = true ↔
          Looks (KernelFollows.kernel (Lr0.ofGrammar g)
            (KernelFollows.ofLr0 (LookaheadTables.ofGrammar g) (Lr0.ofGrammar g)) q) item x) := by
  have hg := Grammar.load_wellFormed hload
  obtain ⟨n, hbefore, hend⟩ := exists_rounds_end hg
  refine ⟨fun item => (probe_spec hg item).1, n, hbefore, hend, fun q item x hitem => ⟨?_, ?_⟩⟩
  · exact (contains_lookup_iff hg hend).trans (KernelFollows.looks_final_iff hg hproductive hitem)
  · exact contains_lookup_iff hg hend

theorem productive_repeatedToken : Grammar.repeatedToken.Productive := by
  have hderives : ∀ i (p : Production), Grammar.repeatedToken.productions[i]? = some p →
      Grammar.repeatedToken.Derives [p.lhs] p.rhs := fun _ _ => Grammar.derives_rhs
  have hstart : Grammar.repeatedToken.Derives [⟨2⟩] [⟨3⟩] := hderives 0 _ rfl
  have hempty : Grammar.repeatedToken.Derives [⟨3⟩] [] := hderives 2 _ rfl
  have htoken : Grammar.repeatedToken.Derives [⟨4⟩] [⟨1⟩] := hderives 4 _ rfl
  intro s hle hlt
  change 2 ≤ s.index at hle
  change s.index < 5 at hlt
  obtain hs | hs | hs : s.index = 2 ∨ s.index = 3 ∨ s.index = 4 := by omega
  · obtain rfl : s = ⟨2⟩ := Symbol.index_injective hs
    exact ⟨[], hstart.trans hempty, by simp⟩
  · obtain rfl : s = ⟨3⟩ := Symbol.index_injective hs
    exact ⟨[], hempty, by simp⟩
  · obtain rfl : s = ⟨4⟩ := Symbol.index_injective hs
    exact ⟨[⟨1⟩], htoken, by decide⟩

/-- What follows the kernel items of a repeated token follows them in the canonical sets. -/
theorem contains_lookup_iff_repeatedToken :
    Grammar.load .repeatedToken = .ok .repeatedToken ∧ Grammar.repeatedToken.Productive ∧
    ∃ n, (∀ i < n, (rounds .repeatedToken i).2 = true) ∧ (rounds .repeatedToken n).2 = false ∧
      ∀ (q : Nat) (item : Item) (x : Symbol), item ∈ (states .repeatedToken).kernel q →
        ((lookup (rounds .repeatedToken n).1 (q, item)).contains x = true ↔
          ∃ symbols : List Symbol, symbols.foldlM (states .repeatedToken).step? 0 = some q ∧
            (item, x) ∈ Grammar.repeatedToken.canonicalItems symbols) := by
  obtain ⟨-, n, hbefore, hend, hall⟩ :=
    contains_lookup_iff_mem_canonicalItems load_repeatedToken productive_repeatedToken
  exact ⟨load_repeatedToken, productive_repeatedToken, n, hbefore, hend,
    fun q item x hitem => (hall q item x hitem).1⟩

end Lookaheads

end IncrementalLR
