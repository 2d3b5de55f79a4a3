import Mathlib.Logic.Function.Iterate
import Mathlib.Order.ConditionallyCompleteLattice.Basic
import Std.Data.TreeMap.Lemmas
import IncrementalLR.Proofs.Automaton.Corners

/-!
# Closures by a work list

A closure can also be found item by item. A map holds the items found so far with what is known of
each, and a work list those that are to do. The last item of the list hands what is known of it to the
productions of the nonterminal behind its dot, and an item that is new, or of which more is known than
before, is to do again. With nothing known of the items this gives the closure of a set of items, and
with what follows them their lookaheads. As all that is known grows, the list gets empty.
-/

namespace IncrementalLR

open Std

instance : Ord Item := ⟨compareLex (compareOn Item.prod) (compareOn Item.dot)⟩

instance : TransOrd Item :=
  inferInstanceAs (TransCmp (compareLex (compareOn Item.prod) (compareOn Item.dot)))

theorem Item.compare_eq (a b : Item) : compare a b = (compare a.prod b.prod).then (compare a.dot b.dot) :=
  rfl

instance : LawfulEqOrd Item where
  eq_of_compare {a b} h := by
    rw [Item.compare_eq, Ordering.then_eq_eq, Nat.compare_eq_eq, Nat.compare_eq_eq] at h
    cases a
    cases b
    exact congrArg₂ Item.mk h.1 h.2

theorem Item.compare_eq_lt_iff {a b : Item} : compare a b = .lt ↔ a.before b = true := by
  rw [Item.compare_eq, Ordering.then_eq_lt, Nat.compare_eq_lt, Nat.compare_eq_eq, Nat.compare_eq_lt,
    Item.before_iff]

/-- The items found, with what is known of each, and those to do, the next one in front. -/
structure Worklist (α : Type) where
  found : TreeMap Item α
  todo : List Item

namespace Worklist

variable {α : Type}

/-! ### What is known -/

theorem getElem?_insert_self (found : TreeMap Item α) (item : Item) (a : α) :
    (found.insert item a)[item]? = some a := by
  simp

theorem getElem?_insert_of_ne {found : TreeMap Item α} {item other : Item} (h : other ≠ item) (a : α) :
    (found.insert item a)[other]? = found[other]? := by
  rw [TreeMap.getElem?_insert, if_neg fun heq => h (LawfulEqCmp.eq_of_compare heq).symm]

section Entries

variable {g : Grammar} {derive : Item → α → α} {w : Worklist α} {item : Item} {items : Finset Item}
  {rank : Option α → Nat}

/-- How much is known of all items. -/
def total (rank : Option α → Nat) (items : Finset Item) (w : Worklist α) : Nat :=
  ∑ item ∈ items, rank w.found[item]?

theorem total_insert {a : α} (hitem : item ∈ items) (hlt : rank w.found[item]? < rank (some a)) :
    total rank items w < total rank items ⟨w.found.insert item a, item :: w.todo⟩ := by
  refine Finset.sum_lt_sum (fun other _ => ?_) ⟨item, hitem, by rwa [getElem?_insert_self]⟩
  by_cases heq : other = item
  · subst heq
    rw [getElem?_insert_self]
    exact hlt.le
  · rw [getElem?_insert_of_ne heq]

/-- What an item hands to the productions of the nonterminal behind its dot. -/
def derived (g : Grammar) (derive : Item → α → α) (item : Item) (a : α) : List (Item × α) :=
  match g.nextNonterminal? item with
  | none => []
  | some s => (g.productionsByLhs.getD s.index []).map fun p => (⟨p, 0⟩, derive item a)

theorem mem_derived (hg : g.WellFormed) {a : α} {entry : Item × α} :
    entry ∈ derived g derive item a ↔ ∃ i p, g.productions[i]? = some p ∧
      g.nextNonterminal? item = some p.lhs ∧ entry = (⟨i, 0⟩, derive item a) := by
  unfold derived
  cases hnext : g.nextNonterminal? item with
  | none => simp
  | some s =>
      have hs := (hg.nextSymbol?_usable (Grammar.nextNonterminal?_eq_some.1 hnext).1).2.2
      simp only [List.mem_map, Grammar.mem_productionsByLhs hs, Option.some.injEq]
      constructor
      · rintro ⟨i, ⟨p, hp, rfl⟩, rfl⟩
        exact ⟨i, p, hp, rfl, rfl⟩
      · rintro ⟨i, p, hp, rfl, rfl⟩
        exact ⟨i, ⟨p, hp, rfl⟩, rfl⟩

end Entries

section Known

variable [SemilatticeSup α] {g : Grammar} {derive : Item → α → α} {w w' w'' : Worklist α} {item : Item}
  {a : α}

/-- At least this is known of an item. -/
def Knows (w : Worklist α) (entry : Item × α) : Prop := ∃ b, w.found[entry.1]? = some b ∧ entry.2 ≤ b

/-- More is known, and an item of which more is known is to do. -/
structure Extends (w w' : Worklist α) : Prop where
  grows : ∀ item a, w.found[item]? = some a → w'.Knows (item, a)
  kept : w.todo ⊆ w'.todo
  changed : ∀ item, item ∈ w'.todo ∨ w'.found[item]? = w.found[item]?

theorem Extends.refl (w : Worklist α) : Extends w w :=
  ⟨fun _ a h => ⟨a, h, le_rfl⟩, fun _ h => h, fun _ => .inr rfl⟩

theorem Knows.mono {entry : Item × α} (h : w.Knows entry) (hw : Extends w w') : w'.Knows entry := by
  obtain ⟨b, hb, hle⟩ := h
  obtain ⟨c, hc, hle'⟩ := hw.grows _ _ hb
  exact ⟨c, hc, hle.trans hle'⟩

theorem Knows.lower {b : α} (h : w.Knows (item, b)) (hle : a ≤ b) : w.Knows (item, a) := by
  obtain ⟨c, hc, hle'⟩ := h
  exact ⟨c, hc, hle.trans hle'⟩

theorem Knows.isSome {entry : Item × α} (h : w.Knows entry) : (w.found[entry.1]?).isSome = true := by
  obtain ⟨b, hb, -⟩ := h
  rw [hb]
  rfl

theorem Extends.trans (h : Extends w w') (h' : Extends w' w'') : Extends w w'' := by
  refine ⟨fun item a ha => (h.grows item a ha).mono h', fun _ hitem => h'.kept (h.kept hitem),
    fun item => ?_⟩
  rcases h'.changed item with hitem | hitem
  · exact .inl hitem
  · exact (h.changed item).imp (fun hmem => h'.kept hmem) hitem.trans

theorem extends_insert (hold : ∀ old, w.found[item]? = some old → old ≤ a) :
    Extends w ⟨w.found.insert item a, item :: w.todo⟩ := by
  refine ⟨fun other b hb => ?_, List.subset_cons_self _ _, fun other => ?_⟩
  · by_cases heq : other = item
    · subst heq
      exact ⟨a, getElem?_insert_self _ _ _, hold b hb⟩
    · exact ⟨b, (getElem?_insert_of_ne heq a).trans hb, le_rfl⟩
  · by_cases heq : other = item
    · exact .inl (heq ▸ List.mem_cons_self)
    · exact .inr (getElem?_insert_of_ne heq a)

/-- The item has handed on what is known of it. -/
def Settled (g : Grammar) (derive : Item → α → α) (w : Worklist α) (item : Item) : Prop :=
  ∀ a, w.found[item]? = some a → ∀ entry ∈ derived g derive item a, w.Knows entry

theorem Settled.mono (h : Settled g derive w item) (hw : Extends w w')
    (heq : w'.found[item]? = w.found[item]?) : Settled g derive w' item :=
  fun a ha entry hentry => (h a (heq ▸ ha) entry hentry).mono hw

/-- Where the items of a search are, and how much there is to know of one. -/
structure Bounded (g : Grammar) (derive : Item → α → α) (items : Finset Item) (ok : α → Prop)
    (rank : Option α → Nat) (bound : Nat) : Prop where
  mem : ∀ p < g.productions.size, ⟨p, 0⟩ ∈ items
  sup : ∀ a b, ok a → ok b → ok (a ⊔ b)
  derive : ∀ item a, ok a → ok (derive item a)
  none_lt : ∀ a, rank none < rank (some a)
  lt : ∀ a b, ok b → a < b → rank (some a) < rank (some b)
  le : ∀ known, rank known ≤ bound

theorem total_le {items : Finset Item} {ok : α → Prop} {rank : Option α → Nat} {bound : Nat}
    (h : Bounded g derive items ok rank bound) (w : Worklist α) :
    total rank items w ≤ items.card * bound := by
  calc total rank items w ≤ ∑ _item ∈ items, bound := Finset.sum_le_sum fun item _ => h.le _
    _ = items.card * bound := by simp

end Known

/-! ### The search -/

variable [SemilatticeSup α] [DecidableEq α] {g : Grammar} {derive : Item → α → α}
  {w w' : Worklist α} {item : Item}

/-- Adds to what is known of an item. -/
def add (w : Worklist α) (entry : Item × α) : Worklist α :=
  match w.found[entry.1]? with
  | none => ⟨w.found.insert entry.1 entry.2, entry.1 :: w.todo⟩
  | some old =>
    if old ⊔ entry.2 = old then w
    else ⟨w.found.insert entry.1 (old ⊔ entry.2), entry.1 :: w.todo⟩

/-- The next item is done. -/
def step (g : Grammar) (derive : Item → α → α) (w : Worklist α) : Worklist α :=
  match w.todo with
  | [] => w
  | item :: todo =>
    match w.found[item]? with
    | none => ⟨w.found, todo⟩
    | some a => (derived g derive item a).foldl add ⟨w.found, todo⟩

def start (kernel : List (Item × α)) : Worklist α := kernel.foldl add ⟨∅, []⟩

/-- What is found after some steps. -/
def search (g : Grammar) (derive : Item → α → α) (n : Nat) (kernel : List (Item × α)) : Worklist α :=
  (step g derive)^[n] (start kernel)

theorem extends_add (w : Worklist α) (entry : Item × α) :
    Extends w (w.add entry) ∧ (w.add entry).Knows entry := by
  unfold add
  split
  · rename_i hnone
    refine ⟨extends_insert fun old hold => ?_, entry.2, getElem?_insert_self _ _ _, le_rfl⟩
    cases hnone.symm.trans hold
  · rename_i old hold
    split
    · rename_i hsame
      exact ⟨.refl w, old, hold, sup_eq_left.1 hsame⟩
    · refine ⟨extends_insert fun b hb => ?_, _, getElem?_insert_self _ _ _, le_sup_right⟩
      obtain rfl : old = b := Option.some.inj (hold.symm.trans hb)
      exact le_sup_left

theorem extends_foldl_add (entries : List (Item × α)) (w : Worklist α) :
    Extends w (entries.foldl add w) ∧ ∀ entry ∈ entries, (entries.foldl add w).Knows entry := by
  induction entries generalizing w with
  | nil => exact ⟨.refl w, nofun⟩
  | cons entry entries ih =>
      obtain ⟨hentry, hknows⟩ := extends_add w entry
      obtain ⟨hrest, hall⟩ := ih (w.add entry)
      exact ⟨hentry.trans hrest, List.forall_mem_cons.2 ⟨hknows.mono hrest, hall⟩⟩

/-- A step settles the item that it does, and those that it unsettles are to do. -/
theorem mem_todo_or_settled_step (h : ∀ item, item ∈ w.todo ∨ Settled g derive w item) (item : Item) :
    item ∈ (step g derive w).todo ∨ Settled g derive (step g derive w) item := by
  unfold step
  split
  · exact h item
  · rename_i next todo htodo
    have hnext : item = next ∨ item ∈ todo ∨ Settled g derive w item := by
      rcases h item with hitem | hitem
      · rw [htodo] at hitem
        exact (List.mem_cons.1 hitem).imp_right .inl
      · exact .inr (.inr hitem)
    split
    · rename_i hnone
      rcases hnext with rfl | hitem | hitem
      · refine .inr fun a ha => ?_
        cases hnone.symm.trans ha
      · exact .inl hitem
      · exact .inr hitem
    · rename_i a ha
      obtain ⟨hextends, hknows⟩ := extends_foldl_add (derived g derive next a) ⟨w.found, todo⟩
      rcases hextends.changed item with hmem | hsame
      · exact .inl hmem
      · rcases hnext with rfl | hitem | hitem
        · refine .inr fun b hb => ?_
          obtain rfl : a = b := Option.some.inj (ha.symm.trans (hsame ▸ hb))
          exact hknows
        · exact .inl (hextends.kept hitem)
        · exact .inr (Settled.mono (w := ⟨w.found, todo⟩) hitem hextends hsame)

theorem mem_todo_or_settled_start {kernel : List (Item × α)} (item : Item) :
    item ∈ (start kernel).todo ∨ Settled g derive (start kernel) item := by
  rcases (extends_foldl_add kernel ⟨∅, []⟩).1.changed item with hitem | hsame
  · exact .inl hitem
  · refine .inr fun a ha => ?_
    have hnone : (start kernel).found[item]? = none := hsame.trans TreeMap.getElem?_emptyc
    cases hnone.symm.trans ha

theorem Knows.step {entry : Item × α} (h : w.Knows entry) :
    (step g derive w).Knows entry := by
  unfold Worklist.step
  split
  · exact h
  · rename_i item todo htodo
    split
    · exact h
    · have hfound : Knows ⟨w.found, todo⟩ entry := h
      exact hfound.mono (extends_foldl_add _ _).1

/-! ### What a search finds -/

theorem search_induction {P : Worklist α → Prop} {kernel : List (Item × α)} (hstart : P (start kernel))
    (hstep : ∀ w, P w → P (step g derive w)) (n : Nat) : P (search g derive n kernel) := by
  induction n with
  | zero => exact hstart
  | succ n ih =>
      rw [search, Function.iterate_succ_apply']
      exact hstep _ ih

section Property

variable {P : Item → α → Prop}

/-- Something holds of all that is known. -/
def Holds (P : Item → α → Prop) (w : Worklist α) : Prop :=
  ∀ item a, w.found[item]? = some a → P item a

theorem Holds.foldl_add (hsup : ∀ item a b, P item a → P item b → P item (a ⊔ b))
    {entries : List (Item × α)} (hentries : ∀ entry ∈ entries, P entry.1 entry.2) (h : Holds P w) :
    Holds P (entries.foldl add w) := by
  refine foldl_induction (fun _ w => Holds P w) h ?_
  intro done entry rest w heq hw
  have hentry : P entry.1 entry.2 := hentries entry (heq ▸ by simp)
  have hinsert : ∀ a, P entry.1 a → Holds P ⟨w.found.insert entry.1 a, entry.1 :: w.todo⟩ := by
    intro a ha other b hb
    by_cases hother : other = entry.1
    · subst hother
      rw [getElem?_insert_self, Option.some.injEq] at hb
      exact hb ▸ ha
    · rw [getElem?_insert_of_ne hother] at hb
      exact hw other b hb
  unfold add
  split
  · exact hinsert _ hentry
  · rename_i old hold
    split
    · exact hw
    · exact hinsert _ (hsup _ _ _ (hw _ _ hold) hentry)

theorem holds_start (hsup : ∀ item a b, P item a → P item b → P item (a ⊔ b))
    {kernel : List (Item × α)} (hkernel : ∀ entry ∈ kernel, P entry.1 entry.2) :
    Holds P (start kernel) := by
  refine Holds.foldl_add hsup hkernel fun item a ha => ?_
  rw [TreeMap.getElem?_emptyc] at ha
  cases ha

theorem Holds.step (hsup : ∀ item a b, P item a → P item b → P item (a ⊔ b))
    (hderive : ∀ item a, P item a → ∀ entry ∈ derived g derive item a, P entry.1 entry.2)
    (h : Holds P w) : Holds P (step g derive w) := by
  unfold Worklist.step
  split
  · exact h
  · split
    · exact h
    · rename_i a ha
      exact Holds.foldl_add (w := ⟨w.found, _⟩) hsup (hderive _ a (h _ _ ha)) h

theorem holds_search (hsup : ∀ item a b, P item a → P item b → P item (a ⊔ b))
    (hderive : ∀ item a, P item a → ∀ entry ∈ derived g derive item a, P entry.1 entry.2)
    {kernel : List (Item × α)} (hkernel : ∀ entry ∈ kernel, P entry.1 entry.2) (n : Nat) :
    Holds P (search g derive n kernel) :=
  search_induction (holds_start hsup hkernel) (fun _ hw => hw.step hsup hderive) n

end Property

/-! ### The end of a search -/

section Bounded

variable {items : Finset Item} {ok : α → Prop} {rank : Option α → Nat} {bound : Nat}

theorem total_add (h : Bounded g derive items ok rank bound) {entry : Item × α}
    (hentry : entry.1 ∈ items ∧ ok entry.2) (hw : Holds (fun _ a => ok a) w) :
    (w.add entry).todo.length + total rank items w ≤ w.todo.length + total rank items (w.add entry) := by
  unfold add
  split
  · rename_i hnone
    have hlt := total_insert (w := w) hentry.1 (by rw [hnone]; exact h.none_lt entry.2)
    rw [List.length_cons]
    omega
  · rename_i old hold
    split
    · exact le_rfl
    · rename_i hne
      have hok := h.sup _ _ (hw _ _ hold) hentry.2
      have hgrows : old < old ⊔ entry.2 := le_sup_left.lt_of_ne (Ne.symm hne)
      have hlt := total_insert (w := w) hentry.1 (by rw [hold]; exact h.lt _ _ hok hgrows)
      rw [List.length_cons]
      omega

theorem total_foldl_add (h : Bounded g derive items ok rank bound) {entries : List (Item × α)}
    (hentries : ∀ entry ∈ entries, entry.1 ∈ items ∧ ok entry.2) (hw : Holds (fun _ a => ok a) w) :
    (entries.foldl add w).todo.length + total rank items w
      ≤ w.todo.length + total rank items (entries.foldl add w) := by
  induction entries generalizing w with
  | nil => exact le_rfl
  | cons entry entries ih =>
      obtain ⟨hentry, hrest⟩ := List.forall_mem_cons.1 hentries
      have hadd : Holds (fun _ a => ok a) (w.add entry) := by
        change Holds _ ([entry].foldl add w)
        exact Holds.foldl_add (fun _ => h.sup) (by simpa using hentry.2) hw
      have hfirst := total_add h hentry hw
      have hothers := ih hrest hadd
      rw [List.foldl_cons]
      omega

theorem iterate_step_of_nil (h : w.todo = []) (n : Nat) : (step g derive)^[n] w = w := by
  refine Function.iterate_fixed ?_ n
  rw [step, h]

/-- What is to do gets less with every step, but for as much as gets known. -/
theorem todo_iterate_step (hg : g.WellFormed) (h : Bounded g derive items ok rank bound) {n : Nat}
    (hw : Holds (fun _ a => ok a) w)
    (hn : w.todo.length + items.card * bound ≤ n + total rank items w) :
    ((step g derive)^[n] w).todo = [] := by
  have hderive : ∀ item a, ok a → ∀ entry ∈ derived g derive item a, entry.1 ∈ items ∧ ok entry.2 := by
    intro item a ha entry hentry
    obtain ⟨i, p, hp, -, rfl⟩ := (mem_derived hg).1 hentry
    exact ⟨h.mem i (Array.getElem?_eq_some_iff.1 hp).1, h.derive item a ha⟩
  induction n generalizing w with
  | zero =>
      have hle := total_le h w
      exact List.length_eq_zero_iff.1 (by rw [Function.iterate_zero, id]; omega)
  | succ n ih =>
      cases htodo : w.todo with
      | nil => rw [iterate_step_of_nil htodo, htodo]
      | cons item todo =>
          rw [Function.iterate_succ_apply]
          refine ih (hw.step (fun _ => h.sup) fun item a ha entry hentry =>
            (hderive item a ha entry hentry).2) ?_
          rw [htodo, List.length_cons] at hn
          unfold Worklist.step
          rw [htodo]
          simp only
          split
          · change todo.length + _ ≤ n + total rank items w
            omega
          · rename_i a ha
            have hfold : _ + total rank items w ≤ todo.length + _ :=
              total_foldl_add (w := ⟨w.found, todo⟩) h (hderive item a (hw item a ha)) hw
            omega

/-- The list of a search gets empty, and then every item has handed on what is known of it. -/
theorem search_spec (hg : g.WellFormed) (h : Bounded g derive items ok rank bound)
    {kernel : List (Item × α)} (hkernel : ∀ entry ∈ kernel, entry.1 ∈ items ∧ ok entry.2) {n : Nat}
    (hn : items.card * bound ≤ n) :
    (search g derive n kernel).todo = [] ∧ (∀ entry ∈ kernel, (search g derive n kernel).Knows entry) ∧
      ∀ item, Settled g derive (search g derive n kernel) item := by
  have hstart : Holds (fun _ a => ok a) (start kernel) :=
    holds_start (fun _ => h.sup) fun entry hentry => (hkernel entry hentry).2
  have htodo : (search g derive n kernel).todo = [] := by
    refine todo_iterate_step hg h hstart ?_
    have hfold : (start kernel).todo.length + total rank items ⟨∅, []⟩
        ≤ 0 + total rank items (start kernel) := total_foldl_add h hkernel fun item a ha => by
          rw [TreeMap.getElem?_emptyc] at ha
          cases ha
    omega
  refine ⟨htodo, fun entry hentry => ?_, fun item => ?_⟩
  · exact search_induction (P := fun w => w.Knows entry)
      ((extends_foldl_add kernel ⟨∅, []⟩).2 entry hentry) (fun _ hw => hw.step) n
  · have hsettled : ∀ item, item ∈ (search g derive n kernel).todo ∨
        Settled g derive (search g derive n kernel) item :=
      search_induction (P := fun w => ∀ item, item ∈ w.todo ∨ Settled g derive w item)
        mem_todo_or_settled_start (fun _ => mem_todo_or_settled_step) n
    exact (hsettled item).resolve_left (htodo ▸ List.not_mem_nil)

end Bounded

/-! ### Closures of item sets -/

/-- Only whether an item is found is known. The fuel counts the items that there can be. -/
def closureSearch (g : Grammar) (kernel : List Item) : Worklist Unit :=
  search g (fun _ known => known) (kernel.length + g.productions.size)
    (kernel.map fun item => (item, ()))

theorem bounded_closureSearch (g : Grammar) (kernel : List Item) :
    Bounded g (fun _ (known : Unit) => known)
      (kernel.toFinset ∪ (Finset.range g.productions.size).image fun p => ⟨p, 0⟩) (fun _ => True)
      (fun known => if known.isSome then 1 else 0) 1 where
  mem p hp := Finset.mem_union_right _ (Finset.mem_image_of_mem _ (Finset.mem_range.2 hp))
  sup _ _ _ _ := trivial
  derive _ _ _ := trivial
  none_lt _ := Nat.one_pos
  lt _ _ _ h := absurd h (lt_irrefl _)
  le known := by split <;> omega

/-- The list of the search gets empty, and what it has found hands nothing on any more. -/
theorem settled_closureSearch (hg : g.WellFormed) (kernel : List Item) :
    (closureSearch g kernel).todo = [] ∧ (∀ item ∈ kernel, (closureSearch g kernel).Knows (item, ())) ∧
      ∀ item, Settled g (fun _ known => known) (closureSearch g kernel) item := by
  have hcard : (kernel.toFinset ∪ (Finset.range g.productions.size).image fun p => (⟨p, 0⟩ : Item)).card * 1
      ≤ kernel.length + g.productions.size := by
    rw [mul_one]
    refine (Finset.card_union_le _ _).trans (Nat.add_le_add kernel.toFinset_card_le ?_)
    exact Finset.card_image_le.trans (Finset.card_range _).le
  have hkernel : ∀ entry ∈ kernel.map fun item => (item, ()),
      entry.1 ∈ kernel.toFinset ∪ (Finset.range g.productions.size).image (fun p => (⟨p, 0⟩ : Item)) ∧
        True := by
    intro entry hentry
    obtain ⟨item, hitem, rfl⟩ := List.mem_map.1 hentry
    exact ⟨Finset.mem_union_left _ (List.mem_toFinset.2 hitem), trivial⟩
  obtain ⟨htodo, hknows, hsettled⟩ := search_spec hg (bounded_closureSearch g kernel) hkernel hcard
  exact ⟨htodo, fun item hitem => hknows _ (List.mem_map_of_mem hitem), hsettled⟩

theorem mem_keys_closureSearch_iff (hg : g.WellFormed) {kernel : List Item} {item : Item} :
    item ∈ (closureSearch g kernel).found.keys ↔ item ∈ g.closure g.productionsByLhs kernel := by
  obtain ⟨-, hknows, hsettled⟩ := settled_closureSearch hg kernel
  rw [TreeMap.mem_keys, TreeMap.mem_iff_isSome_getElem?]
  constructor
  · intro hsome
    obtain ⟨known, hknown⟩ := Option.isSome_iff_exists.1 hsome
    refine holds_search (P := fun item _ => item ∈ g.closure g.productionsByLhs kernel)
      (fun _ _ _ ha _ => ha) ?_ ?_ _ item known hknown
    · intro item _ hitem entry hentry
      obtain ⟨i, p, hp, hnext, rfl⟩ := (mem_derived hg).1 hentry
      exact g.mem_closure_of_nextNonterminal? hg hitem hp hnext
    · intro entry hentry
      obtain ⟨item, hitem, rfl⟩ := List.mem_map.1 hentry
      exact g.subset_closure _ hitem
  · intro hitem
    refine Grammar.closure_induction hg (P := fun item =>
      ((closureSearch g kernel).found[item]?).isSome = true) ?_ ?_ item hitem
    · exact fun item hitem => (hknows item hitem).isSome
    · intro item i p hsome hp hnext
      obtain ⟨known, hknown⟩ := Option.isSome_iff_exists.1 hsome
      have hnext' : g.nextNonterminal? item = some p.lhs :=
        Grammar.nextNonterminal?_eq_some.2 ⟨hnext, hg.isTerminal_lhs hp⟩
      exact (hsettled item known hknown _ ((mem_derived hg).2 ⟨i, p, hp, hnext', rfl⟩)).isSome

/-- The list of the search gets empty, and it has found the closure. -/
theorem closureSearch_spec (hg : g.WellFormed) (kernel : List Item) :
    (closureSearch g kernel).todo = [] ∧
      (closureSearch g kernel).found.keys = g.closure g.productionsByLhs kernel := by
  refine ⟨(settled_closureSearch hg kernel).1, ?_⟩
  have hascending : Ascending (closureSearch g kernel).found.keys :=
    TreeMap.ordered_keys.imp Item.compare_eq_lt_iff.1
  have hclosure := g.ascending_closure kernel
  exact (hascending.sublist_of_subset hclosure fun _ => (mem_keys_closureSearch_iff hg).1).antisymm
    (hclosure.sublist_of_subset hascending fun _ => (mem_keys_closureSearch_iff hg).2)

end Worklist

end IncrementalLR
