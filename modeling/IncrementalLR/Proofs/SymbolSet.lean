import Mathlib.Algebra.Order.BigOperators.Group.Finset
import IncrementalLR.Symbol.Set

/-!
# Sets of symbols that grow

Inclusion of sets of symbols, and the number of their members below a bound. A set that grows has
more members, which bounds how often the fixed points of the table compiler can go on.
-/

namespace IncrementalLR.SymbolSet

instance : HasSubset SymbolSet :=
  ⟨fun a b => ∀ i, a.bits.testBit i = true → b.bits.testBit i = true⟩

variable {a b c : SymbolSet}

theorem contains_of_subset (h : a ⊆ b) {s : Symbol} (hs : a.contains s = true) :
    b.contains s = true :=
  h s.index hs

theorem subset_refl (a : SymbolSet) : a ⊆ a := fun _ h => h

theorem subset_trans (h : a ⊆ b) (h' : b ⊆ c) : a ⊆ c := fun i hi => h' i (h i hi)

theorem subset_antisymm (h : a ⊆ b) (h' : b ⊆ a) : a = b :=
  ext fun i => Bool.eq_iff_iff.2 ⟨h i, h' i⟩

theorem union_empty (a : SymbolSet) : a.union empty = a := ext fun i => by simp [union, empty]

theorem empty_union (a : SymbolSet) : empty.union a = a := ext fun i => by simp [union, empty]

theorem union_assoc (a b c : SymbolSet) : (a.union b).union c = a.union (b.union c) :=
  ext fun i => by simp [union, Bool.or_assoc]

theorem empty_subset (a : SymbolSet) : empty ⊆ a := by
  intro i hi
  simp [empty] at hi

theorem subset_union_left (a b : SymbolSet) : a ⊆ a.union b := by
  intro i hi
  simp [union, hi]

theorem subset_union_right (a b : SymbolSet) : b ⊆ a.union b := by
  intro i hi
  simp [union, hi]

theorem union_subset (ha : a ⊆ c) (hb : b ⊆ c) : a.union b ⊆ c := by
  intro i hi
  rw [union, Nat.testBit_or, Bool.or_eq_true] at hi
  exact hi.elim (ha i) (hb i)

theorem subset_insert (a : SymbolSet) (s : Symbol) : a ⊆ a.insert s := by
  intro i hi
  rw [testBit_insert, hi, Bool.true_or]

/-! ### Bounded sets -/

/-- All members are below the bound. -/
def Below (bound : Nat) (a : SymbolSet) : Prop := ∀ i, a.bits.testBit i = true → i < bound

variable {bound : Nat}

theorem below_empty : Below bound empty := by
  intro i hi
  simp [empty] at hi

theorem Below.union (ha : Below bound a) (hb : Below bound b) : Below bound (a.union b) := by
  intro i hi
  simp only [SymbolSet.union, Nat.testBit_or, Bool.or_eq_true] at hi
  rcases hi with hi | hi
  · exact ha i hi
  · exact hb i hi

theorem Below.insert (ha : Below bound a) {s : Symbol} (hs : s.index < bound) :
    Below bound (a.insert s) := by
  intro i hi
  rw [testBit_insert, Bool.or_eq_true, decide_eq_true_iff] at hi
  rcases hi with hi | rfl
  · exact ha i hi
  · exact hs

theorem below_singleton {s : Symbol} (hs : s.index < bound) : Below bound (singleton s) :=
  below_empty.insert hs

/-- The number of members below the bound. -/
def count (bound : Nat) (a : SymbolSet) : Nat :=
  ((Finset.range bound).filter fun i => a.bits.testBit i = true).card

theorem count_le (bound : Nat) (a : SymbolSet) : a.count bound ≤ bound := by
  calc a.count bound ≤ (Finset.range bound).card := Finset.card_filter_le _ _
    _ = bound := Finset.card_range bound

theorem count_mono (h : a ⊆ b) (bound : Nat) : a.count bound ≤ b.count bound :=
  Finset.card_le_card fun i hi => by
    rw [Finset.mem_filter] at hi ⊢
    exact ⟨hi.1, h i hi.2⟩

theorem count_lt_count (h : a ⊆ b) (hne : a ≠ b) (hb : Below bound b) :
    a.count bound < b.count bound := by
  obtain ⟨i, hi, hnot⟩ : ∃ i, b.bits.testBit i = true ∧ ¬ a.bits.testBit i = true := by
    by_contra hall
    push Not at hall
    exact hne (subset_antisymm h hall)
  refine Finset.card_lt_card ((Finset.ssubset_iff_of_subset ?_).2 ⟨i, ?_, ?_⟩)
  · intro j hj
    rw [Finset.mem_filter] at hj ⊢
    exact ⟨hj.1, h j hj.2⟩
  · exact Finset.mem_filter.2 ⟨Finset.mem_range.2 (hb i hi), hi⟩
  · intro hmem
    exact hnot (Finset.mem_filter.1 hmem).2

/-- A set with one more member below the bound counts one more. -/
theorem count_insert_le {s : Symbol} (hs : s.index < bound) (hnew : a.contains s = false) :
    a.count bound + 1 ≤ (a.insert s).count bound := by
  rw [count, count, ← Finset.card_insert_of_notMem (a := s.index)]
  · apply Finset.card_le_card
    intro i hi
    rw [Finset.mem_insert, Finset.mem_filter] at hi
    rw [Finset.mem_filter, Finset.mem_range, testBit_insert, Bool.or_eq_true,
      decide_eq_true_iff]
    rcases hi with rfl | ⟨hi, hold⟩
    · exact ⟨hs, .inr rfl⟩
    · exact ⟨Finset.mem_range.1 hi, .inl hold⟩
  · rw [Finset.mem_filter]
    rintro ⟨_, hold⟩
    exact Bool.false_ne_true (hnew.symm.trans hold)

end IncrementalLR.SymbolSet
