import IncrementalLR.Symbol

/-!
# Sets of symbols

A set of symbols is a number whose bits are the members.
-/

namespace IncrementalLR

structure SymbolSet where
  bits : Nat
  deriving DecidableEq, Repr, Inhabited

namespace SymbolSet

def empty : SymbolSet := ⟨0⟩

def contains (set : SymbolSet) (s : Symbol) : Bool := set.bits.testBit s.index

def insert (set : SymbolSet) (s : Symbol) : SymbolSet := ⟨set.bits ||| 1 <<< s.index⟩

def union (a b : SymbolSet) : SymbolSet := ⟨a.bits ||| b.bits⟩

def singleton (s : Symbol) : SymbolSet := empty.insert s

def ofList (symbols : List Symbol) : SymbolSet := symbols.foldl insert empty

/-- Every member of `a` is one of `b`. -/
def subset (a b : SymbolSet) : Bool := a.bits ||| b.bits == b.bits

/-- The members below a bound, ascending. -/
def toListBelow (set : SymbolSet) (bound : Nat) : List Symbol :=
  ((List.range bound).filter set.bits.testBit).map Symbol.ofIndex

theorem ext {a b : SymbolSet} (h : ∀ i, a.bits.testBit i = b.bits.testBit i) : a = b := by
  cases a
  cases b
  exact congrArg SymbolSet.mk (Nat.eq_of_testBit_eq h)

@[simp] theorem contains_empty (s : Symbol) : empty.contains s = false := by
  simp [contains, empty]

@[simp] theorem contains_union (a b : SymbolSet) (s : Symbol) :
    (a.union b).contains s = (a.contains s || b.contains s) := by
  simp [contains, union]

theorem testBit_insert (set : SymbolSet) (s : Symbol) (i : Nat) :
    (set.insert s).bits.testBit i = (set.bits.testBit i || decide (i = s.index)) := by
  simp only [insert, Nat.testBit_or, Nat.testBit_shiftLeft]
  by_cases h : i = s.index
  · simp [h]
  · by_cases hge : i ≥ s.index
    · have : i - s.index ≠ 0 := by omega
      simp [h, Nat.testBit_one_eq_true_iff_self_eq_zero, this]
    · simp [h, hge]

@[simp] theorem contains_insert (set : SymbolSet) (s t : Symbol) :
    (set.insert s).contains t = (set.contains t || decide (t = s)) := by
  simp [contains, testBit_insert]

@[simp] theorem contains_singleton (s t : Symbol) :
    (singleton s).contains t = decide (t = s) := by
  simp [singleton]

theorem contains_ofList (symbols : List Symbol) (t : Symbol) :
    (ofList symbols).contains t = symbols.contains t := by
  have hfold : ∀ set : SymbolSet,
      (symbols.foldl insert set).contains t = (set.contains t || symbols.contains t) := by
    induction symbols with
    | nil => simp
    | cons s rest ih =>
      intro set
      rw [List.foldl_cons, ih, contains_insert, List.contains_cons, Bool.or_assoc]
      congr
  simpa [ofList] using hfold empty

end SymbolSet

end IncrementalLR
