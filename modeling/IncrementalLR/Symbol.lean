/-!
# Symbols

Symbols number the terminals, the external tokens and the nonterminals of one grammar, in this
order. Symbol zero is the end of input. The largest number stands for text that fits nowhere and is
never part of a table row.
-/

namespace IncrementalLR

structure Symbol where
  id : UInt16
  deriving DecidableEq, Repr, Inhabited, Hashable

namespace Symbol

/-- The end of input. -/
def eof : Symbol := ⟨0⟩

/-- Text skipped in error recovery. -/
def error : Symbol := ⟨65535⟩

def index (s : Symbol) : Nat := s.id.toNat

/-- The symbol of a number, which is taken modulo the width of a symbol. -/
def ofIndex (i : Nat) : Symbol := ⟨i.toUInt16⟩

instance : Ord Symbol := ⟨fun a b => compare a.id b.id⟩

theorem index_lt (s : Symbol) : s.index < 65536 := s.id.toNat_lt

theorem index_injective {s t : Symbol} (h : s.index = t.index) : s = t := by
  cases s
  cases t
  exact congrArg Symbol.mk (UInt16.toNat_inj.1 h)

@[simp] theorem index_inj {s t : Symbol} : s.index = t.index ↔ s = t :=
  ⟨index_injective, congrArg index⟩

theorem index_ofIndex {i : Nat} (h : i < 65536) : (ofIndex i).index = i := by
  simp only [index, ofIndex, Nat.toUInt16_eq, UInt16.toNat_ofNat', Nat.reducePow]
  exact Nat.mod_eq_of_lt h

@[simp] theorem ofIndex_index (s : Symbol) : ofIndex s.index = s :=
  index_injective (index_ofIndex s.index_lt)

theorem ne_error_of_index_lt {s : Symbol} (h : s.index < 65535) : s ≠ error := by
  rintro rfl
  exact absurd h (by decide)

end Symbol

/-- The number of a field name; fields are numbered in alphabetical order. -/
structure FieldId where
  id : UInt16
  deriving DecidableEq, Repr, Inhabited, Hashable

namespace FieldId

def index (f : FieldId) : Nat := f.id.toNat

end FieldId

inductive SymbolKind where
  /-- matched by the lexer -/
  | terminal
  /-- matched by the external scanner of the language -/
  | external
  /-- defined by a rule -/
  | nonterminal
  /-- made for a repetition, or the augmented start symbol -/
  | auxiliary
  deriving DecidableEq, Repr, Inhabited

namespace SymbolKind

def isTerminal : SymbolKind → Bool
  | terminal | external => true
  | nonterminal | auxiliary => false

def name : SymbolKind → String
  | terminal => "Terminal"
  | external => "External"
  | nonterminal => "Nonterminal"
  | auxiliary => "Auxiliary"

end SymbolKind

/-- What is known of one symbol. Visible symbols appear as nodes, hidden ones are spliced into their
parents; named symbols come from rules, the others are literal tokens; extras may stand anywhere. -/
structure SymbolInfo where
  name : String
  kind : SymbolKind
  visible : Bool
  named : Bool
  extra : Bool
  deriving DecidableEq, Repr, Inhabited

/-- What is known of `Symbol.error`. -/
def SymbolInfo.error : SymbolInfo := ⟨"ERROR", .nonterminal, true, true, false⟩

end IncrementalLR
