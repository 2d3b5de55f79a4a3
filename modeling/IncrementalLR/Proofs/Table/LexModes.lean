import Mathlib.Data.List.Dedup
import IncrementalLR.Proofs.Table.Acceptance
import IncrementalLR.Proofs.Table.Range

/-!
# Lex modes are the valid sets

The terminals that are valid in a state are the extras and those with an action there. Equal sets are
one mode, so that states have the same mode just when the same terminals are valid in them. The search
for the modes keeps every set that it was given at one number, and the set of all terminals at zero.
-/

namespace IncrementalLR

namespace Compile

variable {g : Grammar}

/-! ### The numbers of the sets -/

/-- What the search has found behind the sets of some states: these sets and the first one, each at the
number it is found again by, and the mode of every state. -/
structure Numbered (found : ModeSearch) (first : List Symbol) (valids : List (List Symbol)) : Prop where
  zero : found.1[0]? = some first.toArray
  index : ∀ (set : List Symbol) (i : Nat), found.2.1[set]? = some i ↔ found.1[i]? = some set.toArray
  sets : ∀ set : List Symbol, set.toArray ∈ found.1 ↔ set ∈ first :: valids
  size : found.2.2.size = valids.length
  mode : ∀ (q : Nat) (set : List Symbol), valids[q]? = some set →
    ∃ i : Nat, found.1[i]? = some set.toArray ∧ found.2.2[q]? = some i.toUInt16

variable {found : ModeSearch} {first : List Symbol} {valids : List (List Symbol)}

theorem toArray_injective {set other : List Symbol} (h : set.toArray = other.toArray) : set = other :=
  congrArg Array.toList h

theorem numbered_modeSearch (g : Grammar) :
    Numbered (modeSearch g) ((List.range g.terminalCount).map Symbol.ofIndex) [] := by
  refine ⟨rfl, fun set i => ?_, fun set => ?_, rfl, fun q set h => ?_⟩
  · rw [modeSearch, Std.HashMap.ofList_singleton, Std.HashMap.getElem?_insert]
    by_cases heq : (List.range g.terminalCount).map Symbol.ofIndex = set
    · subst heq
      cases i with
      | zero => simp
      | succ i => simp
    · have hne : ((List.range g.terminalCount).map Symbol.ofIndex).toArray ≠ set.toArray :=
        fun h => heq (toArray_injective h)
      cases i with
      | zero => simp [heq]
      | succ i => simp [heq]
  · rw [modeSearch, List.mem_singleton]
    constructor
    · intro h
      exact toArray_injective (Array.mem_singleton.1 h)
    · rintro rfl
      exact Array.mem_singleton.2 rfl
  · cases h

/-- The mode of one state more. -/
theorem Numbered.addMode (h : Numbered found first valids) (valid : List Symbol) :
    Numbered (addMode found valid) first (valids ++ [valid]) := by
  rw [Compile.addMode]
  cases hfound : found.2.1[valid]? with
  | some i =>
      have hi := (h.index valid i).1 hfound
      refine ⟨h.zero, h.index, fun set => ?_, ?_, fun q set hq => ?_⟩
      · rw [h.sets, ← List.cons_append, List.mem_append, List.mem_singleton]
        refine (or_iff_left_of_imp ?_).symm
        rintro rfl
        exact (h.sets set).1 (Array.mem_of_getElem? hi)
      · rw [Array.size_push, h.size, List.length_append, List.length_singleton]
      · rcases getElem?_append_singleton_eq_some.1 hq with hq | ⟨rfl, rfl⟩
        · obtain ⟨j, hj, hmode⟩ := h.mode q set hq
          exact ⟨j, hj, getElem?_push_of_eq_some hmode _⟩
        · exact ⟨i, hi, by rw [← h.size, Array.getElem?_push_size]⟩
  | none =>
      refine ⟨getElem?_push_of_eq_some h.zero _, fun set i => ?_, fun set => ?_, ?_, fun q set hq => ?_⟩
      · simp only [Std.HashMap.getElem?_insert, Array.getElem?_push]
        by_cases heq : valid = set
        · subst heq
          have hnot : found.1[i]? ≠ some valid.toArray := by
            rw [Ne, ← h.index, hfound]
            exact (Option.some_ne_none i).symm
          by_cases hi : i = found.1.size
          · simp [hi]
          · simp [hi, hnot, Ne.symm hi]
        · have hne : valid.toArray ≠ set.toArray := fun h => heq (toArray_injective h)
          by_cases hi : i = found.1.size
          · simp [hi, heq, h.index]
          · simp [hi, heq, h.index]
      · rw [Array.mem_push, h.sets, ← List.cons_append, List.mem_append, List.mem_singleton]
        exact or_congr_right ⟨toArray_injective, congrArg List.toArray⟩
      · rw [Array.size_push, h.size, List.length_append, List.length_singleton]
      · rcases getElem?_append_singleton_eq_some.1 hq with hq | ⟨rfl, rfl⟩
        · obtain ⟨j, hj, hmode⟩ := h.mode q set hq
          exact ⟨j, getElem?_push_of_eq_some hj _, getElem?_push_of_eq_some hmode _⟩
        · exact ⟨found.1.size, Array.getElem?_push_size, by rw [← h.size, Array.getElem?_push_size]⟩

theorem numbered_foldl (h : Numbered found first []) (valid : Nat → List Symbol) (n : Nat) :
    Numbered ((List.range n).foldl (fun found q => Compile.addMode found (valid q)) found) first
      ((List.range n).map valid) := by
  refine foldl_induction (f := fun found q => Compile.addMode found (valid q))
    (fun (done : List Nat) (found : ModeSearch) => Numbered found first (done.map valid)) h ?_
  intro done q rest found _ hdone
  rw [List.map_append, List.map_singleton]
  exact hdone.addMode (valid q)

/-- No set has two numbers. -/
theorem Numbered.nodup (h : Numbered found first valids) : (found.1.toList.map Array.toList).Nodup := by
  refine List.Nodup.map (fun _ _ => Array.toList_inj.1) ?_
  refine List.nodup_iff_getElem?_ne_getElem?.2 fun i j hij hj heq => ?_
  rw [Array.getElem?_toList, Array.getElem?_toList, Array.getElem?_eq_getElem hj] at heq
  have hi := (h.index found.1[j].toList i).2 heq
  have hj := (h.index found.1[j].toList j).2 (Array.getElem?_eq_getElem hj)
  rw [hi, Option.some.injEq] at hj
  omega

theorem Numbered.mem_iff (h : Numbered found first valids) {set : List Symbol} :
    set ∈ found.1.toList.map Array.toList ↔ set ∈ first :: valids := by
  rw [← h.sets, List.mem_map]
  constructor
  · rintro ⟨array, harray, rfl⟩
    exact Array.mem_toList_iff.1 harray
  · exact fun hset => ⟨set.toArray, Array.mem_toList_iff.2 hset, rfl⟩

theorem Numbered.size_eq (h : Numbered found first valids) :
    found.1.size = (first :: valids).dedup.length := by
  have hperm : (found.1.toList.map Array.toList).Perm (first :: valids).dedup := by
    refine (List.perm_ext_iff_of_nodup h.nodup (List.nodup_dedup _)).2 fun set => ?_
    rw [h.mem_iff, List.mem_dedup]
  rw [← hperm.length_eq, List.length_map, Array.length_toList]

end Compile

/-! ### The modes of a table -/

namespace Table

variable {t : Table} {s : Symbol}

def terminals (t : Table) : List Symbol := (List.range t.terminalCount).map Symbol.ofIndex

/-- The terminals that are valid in a state: the extras, and those with an action. -/
def validAt (t : Table) (q : Nat) : List Symbol :=
  t.terminals.filter fun s =>
    t.actions.getD (q * t.symbols.size + s.index) .error != .error || t.extras.contains s

/-- The valid sets: all terminals, which are valid where there are errors, and the sets of the states. -/
def validSets (t : Table) : List (List Symbol) := t.terminals :: (List.range t.stateCount).map t.validAt

/-- The terminal is an extra or has an action in the state. -/
def Valid (t : Table) (state : StateId) (s : Symbol) : Prop :=
  t.isTerminal s = true ∧ (s ∈ t.extras ∨ t.action state s ≠ .error)

instance (t : Table) (state : StateId) (s : Symbol) : Decidable (t.Valid state s) :=
  inferInstanceAs (Decidable (_ ∧ _))

theorem mem_terminals (hcount : t.terminalCount ≤ 65535) :
    s ∈ t.terminals ↔ t.isTerminal s = true := by
  rw [terminals, List.mem_map, isTerminal, decide_eq_true_iff]
  constructor
  · rintro ⟨i, hi, rfl⟩
    have hi := List.mem_range.1 hi
    rwa [Symbol.index_ofIndex (by omega)]
  · exact fun hs => ⟨s.index, List.mem_range.2 hs, Symbol.ofIndex_index s⟩

theorem ascending_terminals (hcount : t.terminalCount ≤ 65535) :
    t.terminals.Pairwise fun a b => a.index < b.index := by
  refine List.pairwise_map.2 (List.pairwise_lt_range.imp_of_mem fun {i j} hi hj hlt => ?_)
  have hi := List.mem_range.1 hi
  have hj := List.mem_range.1 hj
  rwa [Symbol.index_ofIndex (by omega), Symbol.index_ofIndex (by omega)]

theorem mem_validAt (hcount : t.terminalCount ≤ 65535) {state : StateId} :
    s ∈ t.validAt state.toNat ↔ t.Valid state s := by
  rw [validAt, List.mem_filter, mem_terminals hcount, Valid, Bool.or_eq_true, bne_iff_ne,
    Array.contains_iff_mem, or_comm]
  refine and_congr_right fun hs => or_congr_right ?_
  have hne : s ≠ Symbol.error := by
    rintro rfl
    exact absurd (of_decide_eq_true hs) (Nat.not_lt_of_le hcount)
  rw [action, if_neg hne]

theorem ascending_validAt (hcount : t.terminalCount ≤ 65535) (q : Nat) :
    (t.validAt q).Pairwise fun a b => a.index < b.index :=
  (ascending_terminals hcount).filter _

/-- States with the same valid terminals have the same list of them. -/
theorem validAt_eq_iff (hcount : t.terminalCount ≤ 65535) {p q : StateId} :
    t.validAt p.toNat = t.validAt q.toNat ↔ ∀ s, t.Valid p s ↔ t.Valid q s := by
  constructor
  · intro h s
    rw [← mem_validAt hcount, h, mem_validAt hcount]
  · intro h
    refine List.filter_congr fun s hs => Bool.eq_iff_iff.2 ?_
    have hmem := h s
    rw [← mem_validAt hcount, ← mem_validAt hcount, validAt, validAt, List.mem_filter,
      List.mem_filter] at hmem
    exact ⟨fun hp => (hmem.1 ⟨hs, hp⟩).2, fun hq => (hmem.2 ⟨hs, hq⟩).2⟩

theorem lexModes_of_compile {g : Grammar} {policy : ConflictPolicy}
    (h : Table.compile g policy = .ok t) : t.extras = g.extras.toArray ∧
      Compile.lexModes g t.actions t.stateCount = (t.lexModes, t.stateModes) := by
  rw [Table.compile] at h
  obtain ⟨rows, _, h⟩ := exists_of_bind_eq_ok h
  cases h
  exact ⟨rfl, rfl⟩

/-- The modes of a compiled table are those that the search finds for the valid sets. -/
theorem numbered_of_compile {g : Grammar} {policy : ConflictPolicy}
    (h : Table.compile g policy = .ok t) : ∃ index, Compile.Numbered (t.lexModes, index, t.stateModes)
      t.terminals ((List.range t.stateCount).map t.validAt) := by
  obtain ⟨hfrom, _⟩ := compile_eq_ok h
  obtain ⟨hextras, hmodes⟩ := lexModes_of_compile h
  have hvalid : Compile.validIn g t.actions = t.validAt := by
    funext q
    simp only [Compile.validIn, validAt, terminals, hfrom.terminalCount, hfrom.symbols, hextras,
      SymbolSet.contains_ofList, List.contains_toArray]
  have hnumbered := Compile.numbered_foldl (Compile.numbered_modeSearch g)
    (Compile.validIn g t.actions) t.stateCount
  rw [Compile.lexModes_eq, Prod.mk.injEq] at hmodes
  rw [← hmodes.1, ← hmodes.2, terminals, hfrom.terminalCount, ← hvalid]
  exact ⟨_, hnumbered⟩

/-- The lex modes of a compiled table are its valid sets, each under one number, as long as there are
numbers of 16 bits for all of them. In the mode of a state just the terminals are valid that are extras
or have an action there, and all terminals are in the mode of errors. -/
theorem lexModes_eq_validSets {d : GrammarDef} {g : Grammar} {policy : ConflictPolicy}
    (hload : Grammar.load d = .ok g) (h : Table.compile g policy = .ok t)
    (hsets : t.validSets.dedup.length ≤ 65536) :
    ((t.lexModes.toList.map Array.toList).Nodup ∧
        ∀ set, set ∈ t.lexModes.toList.map Array.toList ↔ set ∈ t.validSets) ∧
      (∀ state : StateId, state.toNat < t.stateCount →
        (t.validSymbols (t.lexMode state)).toList.Pairwise (fun a b => a.index < b.index) ∧
          ∀ s, s ∈ t.validSymbols (t.lexMode state) ↔ t.Valid state s) ∧
      ((t.validSymbols LexMode.error).toList.Pairwise (fun a b => a.index < b.index) ∧
        ∀ s, s ∈ t.validSymbols LexMode.error ↔ t.isTerminal s = true) ∧
      ∀ p q : StateId, p.toNat < t.stateCount → q.toNat < t.stateCount →
        (t.lexMode p = t.lexMode q ↔ ∀ s, t.Valid p s ↔ t.Valid q s) := by
  have hg := Grammar.load_wellFormed hload
  have hcount : t.terminalCount ≤ 65535 := by
    have hterminals := hg.augmented_lt
    have hsymbols := hg.size
    rw [(compile_eq_ok h).1.terminalCount]
    omega
  obtain ⟨index, hnumbered⟩ := numbered_of_compile h
  -- the numbers have 16 bits, so that none of them is cut off
  have hmode : ∀ state : StateId, state.toNat < t.stateCount → ∃ i : Nat, i < 65536 ∧
      t.lexModes[i]? = some (t.validAt state.toNat).toArray ∧ t.lexMode state = i.toUInt16 := by
    intro state hstate
    obtain ⟨i, hi, hmode⟩ := hnumbered.mode state.toNat (t.validAt state.toNat) (by simp [hstate])
    obtain ⟨hlt, _⟩ := Array.getElem?_eq_some_iff.1 hi
    refine ⟨i, ?_, hi, ?_⟩
    · exact Nat.lt_of_lt_of_le hlt (Nat.le_trans (Nat.le_of_eq hnumbered.size_eq) hsets)
    · rw [lexMode, Array.getD_eq_getD_getElem?, hmode, Option.getD_some]
  have hvalidSymbols : ∀ state : StateId, state.toNat < t.stateCount →
      t.validSymbols (t.lexMode state) = (t.validAt state.toNat).toArray := by
    intro state hstate
    obtain ⟨i, hlt, hi, hmode⟩ := hmode state hstate
    rw [validSymbols, hmode, show i.toUInt16.toNat = i from UInt16.toNat_ofNat_of_lt' hlt,
      Array.getD_eq_getD_getElem?, hi, Option.getD_some]
  have herror : t.validSymbols LexMode.error = t.terminals.toArray := by
    rw [validSymbols, Array.getD_eq_getD_getElem?]
    exact congrArg (Option.getD · #[]) hnumbered.zero
  refine ⟨⟨hnumbered.nodup, fun set => hnumbered.mem_iff⟩, fun state hstate => ?_, ?_,
    fun p q hp hq => ?_⟩
  · rw [hvalidSymbols state hstate]
    refine ⟨ascending_validAt hcount state.toNat, fun s => ?_⟩
    rw [List.mem_toArray, mem_validAt hcount]
  · rw [herror]
    refine ⟨ascending_terminals hcount, fun s => ?_⟩
    rw [List.mem_toArray, mem_terminals hcount]
  · rw [← validAt_eq_iff hcount]
    constructor
    · intro heq
      refine Compile.toArray_injective ?_
      rw [← hvalidSymbols p hp, ← hvalidSymbols q hq, heq]
    · intro heq
      obtain ⟨i, _, hi, hpmode⟩ := hmode p hp
      obtain ⟨j, _, hj, hqmode⟩ := hmode q hq
      rw [← heq] at hj
      have hij := ((hnumbered.index _ i).2 hi).symm.trans ((hnumbered.index _ j).2 hj)
      rw [hpmode, hqmode, Option.some.inj hij]

/-- Behind an optional token nothing but the end may follow, which is a mode of its own. -/
theorem lexModes_optionalToken :
    Grammar.load .optionalToken = .ok .optionalToken ∧
      Table.compile .optionalToken .strict = .ok .optionalToken ∧
      Table.optionalToken.validSets.dedup.length ≤ 65536 ∧
      (∀ s, s ∈ Table.optionalToken.validSymbols (Table.optionalToken.lexMode 1) ↔
        Table.optionalToken.Valid 1 s) ∧
      Table.optionalToken.lexMode 0 ≠ Table.optionalToken.lexMode 1 := by
  have hsets : Table.optionalToken.validSets.dedup.length ≤ 65536 :=
    Nat.le_trans (List.dedup_sublist _).length_le (by decide)
  obtain ⟨_, hstates, _, hmodes⟩ := lexModes_eq_validSets load_optionalToken compile_optionalToken hsets
  refine ⟨load_optionalToken, compile_optionalToken, hsets, (hstates 1 (by decide)).2, fun heq => ?_⟩
  exact absurd ((hmodes 0 1 (by decide) (by decide)).1 heq ⟨1⟩) (by decide +kernel)

end Table

end IncrementalLR
