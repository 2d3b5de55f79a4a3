import IncrementalLR.Parse.Recovery
import IncrementalLR.Proofs.Language
import IncrementalLR.Proofs.Table.Acceptance
import Mathlib.Data.List.Lex

/-!
# Missing tokens

The queue of the search holds insertions of one length, and behind them those of them that were found
to go on with one more symbol. So it comes to all insertions of one length before it comes to a longer
one, and to those of one length in the order of their symbols. The first insertion that it finds is
therefore the least of the shortest.
-/

namespace IncrementalLR

/-- The terminals of a compiled table have numbers that fit. -/
theorem Table.terminalCount_le {g : Grammar} {t : Table} (hg : g.WellFormed)
    (hfrom : t.CompiledFrom g) : t.terminalCount ≤ 65536 := by
  have hterminals := hg.augmented_lt
  have hbound := hg.size
  rw [hfrom.terminalCount]
  omega

namespace Recovery

variable {t : Table} {states after : List StateId} {symbols : List Symbol} {lookahead s : Symbol}
  {limit : Nat} {insertion longer found : Insertion}

/-- The symbols of the insertion can be consumed one after the other, and lead to its states. -/
def Insertion.ComesFrom (t : Table) (states : List StateId) (insertion : Insertion) : Prop :=
  insertion.symbols.foldlM (simulate t) states = some insertion.states

/-- The insertions with so many of the symbols that can be consumed, in order. -/
def Insertion.level (t : Table) (symbols : List Symbol) (states : List StateId) : Nat → List Insertion
  | 0 => [⟨[], states⟩]
  | n + 1 => (level t symbols states n).flatMap (·.extensions t symbols)

/-! ### Extensions -/

theorem simulate_nil (t : Table) (s : Symbol) : simulate t [] s = none := rfl

/-- A symbol without an action in the last state can not be consumed anyway. -/
theorem simulate_of_action_eq_error {top : StateId} {below : List StateId}
    (h : t.action top s = .error) : simulate t (top :: below) s = none := by
  rw [simulate, simulationLimit, consume, firstAction, h]

theorem Insertion.extend?_eq (t : Table) (insertion : Insertion) (s : Symbol) :
    insertion.extend? t s
      = (simulate t insertion.states s).map fun after => ⟨insertion.symbols ++ [s], after⟩ := by
  rw [extend?]
  split
  · rename_i hnil
    rw [hnil, simulate_nil]
    rfl
  · rename_i top below hstates
    split
    · rename_i herror
      rw [hstates, simulate_of_action_eq_error herror]
      rfl
    · rfl

theorem Insertion.mem_extensions_iff :
    longer ∈ insertion.extensions t symbols ↔ ∃ s ∈ symbols,
      longer.symbols = insertion.symbols ++ [s] ∧
        simulate t insertion.states s = some longer.states := by
  rw [extensions, List.mem_filterMap]
  constructor
  · rintro ⟨s, hs, hlonger⟩
    rw [extend?_eq] at hlonger
    obtain ⟨after, hafter, rfl⟩ := Option.map_eq_some_iff.1 hlonger
    exact ⟨s, hs, rfl, hafter⟩
  · rintro ⟨s, hs, hsymbols, hafter⟩
    refine ⟨s, hs, ?_⟩
    rw [extend?_eq, hafter, Option.map_some, ← hsymbols]

/-! ### Levels -/

theorem Insertion.mem_level_iff {n : Nat} :
    insertion ∈ level t symbols states n ↔
      insertion.symbols.length = n ∧ insertion.symbols ⊆ symbols ∧ insertion.ComesFrom t states := by
  induction n generalizing insertion with
  | zero =>
      rw [level, List.mem_singleton]
      constructor
      · rintro rfl
        exact ⟨rfl, List.nil_subset _, rfl⟩
      · rintro ⟨hlength, _, hcomes⟩
        obtain ⟨found, after⟩ := insertion
        obtain rfl : found = [] := List.length_eq_zero_iff.1 hlength
        rw [ComesFrom, List.foldlM_nil] at hcomes
        cases hcomes
        rfl
  | succ n ih =>
      rw [level, List.mem_flatMap]
      constructor
      · rintro ⟨before, hbefore, hlonger⟩
        obtain ⟨hlength, hsubset, hcomes⟩ := ih.1 hbefore
        obtain ⟨s, hs, hsymbols, hafter⟩ := mem_extensions_iff.1 hlonger
        rw [ComesFrom, hsymbols]
        refine ⟨?_, ?_, ?_⟩
        · rw [List.length_append, hlength, List.length_singleton]
        · exact List.append_subset.2 ⟨hsubset, List.cons_subset.2 ⟨hs, List.nil_subset _⟩⟩
        · rw [List.foldlM_append, show before.symbols.foldlM (simulate t) states = _ from hcomes]
          simpa using hafter
      · rintro ⟨hlength, hsubset, hcomes⟩
        rcases insertion.symbols.eq_nil_or_concat' with hnil | ⟨front, s, hsymbols⟩
        · rw [hnil] at hlength
          cases hlength
        · rw [hsymbols, List.length_append, List.length_singleton] at hlength
          rw [hsymbols, List.append_subset, List.cons_subset] at hsubset
          rw [ComesFrom, hsymbols, List.foldlM_append] at hcomes
          obtain ⟨before, hbefore, hafter⟩ := Option.bind_eq_some_iff.1 hcomes
          refine ⟨⟨front, before⟩, ih.2 ⟨Nat.succ.inj hlength, hsubset.1, hbefore⟩,
            mem_extensions_iff.2 ⟨s, hsubset.2.1, hsymbols, ?_⟩⟩
          simpa using hafter

/-- Longer sequences stay in the order of those in front. -/
theorem append_lt_append_of_lt {a b : List Nat} (h : a < b) (hlength : a.length = b.length)
    (c d : List Nat) : a ++ c < b ++ d := by
  induction h with
  | nil => cases hlength
  | rel hlt => exact .rel hlt
  | cons _ ih => exact .cons (ih (Nat.succ.inj hlength))

/-- Insertions stand in the order of their symbols. -/
def Insertion.Before (a b : Insertion) : Prop :=
  a.symbols.map Symbol.index < b.symbols.map Symbol.index

theorem Insertion.pairwise_level (hsymbols : symbols.Pairwise fun a b => a.index < b.index)
    (n : Nat) : (level t symbols states n).Pairwise Before := by
  induction n with
  | zero => exact List.pairwise_singleton _ _
  | succ n ih =>
      rw [level, List.pairwise_flatMap]
      constructor
      · intro before _
        rw [extensions, List.pairwise_filterMap]
        refine hsymbols.imp ?_
        intro s s' hlt a ha b hb
        rw [extend?_eq] at ha hb
        obtain ⟨_, _, rfl⟩ := Option.map_eq_some_iff.1 ha
        obtain ⟨_, _, rfl⟩ := Option.map_eq_some_iff.1 hb
        rw [Before, List.map_append, List.map_append]
        exact List.Lex.append_left _ (.rel hlt) _
      · refine ih.imp_of_mem ?_
        intro a b ha hb hlt x hx y hy
        obtain ⟨s, _, hxs, _⟩ := mem_extensions_iff.1 hx
        obtain ⟨s', _, hys, _⟩ := mem_extensions_iff.1 hy
        rw [Before, hxs, hys, List.map_append, List.map_append]
        apply append_lt_append_of_lt hlt
        rw [List.length_map, List.length_map, (mem_level_iff.1 ha).1, (mem_level_iff.1 hb).1]

/-! ### The queue -/

/-- Insertions that have no room for another symbol are passed over. -/
theorem search_eq_none {queue : List Insertion}
    (h : ∀ insertion ∈ queue, limit ≤ insertion.symbols.length) :
    search t symbols lookahead limit queue = none := by
  induction queue with
  | nil => rw [search]
  | cons insertion rest ih =>
      obtain ⟨hfirst, hrest⟩ := List.forall_mem_cons.1 h
      rw [search, if_pos hfirst]
      exact ih hrest

/-- The insertions in front of the queue are all tried before those behind them, and leave their
extensions behind the queue. -/
theorem search_append {front : List Insertion} (rest : List Insertion)
    (h : ∀ insertion ∈ front, insertion.symbols.length < limit) :
    search t symbols lookahead limit (front ++ rest) =
      ((front.flatMap (·.extensions t symbols)).find? (·.precedes t lookahead)).or
        (search t symbols lookahead limit (rest ++ front.flatMap (·.extensions t symbols))) := by
  induction front generalizing rest with
  | nil => simp
  | cons insertion front ih =>
      obtain ⟨hfirst, hfront⟩ := List.forall_mem_cons.1 h
      rw [List.cons_append, search, if_neg (Nat.not_le_of_lt hfirst)]
      simp only
      rw [List.flatMap_cons, List.find?_append]
      cases (insertion.extensions t symbols).find? (·.precedes t lookahead) with
      | some found => rfl
      | none =>
          rw [Option.none_or, ← List.append_assoc, ← ih _ hfront, List.append_assoc]

/-- The search goes through the lengths, each with all of its insertions in order. -/
theorem search_level (n : Nat) :
    search t symbols lookahead limit (Insertion.level t symbols states n) =
      (List.range' (n + 1) (limit - n)).findSome? fun m =>
        (Insertion.level t symbols states m).find? (·.precedes t lookahead) := by
  induction hleft : limit - n generalizing n with
  | zero =>
      refine search_eq_none fun insertion hinsertion => ?_
      rw [(Insertion.mem_level_iff.1 hinsertion).1]
      exact Nat.sub_eq_zero_iff_le.1 hleft
  | succ left ih =>
      have hroom : ∀ insertion ∈ Insertion.level t symbols states n,
          insertion.symbols.length < limit := by
        intro insertion hinsertion
        rw [(Insertion.mem_level_iff.1 hinsertion).1]
        omega
      calc search t symbols lookahead limit (Insertion.level t symbols states n)
          = ((Insertion.level t symbols states (n + 1)).find? (·.precedes t lookahead)).or
              (search t symbols lookahead limit (Insertion.level t symbols states (n + 1))) := by
            rw [← List.append_nil (Insertion.level t symbols states n), search_append [] hroom,
              List.nil_append]
            rfl
        _ = ((Insertion.level t symbols states (n + 1)).find? (·.precedes t lookahead)).or
              ((List.range' (n + 1 + 1) left).findSome? fun m =>
                (Insertion.level t symbols states m).find? (·.precedes t lookahead)) := by
            rw [ih (n + 1) (by omega)]
        _ = _ := by
            rw [List.range'_succ, List.findSome?_cons]
            cases (Insertion.level t symbols states (n + 1)).find? (·.precedes t lookahead) with
            | some found => rfl
            | none => rfl

theorem missingTokens_eq : missingTokens t states lookahead limit =
    (List.range' 1 limit).findSome? fun n =>
      (Insertion.level t (insertable t) states n).find? (·.precedes t lookahead) :=
  search_level 0

/-- Nothing is found if the lookahead can not be consumed behind any insertion. -/
theorem not_precedes_of_missingTokens (h : missingTokens t states lookahead limit = none) {n : Nat}
    (hpos : 0 < n) (hle : n ≤ limit) (hinsertion : insertion ∈ Insertion.level t (insertable t) states n) :
    ¬ insertion.precedes t lookahead = true := by
  rw [missingTokens_eq, List.findSome?_eq_none_iff] at h
  have hnone := h n (List.mem_range'_1.2 (by omega))
  exact List.find?_eq_none.1 hnone insertion hinsertion

/-- What is found is the first of its level behind which the lookahead can be consumed, and there is
none in the levels of smaller lengths. -/
theorem exists_level_of_missingTokens
    (h : missingTokens t states lookahead limit = some insertion) :
    0 < insertion.symbols.length ∧ insertion.symbols.length ≤ limit ∧
      insertion.precedes t lookahead = true ∧
      (∃ front behind, Insertion.level t (insertable t) states insertion.symbols.length
        = front ++ insertion :: behind ∧ ∀ before ∈ front, ¬ before.precedes t lookahead = true) ∧
      ∀ n, 0 < n → n < insertion.symbols.length →
        ∀ shorter ∈ Insertion.level t (insertable t) states n,
          ¬ shorter.precedes t lookahead = true := by
  rw [missingTokens_eq] at h
  obtain ⟨passed, n, left, hrange, hfound, hpassed⟩ := List.findSome?_eq_some_iff.1 h
  obtain ⟨hprecedes, front, behind, hlevel, hfront⟩ := List.find?_eq_some_iff_append.1 hfound
  have hlength : insertion.symbols.length = n := by
    have hmem : insertion ∈ Insertion.level t (insertable t) states n := by
      rw [hlevel]
      exact List.mem_append_right _ List.mem_cons_self
    exact (Insertion.mem_level_iff.1 hmem).1
  have hn : n ∈ List.range' 1 limit := by
    rw [hrange]
    exact List.mem_append_right _ List.mem_cons_self
  have hbounds := List.mem_range'_1.1 hn
  rw [hlength]
  refine ⟨by omega, by omega, hprecedes, ⟨front, behind, hlevel, ?_⟩, ?_⟩
  · intro before hbefore
    simpa using hfront before hbefore
  · intro m hpos hlt shorter hshorter
    have hm : m ∈ List.range' 1 limit := List.mem_range'_1.2 (by omega)
    have hsorted : (passed ++ n :: left).Pairwise (· < ·) := hrange ▸ List.pairwise_lt_range'
    rw [hrange] at hm
    rcases List.mem_append.1 hm with hm | hm
    · exact List.find?_eq_none.1 (hpassed m hm) shorter hshorter
    · obtain ⟨_, hbehind, _⟩ := List.pairwise_append.1 hsorted
      rcases List.mem_cons.1 hm with rfl | hm
      · exact absurd hlt (Nat.lt_irrefl m)
      · exact absurd ((List.pairwise_cons.1 hbehind).1 m hm) (Nat.not_lt_of_gt hlt)

/-- What is found can be put in. -/
theorem spec_of_missingTokens (h : missingTokens t states lookahead limit = some insertion) :
    insertion.symbols ⊆ insertable t ∧ insertion.symbols ≠ [] ∧ insertion.ComesFrom t states ∧
      insertion.precedes t lookahead = true := by
  obtain ⟨hpos, _, hprecedes, ⟨front, behind, hlevel, _⟩, _⟩ := exists_level_of_missingTokens h
  have hmem : insertion ∈ Insertion.level t (insertable t) states insertion.symbols.length := by
    rw [hlevel]
    exact List.mem_append_right _ List.mem_cons_self
  obtain ⟨_, hsubset, hcomes⟩ := Insertion.mem_level_iff.1 hmem
  exact ⟨hsubset, List.length_pos_iff.1 hpos, hcomes, hprecedes⟩

/-- The insertions that may be made in front of a lookahead: so many terminals at most, but none that
is not there in the text anyway, that can be consumed one after the other and the lookahead then. -/
structure Insertion.Fits (t : Table) (states : List StateId) (lookahead : Symbol) (limit : Nat)
    (insertion : Insertion) : Prop where
  ne_nil : insertion.symbols ≠ []
  length_le : insertion.symbols.length ≤ limit
  terminals : ∀ s ∈ insertion.symbols, t.isTerminal s = true ∧ s ≠ Symbol.eof ∧ s ∉ t.extras ∧
    s ∉ t.externals
  comesFrom : insertion.symbols.foldlM (simulate t) states = some insertion.states
  lookahead : (simulate t insertion.states lookahead).isSome = true

theorem mem_insertable_iff (hcount : t.terminalCount ≤ 65536) :
    s ∈ insertable t ↔ t.isTerminal s = true ∧ s ≠ Symbol.eof ∧ s ∉ t.extras ∧ s ∉ t.externals := by
  have hindex : ∀ i, i ∈ (List.range t.terminalCount).drop 1 ↔ 0 < i ∧ i < t.terminalCount := by
    intro i
    rw [List.range_eq_range', List.drop_range', List.mem_range'_1]
    omega
  have hterminal : s ∈ ((List.range t.terminalCount).drop 1).map Symbol.ofIndex ↔
      t.isTerminal s = true ∧ s ≠ Symbol.eof := by
    rw [List.mem_map, Table.isTerminal, decide_eq_true_eq]
    constructor
    · rintro ⟨i, hi, rfl⟩
      obtain ⟨hpos, hlt⟩ := (hindex i).1 hi
      have hofIndex := Symbol.index_ofIndex (Nat.lt_of_lt_of_le hlt hcount)
      refine ⟨by rwa [hofIndex], fun heof => ?_⟩
      rw [heof] at hofIndex
      exact absurd hofIndex (Nat.ne_of_lt hpos)
    · rintro ⟨hlt, hne⟩
      refine ⟨s.index, (hindex _).2 ⟨Nat.pos_of_ne_zero fun hzero => hne ?_, hlt⟩, s.ofIndex_index⟩
      exact Symbol.index_injective hzero
  rw [insertable, List.mem_filter, hterminal]
  simp [and_assoc]

theorem pairwise_insertable (hcount : t.terminalCount ≤ 65536) :
    (insertable t).Pairwise fun a b => a.index < b.index := by
  refine List.Pairwise.filter _ (List.pairwise_map.2 ?_)
  have hsorted : ((List.range t.terminalCount).drop 1).Pairwise (· < ·) :=
    List.pairwise_lt_range.sublist (List.drop_sublist _ _)
  refine hsorted.imp_of_mem ?_
  intro a b ha hb hlt
  have hlta := List.mem_range.1 (List.mem_of_mem_drop ha)
  have hltb := List.mem_range.1 (List.mem_of_mem_drop hb)
  rwa [Symbol.index_ofIndex (by omega), Symbol.index_ofIndex (by omega)]

theorem Insertion.fits_iff (hcount : t.terminalCount ≤ 65536) :
    insertion.Fits t states lookahead limit ↔ 0 < insertion.symbols.length ∧
      insertion.symbols.length ≤ limit ∧
      insertion ∈ level t (insertable t) states insertion.symbols.length ∧
      insertion.precedes t lookahead = true := by
  rw [mem_level_iff]
  constructor
  · intro h
    refine ⟨List.length_pos_iff.2 h.ne_nil, h.length_le, ⟨rfl, ?_, h.comesFrom⟩, h.lookahead⟩
    exact fun s hs => (mem_insertable_iff hcount).2 (h.terminals s hs)
  · rintro ⟨hpos, hle, ⟨_, hsubset, hcomes⟩, hprecedes⟩
    exact ⟨List.length_pos_iff.1 hpos, hle,
      fun s hs => (mem_insertable_iff hcount).1 (hsubset hs), hcomes, hprecedes⟩

theorem fits_of_missingTokens (hcount : t.terminalCount ≤ 65536)
    (h : missingTokens t states lookahead limit = some insertion) :
    insertion.Fits t states lookahead limit := by
  obtain ⟨hpos, hle, hprecedes, ⟨front, behind, hlevel, _⟩, _⟩ := exists_level_of_missingTokens h
  refine (Insertion.fits_iff hcount).2 ⟨hpos, hle, ?_, hprecedes⟩
  rw [hlevel]
  exact List.mem_append_right _ List.mem_cons_self

theorem isSome_missingTokens (hcount : t.terminalCount ≤ 65536)
    (h : insertion.Fits t states lookahead limit) :
    (missingTokens t states lookahead limit).isSome = true := by
  obtain ⟨hpos, hle, hmem, hprecedes⟩ := (Insertion.fits_iff hcount).1 h
  rw [Option.isSome_iff_ne_none]
  intro hnone
  exact not_precedes_of_missingTokens hnone hpos hle hmem hprecedes

/-- What is found is no longer than anything else that fits, and in front of what is as long. -/
theorem least_of_missingTokens (hcount : t.terminalCount ≤ 65536)
    (h : missingTokens t states lookahead limit = some insertion) {other : Insertion}
    (hother : other.Fits t states lookahead limit) :
    insertion.symbols.length ≤ other.symbols.length ∧
      (insertion.symbols.length = other.symbols.length → insertion.symbols = other.symbols ∨
        insertion.symbols.map Symbol.index < other.symbols.map Symbol.index) := by
  obtain ⟨hpos, _, hmem, hprecedes⟩ := (Insertion.fits_iff hcount).1 hother
  obtain ⟨_, _, _, ⟨front, behind, hlevel, hfront⟩, hshorter⟩ := exists_level_of_missingTokens h
  refine ⟨Nat.le_of_not_lt fun hlt => hshorter _ hpos hlt other hmem hprecedes, ?_⟩
  intro hlength
  -- the insertions of this length stand in order, and `other` is not in front of what is found
  have hsorted : (Insertion.level t (insertable t) states insertion.symbols.length).Pairwise
      Insertion.Before :=
    Insertion.pairwise_level (pairwise_insertable hcount) _
  rw [← hlength, hlevel] at hmem
  rw [hlevel] at hsorted
  rcases List.mem_append.1 hmem with hmem | hmem
  · exact absurd hprecedes (hfront other hmem)
  · rcases List.mem_cons.1 hmem with rfl | hmem
    · exact .inl rfl
    · obtain ⟨_, hbehind, _⟩ := List.pairwise_append.1 hsorted
      exact .inr ((List.pairwise_cons.1 hbehind).1 other hmem)

end Recovery

/-- Missing tokens are found exactly where some can be put in, and they are the least of the
shortest. -/
theorem Table.missingTokens_spec {d : GrammarDef} {g : Grammar} {policy : ConflictPolicy} {t : Table}
    (hg : Grammar.load d = .ok g) (ht : Table.compile g policy = .ok t) (states : List StateId)
    (lookahead : Symbol) (limit : Nat) :
    ((Recovery.missingTokens t states lookahead limit).isSome = true ↔
      ∃ i : Recovery.Insertion, i.Fits t states lookahead limit) ∧
    ∀ i, Recovery.missingTokens t states lookahead limit = some i →
      i.Fits t states lookahead limit ∧
        ∀ j : Recovery.Insertion, j.Fits t states lookahead limit →
          i.symbols.length ≤ j.symbols.length ∧ (i.symbols.length = j.symbols.length →
            i.symbols = j.symbols ∨
              i.symbols.map Symbol.index < j.symbols.map Symbol.index) := by
  obtain ⟨hfrom, _⟩ := Table.compile_eq_ok ht
  have hcount := Table.terminalCount_le (Grammar.load_wellFormed hg) hfrom
  exact ⟨⟨fun hsome => (Option.isSome_iff_exists.1 hsome).imp fun _ hi =>
        Recovery.fits_of_missingTokens hcount hi,
      fun ⟨_, hi⟩ => Recovery.isSome_missingTokens hcount hi⟩,
    fun _ hi => ⟨Recovery.fits_of_missingTokens hcount hi, fun _ hj =>
      Recovery.least_of_missingTokens hcount hi hj⟩⟩

/-- The token is missing where the text ends and it could stand. -/
theorem missingTokens_optionalToken : Grammar.load .optionalToken = .ok .optionalToken ∧
    Table.compile .optionalToken .strict = .ok .optionalToken ∧
    ∃ i, Recovery.missingTokens .optionalToken [0] Symbol.eof 2 = some i ∧
      i.Fits .optionalToken [0] Symbol.eof 2 ∧
        ∀ j : Recovery.Insertion, j.Fits .optionalToken [0] Symbol.eof 2 →
          i.symbols.length ≤ j.symbols.length ∧ (i.symbols.length = j.symbols.length →
            i.symbols = j.symbols ∨
              i.symbols.map Symbol.index < j.symbols.map Symbol.index) := by
  obtain ⟨hfound, hleast⟩ := Table.missingTokens_spec load_optionalToken compile_optionalToken [0]
    Symbol.eof 2
  have hfits : (⟨[⟨1⟩], [1, 0]⟩ : Recovery.Insertion).Fits .optionalToken [0] Symbol.eof 2 := by
    refine ⟨by decide, by decide, ?_, by decide +kernel, by decide +kernel⟩
    change ∀ s ∈ [(⟨1⟩ : Symbol)], _
    decide +kernel
  obtain ⟨i, hi⟩ := Option.isSome_iff_exists.1 (hfound.2 ⟨_, hfits⟩)
  exact ⟨load_optionalToken, compile_optionalToken, i, hi, hleast i hi⟩

end IncrementalLR
