import IncrementalLR.Proofs.Automaton.Canonical
import IncrementalLR.Proofs.Table.Conflict
import IncrementalLR.Proofs.Table.Rows

/-!
# The cells of a table without conflicts

When nothing had to be settled, every cell of a compiled table holds the one action that the items of
its state offer: the shift to the successor, or the reduction by the complete item that the terminal
follows.
-/

namespace IncrementalLR

variable {g : Grammar} {policy : ConflictPolicy}

open KernelFollows (states final)

namespace Compile

/-! ### What the cells say -/

theorem looks_insertComplete {prod p : Nat} {set : SymbolSet} {found : List (Nat × SymbolSet)}
    {x : Symbol} : Looks (insertComplete prod set found) p x ↔
      (p = prod ∧ set.contains x = true) ∨ Looks found p x := by
  induction found with
  | nil => rw [insertComplete, looks_cons]
  | cons entry found ih =>
      obtain ⟨p', set'⟩ := entry
      rw [insertComplete]
      split
      · rw [looks_cons]
      · split
        · rename_i heq
          subst heq
          rw [looks_cons, looks_cons, SymbolSet.contains_union, Bool.or_eq_true]
          tauto
        · rw [looks_cons, ih, looks_cons]
          tauto

theorem looks_foldr_insertComplete {items : List (Item × SymbolSet)} {p : Nat} {x : Symbol} :
    Looks (items.foldr (fun (entry : Item × SymbolSet) found =>
      insertComplete entry.1.prod entry.2 found) []) p x ↔
      ∃ item, item.prod = p ∧ Looks items item x := by
  induction items with
  | nil => simp [looks_nil]
  | cons entry items ih =>
      obtain ⟨item, set⟩ := entry
      rw [List.foldr_cons, looks_insertComplete, ih]
      constructor
      · rintro (⟨rfl, hx⟩ | ⟨other, rfl, hx⟩)
        · exact ⟨item, rfl, looks_cons.2 (.inl ⟨rfl, hx⟩)⟩
        · exact ⟨other, rfl, looks_cons.2 (.inr hx)⟩
      · rintro ⟨other, rfl, hx⟩
        rcases looks_cons.1 hx with ⟨rfl, hset⟩ | hrest
        · exact .inl ⟨rfl, hset⟩
        · exact .inr ⟨other, rfl, hrest⟩

/-- The terminal follows a complete item of the production. -/
def Completes (g : Grammar) (q p : Nat) (x : Symbol) : Prop :=
  ∃ d, g.isComplete ⟨p, d⟩ = true ∧ Looks (stateItems g q) ⟨p, d⟩ x

theorem mem_reduces {q p : Nat} {x : Symbol} :
    p ∈ ((offerOf g q).candidates x).reduces ↔ Completes g q p x := by
  have hcompletes : Looks (offerOf g q).completes p x ↔ ∃ item, item.prod = p ∧
      Looks ((stateItems g q).filter fun entry => g.isComplete entry.1) item x :=
    looks_foldr_insertComplete
  have hmem : p ∈ ((offerOf g q).candidates x).reduces ↔ Looks (offerOf g q).completes p x := by
    rw [StateOffer.candidates, List.mem_filterMap]
    constructor
    · rintro ⟨⟨p', set⟩, hset, hsome⟩
      simp only [Option.ite_none_right_eq_some, Option.some.injEq] at hsome
      obtain ⟨hx, rfl⟩ := hsome
      exact ⟨set, hset, hx⟩
    · rintro ⟨set, hset, hx⟩
      exact ⟨(p, set), hset, if_pos hx⟩
  rw [hmem, hcompletes]
  constructor
  · rintro ⟨⟨p', d⟩, rfl, hx⟩
    obtain ⟨hx, hcomplete⟩ := (KernelFollows.looks_filter g.isComplete).1 hx
    exact ⟨d, hcomplete, hx⟩
  · rintro ⟨d, hcomplete, hx⟩
    exact ⟨⟨p, d⟩, rfl, (KernelFollows.looks_filter g.isComplete).2 ⟨hx, hcomplete⟩⟩

theorem mem_actions {q : Nat} {x : Symbol} {action : Action} :
    action ∈ ((offerOf g q).candidates x).actions ↔
      (∃ target, (states g).step? q x = some target ∧ action = .shift target.toUInt32) ∨
        ∃ p, Completes g q p x ∧ action = Candidates.reduceAction p := by
  rw [Candidates.actions, List.mem_append, List.mem_map]
  refine or_congr ?_ ?_
  · rw [Candidates.shiftAction, Option.mem_toList, Option.map_eq_some_iff]
    exact exists_congr fun target => and_congr_right fun _ => eq_comm
  · exact exists_congr fun p => and_congr mem_reduces eq_comm

end Compile

namespace Table

/-- What a table keeps of its grammar. -/
structure CompiledFrom (t : Table) (g : Grammar) : Prop where
  symbols : t.symbols = g.symbols
  terminalCount : t.terminalCount = g.terminalCount
  startSymbol : t.startSymbol = g.start
  productions : t.productions = g.productions.map Compile.productionInfo
  stateCount : t.stateCount = (states g).kernels.size
  startState : t.startState = 0
  tokens : t.lexical.tokens = g.tokens
  skips : t.lexical.skips = g.skips.toArray
  keywords : t.lexical.keywords = g.keywords.toArray
  externals : t.externals = g.externals

/-- States and productions are few enough for the numbers of a table. -/
structure NumbersFit (t : Table) : Prop where
  states : t.stateCount ≤ 2 ^ 32
  productions : t.productions.size ≤ 2 ^ 32

theorem compile_eq_ok {t : Table} (h : Table.compile g policy = .ok t) :
    t.CompiledFrom g ∧ ∃ rows,
      Compile.buildRows (LookaheadTables.ofGrammar g) (states g) policy = .ok rows ∧
      t.actions = rows.actions ∧ t.ambigs = rows.ambigs ∧
      t.resolutions = rows.resolutions.reverse.toArray := by
  rw [Table.compile] at h
  obtain ⟨rows, hrows, h⟩ := exists_of_bind_eq_ok h
  cases h
  exact ⟨⟨rfl, rfl, rfl, rfl, rfl, rfl, rfl, rfl, rfl, rfl⟩, rows, hrows, rfl, rfl, rfl⟩

theorem exists_compile_of_buildRows {rows : Compile.Builder}
    (h : Compile.buildRows (LookaheadTables.ofGrammar g) (states g) policy = .ok rows) :
    ∃ t, Table.compile g policy = .ok t ∧ t.resolutions = rows.resolutions.reverse.toArray := by
  rw [Table.compile]
  simp only [h]
  exact ⟨_, rfl, rfl⟩

/-- An entry of a compiled table is filled with what its state offers on its symbol; there are none
behind the last state. -/
theorem filled_action (hg : g.WellFormed) {t : Table} (hfrom : t.CompiledFrom g)
    {rows : Compile.Builder}
    (hrows : Compile.buildRows (LookaheadTables.ofGrammar g) (states g) policy = .ok rows)
    (hactions : t.actions = rows.actions) (state : StateId) {s : Symbol}
    (hs : s.index < g.symbols.size) :
    if state.toNat < (states g).kernels.size then
      Compile.Filled g policy rows (Compile.offerOf g state.toNat, s) (t.action state s)
    else t.action state s = .error := by
  have hbound := hg.size
  have haction : t.action state s
      = rows.actions.getD (state.toNat * g.symbols.size + s.index) .error := by
    rw [Table.action, if_neg (Symbol.ne_error_of_index_lt (by omega)), hactions, hfrom.symbols]
  rw [haction, Array.getD_eq_getD_getElem?]
  by_cases hstate : state.toNat < (states g).kernels.size
  · rw [if_pos hstate]
    obtain ⟨entry, hentry, hfilled⟩ := Compile.exists_filled hg hrows hstate hs
    rw [hentry, Option.getD_some]
    exact hfilled
  · rw [if_neg hstate]
    have hsize := Compile.size_actions hg hrows
    have hbehind : rows.actions.size ≤ state.toNat * g.symbols.size + s.index := by
      calc rows.actions.size = (states g).kernels.size * g.symbols.size := hsize
        _ ≤ state.toNat * g.symbols.size := Nat.mul_le_mul_right _ (Nat.le_of_not_lt hstate)
        _ ≤ state.toNat * g.symbols.size + s.index := Nat.le_add_right _ _
    rw [Array.getElem?_eq_none hbehind]
    rfl

/-- The entries of nonterminals are the successors. -/
theorem goto?_eq (hg : g.WellFormed) {t : Table} (h : Table.compile g policy = .ok t)
    (state : StateId) {s : Symbol} (hs : g.isTerminal s = false) (hlt : s.index < g.symbols.size) :
    t.goto? state s = ((states g).step? state.toNat s).map Nat.toUInt32 := by
  obtain ⟨hfrom, rows, hrows, hactions, _⟩ := compile_eq_ok h
  have hfilled := filled_action hg hfrom hrows hactions state hlt
  rw [Table.goto?]
  by_cases hstate : state.toNat < (states g).kernels.size
  · rw [if_pos hstate, Compile.Filled, if_neg (by simp [hs])] at hfilled
    have hedges : (Compile.offerOf g state.toNat).edges = (states g).edges state.toNat := rfl
    rw [hfilled, Compile.gotoOf, Lr0.step?, hedges]
    cases ((states g).edges state.toNat).lookup s with
    | none => rfl
    | some target => rfl
  · rw [if_neg hstate] at hfilled
    rw [hfilled, Lr0.step?, Lr0.edges_eq_nil hg hstate]
    rfl

/-! ### Accepting -/

/-- A compiled table accepts at the end of input only. -/
theorem eq_eof_of_accept (hg : g.WellFormed) {t : Table} (h : Table.compile g policy = .ok t)
    {state : StateId} {s : Symbol} (hs : t.isTerminal s = true)
    (haccept : .accept ∈ t.actionList state s) : s = Symbol.eof := by
  obtain ⟨hfrom, rows, hrows, hactions, hambigs, _⟩ := compile_eq_ok h
  have hterminal : g.isTerminal s = true := by
    rwa [Table.isTerminal, hfrom.terminalCount] at hs
  have hindex : s.index < g.terminalCount := by simpa [Grammar.isTerminal] using hterminal
  have hfilled := filled_action hg hfrom hrows hactions state (Nat.lt_trans hindex hg.augmented_lt)
  have hambig : ∀ entry : UInt32, .accept ∉ (t.ambig entry).toList := by
    intro entry hmem
    rw [Table.ambig, hambigs, Array.getD_eq_getD_getElem?] at hmem
    cases hcase : rows.ambigs[entry.toNat]? with
    | none =>
        rw [hcase] at hmem
        cases hmem
    | some kept =>
        rw [hcase, Option.getD_some] at hmem
        have hnone : Compile.AmbigsSettled g policy ({} : Compile.Builder) := by
          intro kept hkept
          cases hkept with
          | _ hkept => cases hkept
        obtain ⟨o, x, outcome, hsettles, rfl, hmany⟩ :=
          (Compile.adds_buildRows hg hrows).settled hnone kept (Array.mem_of_getElem? hcase)
        obtain ⟨p, hp, hlhs, _⟩ := hg.start
        refine (Candidates.settled_of_resolve hsettles).accept_notMem ?_ hmany hmem
        rw [Grammar.itemLhs_eq hp, hlhs]
        exact hg.conflicts
  rw [Table.actionList] at haccept
  by_cases hstate : state.toNat < (states g).kernels.size
  · rw [if_pos hstate, Compile.Filled, if_pos hterminal] at hfilled
    obtain ⟨outcome, hsettles, hentry, _⟩ := hfilled
    have hkept : .accept ∈ outcome.kept := by
      cases hlist : outcome.kept with
      | nil =>
          rw [hlist] at hentry
          rw [hentry] at haccept
          cases haccept
      | cons first others =>
          rw [hlist] at hentry
          cases others with
          | nil =>
              rw [hentry] at haccept
              cases first with
              | error => cases haccept
              | ambig entry => exact absurd haccept (hambig entry)
              | _ => exact haccept
          | cons second rest =>
              obtain ⟨i, hentry, _⟩ := hentry
              rw [hentry] at haccept
              exact absurd haccept (hambig _)
    have hzero := Candidates.zero_mem_reduces_of_accept
      ((Candidates.settled_of_resolve hsettles).kept_subset hkept)
    obtain ⟨d, _, hlooks⟩ := Compile.mem_reduces.1 hzero
    exact eq_eof_of_looks_start hg hlooks
  · rw [if_neg hstate] at hfilled
    rw [hfilled] at haccept
    cases haccept

/-! ### Tables without conflicts -/

/-- Every cell of the table holds what the items of its state offer. -/
structure Faithful (t : Table) (g : Grammar) : Prop where
  compiledFrom : t.CompiledFrom g
  shift : ∀ (q q' : Nat) (s : Symbol), g.isTerminal s = true → (states g).step? q s = some q' →
    t.action q.toUInt32 s = .shift q'.toUInt32
  reduce : ∀ (q p : Nat) (x : Symbol), q < (states g).kernels.size → g.isTerminal x = true →
    Compile.Completes g q p x → t.action q.toUInt32 x = Candidates.reduceAction p
  terminal : ∀ (q : Nat) (x : Symbol), q < (states g).kernels.size → g.isTerminal x = true →
    t.action q.toUInt32 x = .error ∨
      (∃ q', (states g).step? q x = some q' ∧ t.action q.toUInt32 x = .shift q'.toUInt32) ∨
      ∃ p, Compile.Completes g q p x ∧ t.action q.toUInt32 x = Candidates.reduceAction p
  goto : ∀ (q : Nat) (s : Symbol), q < (states g).kernels.size → g.isTerminal s = false →
    s.index < g.symbols.size →
    t.goto? q.toUInt32 s = ((states g).step? q s).map Nat.toUInt32

theorem step?_lt (hg : g.WellFormed) {q q' : Nat} {s : Symbol}
    (h : (states g).step? q s = some q') : q < (states g).kernels.size := by
  by_contra hq
  rw [Lr0.step?_eq_some_iff_mem hg, Lr0.edges_eq_nil hg hq] at h
  cases h

/-- Where nothing had to be settled, the entry is the only candidate. -/
theorem action_of_filled {rows : Compile.Builder} (hnil : rows.resolutions = []) {q : Nat}
    {x : Symbol} (hx : g.isTerminal x = true) {entry : Action}
    (h : Compile.Filled g policy rows (Compile.offerOf g q, x) entry) :
    (entry ≠ .error → entry ∈ ((Compile.offerOf g q).candidates x).actions) ∧
      ∀ action ∈ ((Compile.offerOf g q).candidates x).actions, entry = action := by
  rw [Compile.Filled, if_pos hx] at h
  obtain ⟨outcome, hsettles, hentry, hreason⟩ := h
  have hnone : outcome.reason = none := by
    by_contra hne
    exact hreason hne hnil
  obtain ⟨hclear, hkept⟩ := Candidates.resolve_of_reason_none hsettles hnone
  rw [hkept] at hentry
  cases hlist : ((Compile.offerOf g q).candidates x).actions with
  | nil =>
      rw [hlist] at hentry
      exact ⟨fun hne => absurd hentry hne, by simp⟩
  | cons first others =>
      rw [hlist] at hentry hclear
      cases others with
      | nil =>
          rw [hentry]
          exact ⟨fun _ => List.mem_singleton_self first,
            fun action haction => (List.mem_singleton.1 haction).symm⟩
      | cons second rest => simp at hclear

theorem faithful_of_compile (hg : g.WellFormed) {t : Table} (h : Table.compile g policy = .ok t)
    (hresolutions : t.resolutions = #[]) (hfit : t.NumbersFit) : t.Faithful g := by
  obtain ⟨hfrom, rows, hrows, hactions, _, hresolved⟩ := compile_eq_ok h
  have hnil : rows.resolutions = [] := by
    rw [hresolved] at hresolutions
    simpa using hresolutions
  have hstates : (states g).kernels.size ≤ 2 ^ 32 := by
    rw [← hfrom.stateCount]
    exact hfit.states
  have hnumber : ∀ q < (states g).kernels.size, q.toUInt32.toNat = q :=
    fun q hq => UInt32.toNat_ofNat_of_lt' (Nat.lt_of_lt_of_le hq hstates)
  have hcell : ∀ (q : Nat) (s : Symbol), q < (states g).kernels.size → s.index < g.symbols.size →
      Compile.Filled g policy rows (Compile.offerOf g q, s) (t.action q.toUInt32 s) := by
    intro q s hq hs
    have hfilled := filled_action hg hfrom hrows hactions q.toUInt32 hs
    rwa [hnumber q hq, if_pos hq] at hfilled
  have hterminal : ∀ (q : Nat) (x : Symbol), q < (states g).kernels.size →
      g.isTerminal x = true →
      (t.action q.toUInt32 x ≠ .error →
        t.action q.toUInt32 x ∈ ((Compile.offerOf g q).candidates x).actions) ∧
      ∀ action ∈ ((Compile.offerOf g q).candidates x).actions,
        t.action q.toUInt32 x = action := by
    intro q x hq hx
    have hindex : x.index < g.terminalCount := by simpa [Grammar.isTerminal] using hx
    exact action_of_filled hnil hx (hcell q x hq (Nat.lt_trans hindex hg.augmented_lt))
  refine ⟨hfrom, ?_, ?_, ?_, ?_⟩
  · intro q q' s hs hstep
    exact (hterminal q s (step?_lt hg hstep) hs).2 _ (Compile.mem_actions.2 (.inl ⟨q', hstep, rfl⟩))
  · intro q p x hq hx hcomplete
    exact (hterminal q x hq hx).2 _ (Compile.mem_actions.2 (.inr ⟨p, hcomplete, rfl⟩))
  · intro q x hq hx
    by_cases herror : t.action q.toUInt32 x = .error
    · exact .inl herror
    · exact .inr (Compile.mem_actions.1 ((hterminal q x hq hx).1 herror))
  · intro q s hq hs hlt
    rw [goto?_eq hg h q.toUInt32 hs hlt, hnumber q hq]

end Table

end IncrementalLR
