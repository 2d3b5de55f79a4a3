import IncrementalLR.Proofs.Table.Driver
import IncrementalLR.Proofs.Table.Range

/-!
# Entries of a table with conflicts

However the conflicts of a grammar were settled, an entry of the compiled table holds nothing but what
its state offers on its symbol. So a shift goes to the successor, a reduction is by a complete item
that the terminal follows, and a shift that lost a conflict is recorded with the successor too.
-/

namespace IncrementalLR

variable {g : Grammar} {policy : ConflictPolicy} {t : Table} {state next : StateId} {s : Symbol}

open KernelFollows (states)

theorem nextSymbol?_start (hg : g.WellFormed) :
    g.nextSymbol? ⟨0, 0⟩ = some g.start ∧ g.nextSymbol? ⟨0, 1⟩ = none := by
  obtain ⟨p, hp, _, hrhs⟩ := hg.start
  constructor
  · exact Grammar.nextSymbol?_eq_some.2 ⟨p, hp, by rw [hrhs]; rfl⟩
  · refine Option.eq_none_iff_forall_ne_some.2 fun s hs => ?_
    obtain ⟨p', hp', hs⟩ := Grammar.nextSymbol?_eq_some.1 hs
    rw [hp, Option.some.injEq] at hp'
    rw [← hp', hrhs] at hs
    cases hs

namespace Table

/-- Ambiguous entries too are few enough for the numbers of a table. -/
structure EntriesFit (t : Table) : Prop extends t.NumbersFit where
  ambigs : t.ambigs.size ≤ 2 ^ 32

/-- The symbol has a column in the table, or is that of errors, whose entries are all errors. -/
def Has (t : Table) (s : Symbol) : Prop := s = Symbol.error ∨ s.index < t.symbols.size

/-- What a state offers on a symbol. -/
inductive Offers (g : Grammar) (q : Nat) (s : Symbol) : Action → Prop
  | shift (target : Nat) (hs : g.isTerminal s = true) (hstep : (states g).step? q s = some target) :
      Offers g q s (.shift target.toUInt32)
  | goto (target : Nat) (hs : g.isTerminal s = false) (hstep : (states g).step? q s = some target) :
      Offers g q s (.goto target.toUInt32)
  | reduce (p : Nat) (hs : g.isTerminal s = true) (hcomplete : Compile.Completes g q p s) :
      Offers g q s (Candidates.reduceAction p)

theorem offers_of_mem_actions {q : Nat} (hs : g.isTerminal s = true) {action : Action}
    (h : action ∈ ((Compile.offerOf g q).candidates s).actions) : Offers g q s action := by
  rcases Compile.mem_actions.1 h with ⟨target, hstep, rfl⟩ | ⟨p, hcomplete, rfl⟩
  · exact .shift target hs hstep
  · exact .reduce p hs hcomplete

/-- The actions of an entry are those that are kept. -/
theorem actionList_of_entry {rows : Compile.Builder} (hambigs : t.ambigs = rows.ambigs)
    (hfit : t.ambigs.size ≤ 2 ^ 32) {kept : List Action}
    (hkept : ∀ action ∈ kept, action ≠ .error ∧ ∀ entry, action ≠ .ambig entry)
    (h : Compile.Entry rows kept (t.action state s)) : t.actionList state s = kept := by
  rw [actionList]
  rcases kept with _ | ⟨single, _ | ⟨second, rest⟩⟩
  · rw [show t.action state s = .error from h]
  · obtain ⟨herror, hambig⟩ := hkept single (List.mem_singleton_self single)
    rw [show t.action state s = single from h]
    cases single with
    | error => exact absurd rfl herror
    | ambig entry => exact absurd rfl (hambig entry)
    | _ => rfl
  · obtain ⟨i, hentry, hi⟩ := h
    obtain ⟨hlt, _⟩ := Array.getElem?_eq_some_iff.1 hi
    rw [hambigs] at hfit
    have hnumber : i.toUInt32.toNat = i := UInt32.toNat_ofNat_of_lt' (Nat.lt_of_lt_of_le hlt hfit)
    rw [hentry]
    simp only
    rw [ambig, hambigs, hnumber, Array.getD_eq_getD_getElem?, hi]
    rfl

/-- The actions of a terminal are those that are kept when its cell is settled. -/
theorem exists_settles (hg : g.WellFormed) (h : Table.compile g policy = .ok t) (hfit : t.EntriesFit)
    (hstate : state.toNat < (states g).kernels.size) (hs : g.isTerminal s = true)
    (hlt : s.index < g.symbols.size) : ∃ outcome,
      Compile.Settles g policy (Compile.offerOf g state.toNat) s outcome ∧
      t.actionList state s = outcome.kept := by
  obtain ⟨hfrom, rows, hrows, hactions, hambigs, _⟩ := compile_eq_ok h
  have hfilled := filled_action hg hfrom hrows hactions state hlt
  rw [if_pos hstate, Compile.Filled, if_pos hs] at hfilled
  obtain ⟨outcome, hsettles, hentry, _⟩ := hfilled
  refine ⟨outcome, hsettles, actionList_of_entry hambigs hfit.ambigs ?_ hentry⟩
  intro action haction
  exact Candidates.plain_of_mem_actions ((Candidates.settled_of_resolve hsettles).kept_subset haction)

theorem exists_settled (hg : g.WellFormed) (h : Table.compile g policy = .ok t) (hfit : t.EntriesFit)
    (hstate : state.toNat < (states g).kernels.size) (hs : g.isTerminal s = true)
    (hlt : s.index < g.symbols.size) : ∃ outcome,
      Candidates.Settled g policy (Compile.offerOf g state.toNat).kernel
        ((Compile.offerOf g state.toNat).candidates s) outcome ∧
      t.actionList state s = outcome.kept := by
  obtain ⟨outcome, hsettles, hkept⟩ := exists_settles hg h hfit hstate hs hlt
  exact ⟨outcome, Candidates.settled_of_resolve hsettles, hkept⟩

/-- The actions in a compiled table are among those that the state offers. -/
theorem offers_of_mem_actionList (hg : g.WellFormed) (h : Table.compile g policy = .ok t)
    (hfit : t.EntriesFit) (hs : t.Has s) {action : Action} (haction : action ∈ t.actionList state s) :
    Offers g state.toNat s action := by
  obtain ⟨hfrom, rows, hrows, hactions, _⟩ := compile_eq_ok h
  rcases hs with rfl | hlt
  · cases haction
  · rw [hfrom.symbols] at hlt
    have hfilled := filled_action hg hfrom hrows hactions state hlt
    split at hfilled
    · rename_i hstate
      by_cases hs : g.isTerminal s = true
      · obtain ⟨outcome, hsettled, hkept⟩ := exists_settled hg h hfit hstate hs hlt
        rw [hkept] at haction
        exact offers_of_mem_actions hs (hsettled.kept_subset haction)
      · rw [Compile.Filled, if_neg hs] at hfilled
        rw [actionList, hfilled, Compile.gotoOf] at haction
        simp only at haction
        cases hstep : (Compile.offerOf g state.toNat).edges.lookup s with
        | none =>
            rw [hstep] at haction
            cases haction
        | some target =>
            rw [hstep] at haction
            cases List.mem_singleton.1 haction
            exact .goto target (Bool.eq_false_iff.2 hs) hstep
    · rw [actionList, hfilled] at haction
      cases haction

/-- At the end of input, which is never shifted, there is an action where a production ends. -/
theorem actionList_eof_ne_nil (hg : g.WellFormed) (h : Table.compile g policy = .ok t)
    (hfit : t.EntriesFit) (hstate : state.toNat < (states g).kernels.size) {p : Nat}
    (hcompletes : Compile.Completes g state.toNat p Symbol.eof) :
    t.actionList state Symbol.eof ≠ [] := by
  have hshift : ((Compile.offerOf g state.toNat).candidates Symbol.eof).shift = none := by
    refine Option.eq_none_iff_forall_ne_some.2 fun target hstep => ?_
    obtain ⟨item, _, hnext⟩ := Lr0.exists_nextSymbol?_of_step? hg hstep
    exact (hg.nextSymbol?_usable hnext).1 rfl
  obtain ⟨outcome, hsettled, hkept⟩ := exists_settled (s := Symbol.eof) hg h hfit hstate
    (decide_eq_true hg.terminals) (Nat.lt_trans hg.terminals hg.augmented_lt)
  rw [hkept]
  exact hsettled.kept_ne_nil hshift (List.ne_nil_of_mem (Compile.mem_reduces.2 hcompletes))

/-- Behind the start symbol the start production ends. -/
theorem completes_start (hg : g.WellFormed) {target : Nat}
    (hstep : (states g).step? 0 g.start = some target) :
    target < (states g).kernels.size ∧ Compile.Completes g target 0 Symbol.eof := by
  obtain ⟨p, hp, _, hrhs⟩ := hg.start
  obtain ⟨target', hstep', hvalid⟩ :=
    (valid_start hg).step hg (Lr0.size_kernels_pos hg) (nextSymbol?_start hg).1
  rw [hstep, Option.some.injEq] at hstep'
  subst hstep'
  refine ⟨(Lr0.kernel_of_step? hg hstep).1, 1, ?_, hvalid.looks⟩
  have hlength := congrArg List.length hrhs
  rw [Production.rhs, List.length_map, Array.length_toList, List.length_singleton] at hlength
  rw [Grammar.isComplete, hp]
  simp [hlength]

/-- A production of the table is one of the grammar. -/
theorem exists_production (hfrom : t.CompiledFrom g) {p : ProductionId}
    (hlt : p.toNat < t.productions.size) : ∃ production, g.productions[p.toNat]? = some production ∧
      (t.production p).lhs = production.lhs ∧ (t.production p).rhs.toList = production.rhs := by
  rw [hfrom.productions, Array.size_map] at hlt
  have hinfo : t.production p = Compile.productionInfo g.productions[p.toNat] := by
    rw [production, hfrom.productions, Array.getD_eq_getD_getElem?, Array.getElem?_map,
      Array.getElem?_eq_getElem hlt]
    rfl
  refine ⟨_, Array.getElem?_eq_getElem hlt, ?_, ?_⟩
  · rw [hinfo]
    rfl
  · rw [hinfo]
    exact Array.toList_map

/-- The left-hand side of a production has a column. -/
theorem index_lhs_lt (hg : g.WellFormed) (hfrom : t.CompiledFrom g) {p : ProductionId}
    (hlt : p.toNat < t.productions.size) : (t.production p).lhs.index < t.symbols.size := by
  obtain ⟨production, hproduction, hlhs, _⟩ := exists_production hfrom hlt
  rw [hlhs, hfrom.symbols]
  exact (hg.lhs _ (Array.mem_of_getElem? hproduction)).2

theorem lhs_ne_error (hg : g.WellFormed) (hfrom : t.CompiledFrom g) {p : ProductionId}
    (hlt : p.toNat < t.productions.size) : (t.production p).lhs ≠ Symbol.error := by
  have hbound := hg.size
  rw [← hfrom.symbols] at hbound
  exact Symbol.ne_error_of_index_lt (Nat.lt_of_lt_of_le (index_lhs_lt hg hfrom hlt) hbound)

theorem mem_of_shiftTarget? {actions : List Action} {target : StateId}
    (h : shiftTarget? actions = some target) : .shift target ∈ actions := by
  fun_induction shiftTarget? actions with
  | case1 => cases h
  | case2 => cases h; exact List.mem_cons_self
  | case3 _ _ _ ih => exact List.mem_cons_of_mem _ (ih h)

section Fit

variable (hg : g.WellFormed) (h : Table.compile g policy = .ok t) (hfit : t.EntriesFit)

include hg h hfit

theorem toNat_toUInt32_step? {q target : Nat} (hstep : (states g).step? q s = some target) :
    target.toUInt32.toNat = target := by
  have hlt := (Lr0.kernel_of_step? hg hstep).1
  rw [← (compile_eq_ok h).1.stateCount] at hlt
  exact UInt32.toNat_ofNat_of_lt' (Nat.lt_of_lt_of_le hlt hfit.states)

theorem step?_of_shift (hs : t.Has s) (haction : .shift next ∈ t.actionList state s) :
    g.isTerminal s = true ∧ (states g).step? state.toNat s = some next.toNat := by
  generalize hshift : Action.shift next = action at haction
  cases offers_of_mem_actionList hg h hfit hs haction with
  | shift target hs hstep =>
      cases hshift
      rw [toNat_toUInt32_step? hg h hfit hstep]
      exact ⟨hs, hstep⟩
  | goto target => cases hshift
  | reduce p =>
      rw [Candidates.reduceAction] at hshift
      split at hshift <;> cases hshift

/-- The end of input is not shifted. -/
theorem shift_notMem_eof (state next : StateId) : .shift next ∉ t.actionList state Symbol.eof := by
  intro haction
  have hsize : Symbol.eof.index < t.symbols.size := by
    rw [(compile_eq_ok h).1.symbols]
    exact Nat.lt_of_lt_of_le hg.terminals (Nat.le_of_lt hg.augmented_lt)
  obtain ⟨_, hstep⟩ := step?_of_shift hg h hfit (.inr hsize) haction
  obtain ⟨_, _, hnext⟩ := Lr0.exists_nextSymbol?_of_step? hg hstep
  exact (hg.nextSymbol?_usable hnext).1 rfl

theorem step?_of_goto (hs : t.Has s) (haction : .goto next ∈ t.actionList state s) :
    (states g).step? state.toNat s = some next.toNat := by
  generalize hgoto : Action.goto next = action at haction
  cases offers_of_mem_actionList hg h hfit hs haction with
  | shift target => cases hgoto
  | goto target _ hstep =>
      cases hgoto
      rw [toNat_toUInt32_step? hg h hfit hstep]
      exact hstep
  | reduce p =>
      rw [Candidates.reduceAction] at hgoto
      split at hgoto <;> cases hgoto

theorem completes_of_reduce (hs : t.Has s) {p : ProductionId}
    (haction : .reduce p ∈ t.actionList state s) :
    p.toNat ≠ 0 ∧ Compile.Completes g state.toNat p.toNat s := by
  generalize hreduce : Action.reduce p = action at haction
  cases offers_of_mem_actionList hg h hfit hs haction with
  | shift target => cases hreduce
  | goto target => cases hreduce
  | reduce i hs hcomplete =>
      rw [Candidates.reduceAction] at hreduce
      split at hreduce
      · cases hreduce
      · rename_i hne
        cases hreduce
        obtain ⟨production, hproduction⟩ := exists_production_of_completes hcomplete
        obtain ⟨hlt, _⟩ := Array.getElem?_eq_some_iff.1 hproduction
        have hsize := hfit.productions
        rw [(compile_eq_ok h).1.productions, Array.size_map] at hsize
        have hnumber : i.toUInt32.toNat = i :=
          UInt32.toNat_ofNat_of_lt' (Nat.lt_of_lt_of_le hlt hsize)
        rw [hnumber]
        exact ⟨hne, hcomplete⟩

theorem step?_of_breakdown? (hlost : t.breakdown? state s = some next) :
    s.index < t.symbols.size ∧ (states g).step? state.toNat s = some next.toNat := by
  obtain ⟨hfrom, _⟩ := compile_eq_ok h
  have hstates := hfit.states
  rw [hfrom.stateCount] at hstates
  have hrecord : ∃ rows, Compile.buildRows (LookaheadTables.ofGrammar g) (states g) policy = .ok rows ∧
      t.breakdown = rows.breakdown.reverse := by
    have hcompile := h
    rw [Table.compile] at hcompile
    obtain ⟨rows, hrows, hcompile⟩ := exists_of_bind_eq_ok hcompile
    cases hcompile
    exact ⟨rows, hrows, rfl⟩
  obtain ⟨rows, hrows, hbreakdown⟩ := hrecord
  rw [breakdown?, hbreakdown] at hlost
  obtain ⟨entry, hfind, rfl⟩ := Option.map_eq_some_iff.1 hlost
  have hmem := List.mem_reverse.1 (List.mem_of_find?_eq_some hfind)
  have hkey : entry.1 = state ∧ entry.2.1 = s := by simpa using List.find?_some hfind
  obtain ⟨cell, hcell, target, htarget, heq⟩ := (Compile.inOrder_buildRows hg hrows).lost entry hmem
  have hindex := Compile.index_lt_of_mem_cells hg hcell
  obtain ⟨q, hq, hcell⟩ := List.mem_flatMap.1 hcell
  obtain ⟨i, _, rfl⟩ := Compile.mem_terminalCells.1 hcell
  have hq : q < 2 ^ 32 := Nat.lt_of_lt_of_le (List.mem_range.1 hq) hstates
  rw [heq] at hkey
  obtain ⟨rfl, rfl⟩ := hkey
  have hstep : (states g).step? q (Symbol.ofIndex i) = some target := htarget
  have hstate : ((Compile.offerOf g q).state.toUInt32).toNat = q := UInt32.toNat_ofNat_of_lt' hq
  rw [heq, hstate, hfrom.symbols]
  simp only
  rw [toNat_toUInt32_step? hg h hfit hstep]
  exact ⟨hindex, hstep⟩

theorem step?_of_goto? (hs : t.Has s) (hgoto : t.goto? state s = some next) :
    (states g).step? state.toNat s = some next.toNat := by
  refine step?_of_goto hg h hfit hs ?_
  rw [goto?] at hgoto
  rw [actionList]
  cases haction : t.action state s with
  | goto target =>
      rw [haction] at hgoto
      cases hgoto
      exact List.mem_singleton_self _
  | _ =>
      rw [haction] at hgoto
      cases hgoto

/-- The state behind a symbol is the successor, also where the shift lost a conflict. -/
theorem step?_of_nextState? (hs : t.Has s) (hnext : t.nextState? state s = some next) :
    (states g).step? state.toNat s = some next.toNat := by
  rw [nextState?] at hnext
  cases haction : t.action state s with
  | goto target =>
      rw [haction] at hnext
      cases hnext
      refine step?_of_goto hg h hfit hs ?_
      rw [actionList, haction]
      exact List.mem_singleton_self _
  | shift target =>
      rw [haction] at hnext
      cases hnext
      refine (step?_of_shift hg h hfit hs ?_).2
      rw [actionList, haction]
      exact List.mem_singleton_self _
  | ambig entry =>
      rw [haction] at hnext
      refine (step?_of_shift hg h hfit hs ?_).2
      rw [actionList, haction]
      exact mem_of_shiftTarget? hnext
  | _ =>
      rw [haction] at hnext
      exact (step?_of_breakdown? hg h hfit hnext).2

/-- Skipped text leads to no state. -/
theorem nextState?_error : t.nextState? state Symbol.error = none := by
  have haction : t.action state Symbol.error = .error := rfl
  rw [nextState?, haction]
  simp only
  cases hlost : t.breakdown? state Symbol.error with
  | none => rfl
  | some target =>
      have hlt := (step?_of_breakdown? hg h hfit hlost).1
      have hbound := hg.size
      rw [(compile_eq_ok h).1.symbols] at hlt
      exact absurd rfl (Symbol.ne_error_of_index_lt (Nat.lt_of_lt_of_le hlt hbound))

end Fit

/-! ### Extras -/

/-- No extra stands on the right-hand side of a production. -/
def ExtrasApart (t : Table) : Prop :=
  ∀ p ∈ t.productions, ∀ s ∈ p.rhs, (t.symbolInfo s).extra = false

/-- What is read from one state to another is a symbol of a right-hand side. -/
theorem extra_of_step? (hg : g.WellFormed) (hfrom : t.CompiledFrom g) (hapart : t.ExtrasApart)
    {q q' : Nat} (hstep : (states g).step? q s = some q') :
    (t.symbolInfo s).extra = false ∧ s.index < t.symbols.size ∧ s ≠ Symbol.eof := by
  obtain ⟨item, _, hnext⟩ := Lr0.exists_nextSymbol?_of_step? hg hstep
  have husable := hg.nextSymbol?_usable hnext
  obtain ⟨p, hp, hs⟩ := Grammar.nextSymbol?_eq_some.1 hnext
  rw [hfrom.symbols]
  refine ⟨?_, husable.2.2, husable.1⟩
  refine hapart (Compile.productionInfo p) ?_ s ?_
  · rw [hfrom.productions]
    exact Array.mem_map.2 ⟨p, Array.mem_of_getElem? hp, rfl⟩
  · have hmem := List.mem_of_getElem? hs
    rw [Production.rhs, List.mem_map] at hmem
    obtain ⟨step, hsteps, rfl⟩ := hmem
    exact Array.mem_map.2 ⟨step, Array.mem_toList_iff.1 hsteps, rfl⟩

end Table

end IncrementalLR
