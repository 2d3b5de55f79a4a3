import IncrementalLR.Proofs.Grammar.References
import IncrementalLR.Proofs.Table.Entries

/-!
# A token as start symbol

When the start symbol is a token the automaton reads that token and nothing else. So the first state
alone has an action on it, and its lex mode is not that of errors: the end of input is not valid there.
-/

namespace IncrementalLR

variable {g : Grammar} {policy : ConflictPolicy} {t : Table}

open KernelFollows (states)

/-- A closure adds nothing where no nonterminal is behind a dot. -/
theorem Grammar.mem_kernel_of_mem_closure {kernel : List Item} {item : Item}
    (hkernel : ∀ item ∈ kernel, g.nextNonterminal? item = none)
    (h : item ∈ g.closure g.productionsByLhs kernel) : item ∈ kernel := by
  rcases Grammar.mem_closure.1 h with h | ⟨_, _, hcontains⟩
  · exact h
  · have hnone : kernel.filterMap g.nextNonterminal? = [] := List.filterMap_eq_nil_iff.2 hkernel
    rw [Grammar.closureSymbols, hnone, Grammar.leftCornersFrom, SymbolSet.contains_empty]
      at hcontains
    · cases hcontains
    · exact Nat.succ_ne_zero _

section

variable (hg : g.WellFormed) (hstart : g.isTerminal g.start = true)

include hg hstart

/-- The first state has the start item only. -/
theorem eq_of_mem_closure_zero {item : Item}
    (h : item ∈ g.closure g.productionsByLhs ((states g).kernel 0)) : item = ⟨0, 0⟩ := by
  rw [Lr0.kernel_zero hg] at h
  refine List.mem_singleton.1 (Grammar.mem_kernel_of_mem_closure ?_ h)
  intro item hitem
  rw [List.mem_singleton.1 hitem]
  refine Option.eq_none_iff_forall_ne_some.2 fun s hs => ?_
  obtain ⟨hnext, hs⟩ := Grammar.nextNonterminal?_eq_some.1 hs
  rw [(nextSymbol?_start hg).1, Option.some.injEq] at hnext
  rw [← hnext, hstart] at hs
  cases hs

/-- Behind the first state there is only the end of the start production. -/
theorem StackPath.eq_of_mem_closure {stack : List Nat} {symbols : List Symbol}
    (h : StackPath g stack symbols) : ∀ q ∈ stack.head?, ∀ item ∈
      g.closure g.productionsByLhs ((states g).kernel q), symbols = [] ∨ item = ⟨0, 1⟩ := by
  have hend := (nextSymbol?_start hg).2
  induction h with
  | start => exact fun _ _ _ _ => .inl rfl
  | push q q' stack symbols s hpath hstep ih =>
      rintro _ ⟨⟩ item hitem
      rw [(Lr0.kernel_of_step? hg hstep).2] at hitem
      have hkernel : ∀ item ∈ Lr0.successor g ((states g).kernel q) s, item = ⟨0, 1⟩ := by
        intro item hitem
        obtain ⟨source, hsource, hnext, rfl⟩ := Lr0.mem_successor.1 hitem
        rcases ih q rfl source hsource with rfl | rfl
        · cases hpath
          rw [eq_of_mem_closure_zero hg hstart hsource]
          rfl
        · rw [hend] at hnext
          cases hnext
      refine .inr (hkernel item (Grammar.mem_kernel_of_mem_closure ?_ hitem))
      intro item hitem
      rw [hkernel item hitem, Grammar.nextNonterminal?, hend]
      rfl

end

namespace Table

/-- An entry is an error where its state offers nothing. -/
theorem action_eq_error (hg : g.WellFormed) (h : Table.compile g policy = .ok t) {state : StateId}
    {s : Symbol} (hs : s.index < t.symbols.size) (hnone : ∀ action, ¬ Offers g state.toNat s action) :
    t.action state s = .error := by
  obtain ⟨hfrom, rows, hrows, hactions, _⟩ := compile_eq_ok h
  rw [hfrom.symbols] at hs
  have hfilled := filled_action hg hfrom hrows hactions state hs
  split at hfilled
  · by_cases hterminal : g.isTerminal s = true
    · rw [Compile.Filled, if_pos hterminal] at hfilled
      obtain ⟨outcome, hsettles, hentry, _⟩ := hfilled
      have hkept := (Candidates.settled_of_resolve hsettles).kept_subset
      have hnil : outcome.kept = [] := List.eq_nil_iff_forall_not_mem.2 fun action haction =>
        hnone action (offers_of_mem_actions hterminal (hkept haction))
      rw [hnil] at hentry
      exact hentry
    · rw [Compile.Filled, if_neg hterminal, Compile.gotoOf] at hfilled
      rw [hfilled]
      cases hstep : (Compile.offerOf g state.toNat).edges.lookup s with
      | none => rfl
      | some target => exact absurd (.goto target (Bool.eq_false_iff.2 hterminal) hstep) (hnone _)
  · exact hfilled

section

variable (hg : g.WellFormed) (h : Table.compile g policy = .ok t)
  (hstart : g.isTerminal g.start = true)

include hg h hstart

/-- Only the first state has an action on the token. -/
theorem eq_zero_of_action_start {state : StateId} {stack : List Nat} {symbols : List Symbol}
    (hpath : StackPath g (state.toNat :: stack) symbols)
    (haction : t.action state g.start ≠ .error) : state = 0 := by
  obtain ⟨hfrom, _⟩ := compile_eq_ok h
  have husable := hg.nextSymbol?_usable (nextSymbol?_start hg).1
  have hitems := hpath.eq_of_mem_closure hg hstart state.toNat rfl
  have hfirst : symbols = [] := by
    by_contra hne
    refine haction (action_eq_error hg h (by rw [hfrom.symbols]; exact husable.2.2) ?_)
    intro action hoffers
    cases hoffers with
    | shift target _ hstep =>
        obtain ⟨item, hitem, hnext⟩ := Lr0.exists_nextSymbol?_of_step? hg hstep
        rw [(hitems item hitem).resolve_left hne, (nextSymbol?_start hg).2] at hnext
        cases hnext
    | goto target hs =>
        rw [hstart] at hs
        cases hs
    | reduce p _ hcomplete =>
        obtain ⟨d, _, hlooks⟩ := hcomplete
        have hitem := (hitems _ (mem_closure_of_looks hg hlooks)).resolve_left hne
        cases hitem
        exact husable.1 (eq_eof_of_looks_start hg hlooks)
  rw [hfirst] at hpath
  generalize hstate : state.toNat = q at hpath
  cases hpath
  exact UInt32.toNat_inj.1 hstate

/-- The end of input is not valid in the first state. -/
theorem action_zero_eof : t.action 0 Symbol.eof = .error := by
  obtain ⟨hfrom, _⟩ := compile_eq_ok h
  have hlt : Symbol.eof.index < t.symbols.size := by
    rw [hfrom.symbols]
    exact Nat.lt_trans hg.terminals hg.augmented_lt
  refine action_eq_error hg h hlt fun action hoffers => ?_
  cases hoffers with
  | shift target _ hstep =>
      obtain ⟨item, _, hnext⟩ := Lr0.exists_nextSymbol?_of_step? hg hstep
      exact (hg.nextSymbol?_usable hnext).1 rfl
  | goto target hs =>
      rw [Grammar.isTerminal, decide_eq_false_iff_not] at hs
      exact hs hg.terminals
  | reduce p _ hcomplete =>
      obtain ⟨d, hd, hlooks⟩ := hcomplete
      have hitem := eq_of_mem_closure_zero hg hstart (mem_closure_of_looks hg hlooks)
      cases hitem
      obtain ⟨p, hp, _, hrhs⟩ := hg.start
      rw [Grammar.isComplete, hp] at hd
      have hsize := congrArg List.length hrhs
      rw [Production.rhs, List.length_map, Array.length_toList] at hsize
      simp [hsize] at hd

end

end Table

namespace Compile

/-- The first state has a lex mode of its own, unless all terminals are valid in it. -/
theorem lexModes_zero {actions : Array Action} {count : Nat} (hcount : 0 < count)
    (heof : actions.getD 0 .error = .error) (hterminals : 0 < g.terminalCount)
    (hextras : Symbol.eof ∉ g.extras) : (lexModes g actions count).2[0]? = some 1 := by
  have hvalid : ((List.range g.terminalCount).map Symbol.ofIndex).filter (fun s =>
        actions.getD (0 * g.symbols.size + s.index) .error != .error ||
          (SymbolSet.ofList g.extras).contains s)
      ≠ (List.range g.terminalCount).map Symbol.ofIndex := by
    intro heq
    have hmem : Symbol.eof ∈ (List.range g.terminalCount).map Symbol.ofIndex :=
      List.mem_map.2 ⟨0, List.mem_range.2 hterminals, rfl⟩
    rw [← heq] at hmem
    have hkept := (List.mem_filter.1 hmem).2
    rw [Nat.zero_mul, Nat.zero_add, show Symbol.eof.index = 0 from rfl, heof, bne_self_eq_false,
      Bool.false_or, SymbolSet.contains_ofList] at hkept
    exact hextras (List.contains_iff_mem.1 hkept)
  obtain ⟨count, rfl⟩ := Nat.exists_eq_succ_of_ne_zero (Nat.ne_of_gt hcount)
  rw [lexModes, List.range_succ_eq_map, List.foldl_cons]
  generalize (List.range g.terminalCount).map Symbol.ofIndex = all at hvalid
  refine foldl_induction (fun _ (state : Array (Array Symbol) × Std.HashMap (List Symbol) Nat ×
    Array LexMode) => state.2.2[0]? = some 1) ?_ ?_
  · have hnone : (Std.HashMap.ofList [(all, 0)])[all.filter fun s =>
        actions.getD (0 * g.symbols.size + s.index) .error != .error ||
          (SymbolSet.ofList g.extras).contains s]? = none := by
      rw [Std.HashMap.ofList_singleton, Std.HashMap.getElem?_insert,
        if_neg (by simpa using hvalid.symm)]
      exact Std.HashMap.getElem?_empty
    simp only [hnone]
    rfl
  · rintro done state rest ⟨modes, index, states⟩ _ hfirst
    simp only at hfirst ⊢
    obtain ⟨hlt, hget⟩ := Array.getElem?_eq_some_iff.1 hfirst
    split
    · exact (Array.getElem?_push_lt hlt).trans (congrArg some hget)
    · exact (Array.getElem?_push_lt hlt).trans (congrArg some hget)

end Compile

theorem Table.stateModes_eq (h : Table.compile g policy = .ok t) :
    t.stateModes = (Compile.lexModes g t.actions (states g).kernels.size).2 := by
  rw [Table.compile] at h
  obtain ⟨rows, _, h⟩ := exists_of_bind_eq_ok h
  cases h
  rfl

/-- Where the automaton can read the token, the lex mode is not that of errors. -/
theorem Table.lexMode_ne_error (hg : g.WellFormed) (hextras : Symbol.eof ∉ g.extras)
    (h : Table.compile g policy = .ok t) (hstart : g.isTerminal g.start = true) {state : StateId}
    {stack : List Nat} {symbols : List Symbol} (hpath : StackPath g (state.toNat :: stack) symbols)
    (haction : t.action state g.start ≠ .error) : t.lexMode state ≠ LexMode.error := by
  obtain rfl := eq_zero_of_action_start hg h hstart hpath haction
  have heof : t.actions.getD (0 * t.symbols.size + 0) .error = .error :=
    action_zero_eof hg h hstart
  rw [Nat.zero_mul] at heof
  have hmode := Compile.lexModes_zero (Lr0.size_kernels_pos hg) heof hg.terminals hextras
  intro herror
  rw [Table.lexMode, Array.getD_eq_getD_getElem?, stateModes_eq h] at herror
  rw [show (0 : StateId).toNat = 0 from rfl, hmode] at herror
  cases herror

end IncrementalLR
