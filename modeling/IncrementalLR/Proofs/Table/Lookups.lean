import IncrementalLR.Language
import IncrementalLR.Parse.Recovery
import IncrementalLR.Proofs.Table.Entries
import IncrementalLR.Proofs.Table.Stored

/-!
# Lookups in a table

The arrays of a language are looked up by numbers that come from the table itself. What is looked up
for an action, a reduction or a simulation is listed here, and in a table whose numbers are all those
of something that exists every such lookup is in bounds. Reading a table checks all of these numbers
but those of the lexer and the targets of shifts that lost a conflict.
-/

namespace IncrementalLR

/-- A place that is looked up in the arrays of a language. -/
inductive Lookup where
  /-- the record of a symbol -/
  | symbol (s : Symbol)
  | production (p : ProductionId)
  /-- the entry of a symbol in the row of a state -/
  | entry (state : StateId) (s : Symbol)
  | ambig (entry : UInt32)
  /-- the lex mode of a state -/
  | stateMode (state : StateId)
  /-- the valid terminals of a lex mode -/
  | mode (mode : LexMode)
  /-- a terminal among those of a lex mode -/
  | terminal (s : Symbol)
  /-- the kind of a pattern -/
  | pattern (number : Nat)
  deriving DecidableEq, Repr

namespace Lookup

/-- There is something at the place. The entries of a state stand side by side, so that one that is
not in its row would be found in another. -/
def InBounds (l : Language) : Lookup → Prop
  | .symbol s => s.index < l.table.symbols.size
  | .production p => p.toNat < l.table.productions.size
  | .entry state s => s.index < l.table.symbols.size ∧
      state.toNat * l.table.symbols.size + s.index < l.table.actions.size
  | .ambig number => number.toNat < l.table.ambigs.size
  | .stateMode state => state.toNat < l.table.stateModes.size
  | .mode m => m.toNat < l.lexer.valid.size
  | .terminal s => s.index < l.lexer.terminalCount
  | .pattern i => i < l.lexer.patterns.size

/-- The lookup for the record of a symbol; that of errors stands in no array. -/
def ofInfo (s : Symbol) : List Lookup := if s = Symbol.error then [] else [.symbol s]

/-- The lookup for an entry; errors have none. -/
def ofEntry (state : StateId) (s : Symbol) : List Lookup :=
  if s = Symbol.error then [] else [.entry state s]

end Lookup

namespace Table

/-- The lookups for the actions, or for the next state, of a symbol in a state. -/
def actionLookups (t : Table) (state : StateId) (s : Symbol) : List Lookup :=
  match t.action state s with
  | .ambig entry => Lookup.ofEntry state s ++ [.ambig entry]
  | _ => Lookup.ofEntry state s

/-- The lookups for a reduction that uncovers a state. -/
def reduceLookups (t : Table) (p : ProductionId) (below : StateId) : List Lookup :=
  .production p :: Lookup.ofEntry below (t.production p).lhs

/-- The lookups of a simulation on states, as `Recovery.consume` runs it. -/
def consumeLookups (t : Table) (s : Symbol) : Nat → List StateId → List Lookup
  | 0, _ => []
  | _ + 1, [] => []
  | fuel + 1, states@(top :: _) =>
    t.actionLookups top s ++
      match Recovery.firstAction t top s with
      | .reduce p =>
        (match states.drop (t.production p).rhs.size with
          | [] => [.production p]
          | below :: _ => t.reduceLookups p below) ++
          ((Recovery.reduceStates t p states).map (consumeLookups t s fuel)).getD []
      | _ => []

/-- The numbers in a table that are not checked when it is read: the lexer deals with terminals, and
lost shifts lead to states. -/
structure UncheckedInRange (t : Table) : Prop where
  tokens : ∀ token ∈ t.lexical.tokens, token.symbol.index < t.terminalCount
  keywords : ∀ k ∈ t.lexical.keywords, k.2.index < t.terminalCount
  lexModes : ∀ mode ∈ t.lexModes, ∀ s ∈ mode, s.index < t.terminalCount
  breakdown : ∀ entry ∈ t.breakdown, entry.2.2.toNat < t.stateCount

/-- All numbers by which a parser looks something up are those of what exists. -/
structure IsClosed (t : Table) : Prop extends t.UncheckedInRange where
  terminals : 0 < t.terminalCount ∧ t.terminalCount ≤ t.symbols.size
  startState : t.startState.toNat < t.stateCount
  startSymbol : t.startSymbol.index < t.symbols.size
  size_actions : t.actions.size = t.stateCount * t.symbols.size
  actions : ∀ action ∈ t.actions, t.actionOk action = true
  ambigs : ∀ kept ∈ t.ambigs, ∀ action ∈ kept, t.actionOk action = true
  productions : ∀ p ∈ t.productions, p.lhs.index < t.symbols.size
  size_stateModes : t.stateModes.size = t.stateCount
  stateModes : ∀ mode ∈ t.stateModes, mode.toNat < t.lexModes.size
  size_lexModes : 0 < t.lexModes.size
  externals : ∀ s ∈ t.externals, s.index < t.symbols.size

variable {t : Table} {state next : StateId} {s : Symbol} {p : ProductionId} {action : Action}

/-- Nothing is wrong with a table whose actions refer to what exists. -/
theorem actionOk_of_problem? (h : t.problem? = none) :
    (0 < t.terminalCount ∧ t.terminalCount ≤ t.symbols.size) ∧
      (t.startState.toNat < t.stateCount ∧ 0 < t.lexModes.size) ∧
      (∀ action ∈ t.actions, t.actionOk action = true) ∧
      ∀ kept ∈ t.ambigs, ∀ action ∈ kept, t.actionOk action = true := by
  rw [problem?] at h
  split at h
  · cases h
  · rename_i hterminals
    split at h
    · cases h
    · rename_i hautomaton
      obtain ⟨hstart, hmodes⟩ := not_or.1 hautomaton
      rw [Array.isEmpty_iff_size_eq_zero] at hmodes
      split at h
      · cases h
      · rename_i hfind
        obtain ⟨hactions, hambigs⟩ := Option.or_eq_none_iff.1 hfind
        refine ⟨by omega, by omega, fun action haction => ?_, fun kept hkept action haction => ?_⟩
        · simpa using Array.find?_eq_none.1 hactions action haction
        · have hnone := Array.findSome?_eq_none_iff.1 hambigs kept hkept
          simpa using Array.find?_eq_none.1 hnone action haction

/-- A table that is read is closed if the numbers that are not checked are in range. -/
theorem isClosed_of_decode {bytes : List UInt8} (h : decode bytes = .ok t)
    (hunchecked : t.UncheckedInRange) : t.IsClosed := by
  obtain ⟨hfits, hproblem⟩ := fits_of_decode h
  obtain ⟨hterminals, ⟨hstart, hmodes⟩, hactions, hambigs⟩ := actionOk_of_problem? hproblem
  exact {
    toUncheckedInRange := hunchecked
    terminals := hterminals
    startState := hstart
    startSymbol := hfits.startSymbol
    size_actions := hfits.actions
    actions := hactions
    ambigs := hambigs
    productions := fun p hp => (hfits.productions.2 p hp).lhs
    size_stateModes := hfits.stateModes_size
    stateModes := hfits.stateModes
    size_lexModes := hmodes
    externals := hfits.externals.2 }

/-! ### What a closed table gives -/

namespace IsClosed

variable (h : t.IsClosed)

include h

theorem actionOk (state : StateId) (s : Symbol) : t.actionOk (t.action state s) = true := by
  rw [Table.action]
  split
  · rfl
  · rw [Array.getD_eq_getD_getElem?]
    cases hentry : t.actions[state.toNat * t.symbols.size + s.index]? with
    | none => rfl
    | some action => exact h.actions action (Array.mem_of_getElem? hentry)

theorem actionOk_of_mem_ambig {entry : UInt32} (haction : action ∈ (t.ambig entry).toList) :
    t.actionOk action = true := by
  rw [Table.ambig, Array.getD_eq_getD_getElem?] at haction
  cases hkept : t.ambigs[entry.toNat]? with
  | none =>
      rw [hkept] at haction
      simp at haction
  | some kept =>
      rw [hkept] at haction
      exact h.ambigs kept (Array.mem_of_getElem? hkept) action (Array.mem_toList_iff.1 haction)

theorem actionOk_of_mem_actionList (haction : action ∈ t.actionList state s) :
    t.actionOk action = true := by
  have hok := h.actionOk state s
  rw [actionList] at haction
  split at haction
  · cases haction
  · exact h.actionOk_of_mem_ambig haction
  · rwa [List.mem_singleton.1 haction]

theorem actionOk_firstAction (state : StateId) (s : Symbol) :
    t.actionOk (Recovery.firstAction t state s) = true := by
  have hok := h.actionOk state s
  rw [Recovery.firstAction]
  split
  · rename_i entry _
    cases hfirst : (t.ambig entry)[0]? with
    | none => rfl
    | some action =>
        exact h.actionOk_of_mem_ambig (Array.mem_toList_iff.2 (Array.mem_of_getElem? hfirst))
  · exact hok

theorem lt_of_reduce (haction : .reduce p ∈ t.actionList state s) :
    p.toNat < t.productions.size := by
  simpa [Table.actionOk] using h.actionOk_of_mem_actionList haction

theorem lt_of_shift (haction : .shift next ∈ t.actionList state s) :
    next.toNat < t.stateCount := by
  simpa [Table.actionOk] using h.actionOk_of_mem_actionList haction

theorem lt_of_goto? (hgoto : t.goto? state s = some next) : next.toNat < t.stateCount := by
  have hok := h.actionOk state s
  rw [goto?] at hgoto
  split at hgoto
  · rename_i target haction
    cases hgoto
    rw [haction] at hok
    simpa [Table.actionOk] using hok
  · cases hgoto

theorem lt_of_nextState? (hnext : t.nextState? state s = some next) :
    next.toNat < t.stateCount := by
  have hok := h.actionOk state s
  have hlost : t.breakdown? state s = some next → next.toNat < t.stateCount := by
    intro hlost
    obtain ⟨entry, hentry, rfl⟩ := Option.map_eq_some_iff.1 hlost
    exact h.breakdown entry (List.mem_of_find?_eq_some hentry)
  rw [nextState?] at hnext
  split at hnext
  · rename_i target haction
    cases hnext
    rw [haction] at hok
    simpa [Table.actionOk] using hok
  · rename_i target haction
    cases hnext
    rw [haction] at hok
    simpa [Table.actionOk] using hok
  · simpa [Table.actionOk] using h.actionOk_of_mem_ambig (mem_of_shiftTarget? hnext)
  · exact hlost hnext
  · exact hlost hnext
  · exact hlost hnext

/-- Also the production that stands for those that do not exist has a symbol of the table. -/
theorem has_lhs (p : ProductionId) : t.Has (t.production p).lhs := by
  refine .inr ?_
  rw [production, Array.getD_eq_getD_getElem?]
  cases hp : t.productions[p.toNat]? with
  | none => exact Nat.lt_of_lt_of_le h.terminals.1 h.terminals.2
  | some info => exact h.productions info (Array.mem_of_getElem? hp)

theorem lexMode_lt (state : StateId) : (t.lexMode state).toNat < t.lexModes.size := by
  rw [lexMode, Array.getD_eq_getD_getElem?]
  cases hmode : t.stateModes[state.toNat]? with
  | none => exact h.size_lexModes
  | some mode => exact h.stateModes mode (Array.mem_of_getElem? hmode)

end IsClosed

end Table

/-! ### Lookups in bounds -/

namespace Table.IsClosed

variable {l : Language} {state : StateId} {s : Symbol} {p : ProductionId} {k : Lookup}
  (h : l.table.IsClosed)

theorem inBounds_ofInfo (hs : l.table.Has s) (hk : k ∈ Lookup.ofInfo s) : k.InBounds l := by
  rw [Lookup.ofInfo] at hk
  split at hk
  · cases hk
  · rename_i hne
    rw [List.mem_singleton.1 hk]
    exact hs.resolve_left hne

include h

theorem inBounds_ofEntry (hstate : state.toNat < l.table.stateCount) (hs : l.table.Has s)
    (hk : k ∈ Lookup.ofEntry state s) : k.InBounds l := by
  rw [Lookup.ofEntry] at hk
  split at hk
  · cases hk
  · rename_i hne
    have hlt := hs.resolve_left hne
    rw [List.mem_singleton.1 hk]
    refine ⟨hlt, ?_⟩
    calc state.toNat * l.table.symbols.size + s.index
        < (state.toNat + 1) * l.table.symbols.size := by
          rw [Nat.succ_mul]
          exact Nat.add_lt_add_left hlt _
      _ ≤ l.table.stateCount * l.table.symbols.size := Nat.mul_le_mul_right _ hstate
      _ = l.table.actions.size := h.size_actions.symm

theorem inBounds_actionLookups (hstate : state.toNat < l.table.stateCount) (hs : l.table.Has s)
    (hk : k ∈ l.table.actionLookups state s) : k.InBounds l := by
  have hok := h.actionOk state s
  rw [actionLookups] at hk
  split at hk
  · rename_i entry haction
    rcases List.mem_append.1 hk with hk | hk
    · exact h.inBounds_ofEntry hstate hs hk
    · rw [haction] at hok
      have hlt : entry.toNat < l.table.ambigs.size := of_decide_eq_true hok
      rw [List.mem_singleton.1 hk]
      exact hlt
  · exact h.inBounds_ofEntry hstate hs hk

theorem inBounds_stateMode (hstate : state.toNat < l.table.stateCount) :
    (Lookup.stateMode state).InBounds l :=
  Nat.lt_of_lt_of_eq hstate h.size_stateModes.symm

theorem inBounds_reduceLookups (hp : p.toNat < l.table.productions.size)
    (hstate : state.toNat < l.table.stateCount) (hk : k ∈ l.table.reduceLookups p state) :
    k.InBounds l := by
  rcases List.mem_cons.1 hk with rfl | hk
  · exact hp
  · exact h.inBounds_ofEntry hstate (h.has_lhs p) hk

theorem lt_of_mem_reduceStates {states result : List StateId}
    (hstates : ∀ q ∈ states, q.toNat < l.table.stateCount)
    (hresult : Recovery.reduceStates l.table p states = some result) :
    ∀ q ∈ result, q.toNat < l.table.stateCount := by
  rw [Recovery.reduceStates] at hresult
  split at hresult
  · cases hresult
  · rename_i top below hdrop
    obtain ⟨next, hnext, rfl⟩ := Option.map_eq_some_iff.1 hresult
    refine List.forall_mem_cons.2 ⟨h.lt_of_goto? hnext, fun q hq => hstates q ?_⟩
    rw [← hdrop] at hq
    exact List.mem_of_mem_drop hq

theorem lt_of_mem_consume {states result : List StateId} {fuel : Nat}
    (hstates : ∀ q ∈ states, q.toNat < l.table.stateCount)
    (hresult : Recovery.consume l.table s fuel states = some result) :
    ∀ q ∈ result, q.toNat < l.table.stateCount := by
  induction fuel generalizing states with
  | zero => cases hresult
  | succ fuel ih =>
      cases states with
      | nil => cases hresult
      | cons top below =>
          have hok := h.actionOk_firstAction top s
          rw [Recovery.consume] at hresult
          split at hresult
          · rename_i next haction
            cases hresult
            rw [haction] at hok
            exact List.forall_mem_cons.2 ⟨of_decide_eq_true hok, hstates⟩
          · cases hresult
            exact hstates
          · obtain ⟨reduced, hreduced, hresult⟩ := Option.bind_eq_some_iff.1 hresult
            exact ih (h.lt_of_mem_reduceStates hstates hreduced) hresult
          · cases hresult
          · cases hresult
          · cases hresult

theorem inBounds_consumeLookups {states : List StateId} {fuel : Nat}
    (hstates : ∀ q ∈ states, q.toNat < l.table.stateCount) (hs : l.table.Has s)
    (hk : k ∈ l.table.consumeLookups s fuel states) : k.InBounds l := by
  induction fuel generalizing states with
  | zero => cases hk
  | succ fuel ih =>
      cases states with
      | nil => cases hk
      | cons top below =>
          have hok := h.actionOk_firstAction top s
          rw [consumeLookups] at hk
          rcases List.mem_append.1 hk with hk | hk
          · exact h.inBounds_actionLookups (hstates top List.mem_cons_self) hs hk
          · split at hk
            · rename_i p haction
              rw [haction] at hok
              have hp : p.toNat < l.table.productions.size := of_decide_eq_true hok
              rcases List.mem_append.1 hk with hk | hk
              · split at hk
                · rw [List.mem_singleton.1 hk]
                  exact hp
                · rename_i uncovered rest hdrop
                  refine h.inBounds_reduceLookups hp (hstates uncovered ?_) hk
                  refine List.mem_of_mem_drop (i := (l.table.production p).rhs.size) ?_
                  rw [hdrop]
                  exact List.mem_cons_self
              · cases hreduced : Recovery.reduceStates l.table p (top :: below) with
                | none =>
                    rw [hreduced] at hk
                    cases hk
                | some reduced =>
                    rw [hreduced] at hk
                    exact ih (h.lt_of_mem_reduceStates hstates hreduced) hk
            · cases hk

end Table.IsClosed

end IncrementalLR
