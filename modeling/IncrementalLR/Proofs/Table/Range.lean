import Mathlib.Data.List.Flatten
import IncrementalLR.Proofs.Grammar.References
import IncrementalLR.Proofs.Table.Cells
import IncrementalLR.Proofs.Table.Stored

/-!
# Compiled tables can be stored

Every number in a compiled table is that of a state, production, entry or lex mode of the table, and
what is recorded of the conflicts comes in the order of the cells. So a compiled table whose lengths
have 32 bits fits its stored form, and nothing is wrong with it.
-/

namespace IncrementalLR

variable {g : Grammar} {policy : ConflictPolicy}

open KernelFollows (states)

/-- What the action refers to exists. -/
def Action.InRange (stateCount productionCount ambigCount : Nat) : Action → Prop
  | .error | .accept => True
  | .shift target | .goto target => target.toNat < stateCount
  | .reduce production => production.toNat < productionCount
  | .ambig entry => entry.toNat < ambigCount

theorem Action.InRange.mono {stateCount productionCount ambigCount ambigCount' : Nat} {action : Action}
    (h : action.InRange stateCount productionCount ambigCount) (hle : ambigCount ≤ ambigCount') :
    action.InRange stateCount productionCount ambigCount' := by
  cases action with
  | ambig entry => exact Nat.lt_of_lt_of_le h hle
  | _ => exact h

theorem toNat_toUInt32_lt {n bound : Nat} (h : n < bound) : n.toUInt32.toNat < bound := by
  rw [Nat.toUInt32_eq, UInt32.toNat_ofNat']
  exact Nat.lt_of_le_of_lt (Nat.mod_le _ _) h

theorem toNat_toUInt16_lt {n bound : Nat} (h : n < bound) : n.toUInt16.toNat < bound := by
  rw [Nat.toUInt16_eq, UInt16.toNat_ofNat']
  exact Nat.lt_of_le_of_lt (Nat.mod_le _ _) h

namespace Compile

/-- The successors and productions that a state offers exist. -/
structure StateOffer.InRange (o : StateOffer) (stateCount productionCount : Nat) : Prop where
  edges : ∀ s target, o.edges.lookup s = some target → target < stateCount
  reduces : ∀ s, ∀ p ∈ (o.candidates s).reduces, p < productionCount

theorem inRange_offerOf (hg : g.WellFormed) (q : Nat) :
    (offerOf g q).InRange (states g).kernels.size g.productions.size := by
  constructor
  · intro s target htarget
    exact (Lr0.kernel_of_step? hg (show (states g).step? q s = some target from htarget)).1
  · intro s p hp
    obtain ⟨d, hcomplete, _⟩ := mem_reduces.1 hp
    by_contra hlt
    rw [Grammar.isComplete, Array.getElem?_eq_none (Nat.le_of_not_lt hlt)] at hcomplete
    cases hcomplete

variable {stateCount productionCount : Nat} {o : StateOffer}

theorem inRange_of_mem_actions (ho : o.InRange stateCount productionCount) {s : Symbol}
    {action : Action} (h : action ∈ (o.candidates s).actions) :
    action.InRange stateCount productionCount 0 := by
  rcases List.mem_append.1 h with h | h
  · obtain ⟨target, htarget, rfl⟩ := Option.map_eq_some_iff.1 (Option.mem_toList.1 h)
    exact toNat_toUInt32_lt (ho.edges s target htarget)
  · obtain ⟨p, hp, rfl⟩ := List.mem_map.1 h
    rw [Candidates.reduceAction]
    split
    · trivial
    · exact toNat_toUInt32_lt (ho.reduces s p hp)

/-- The place of a cell in a table. -/
def place (cell : StateOffer × Symbol) : StateId × Symbol := (cell.1.state.toUInt32, cell.2)

/-- What the cells filled so far hold refers to what exists, and the records of lost shifts follow
the order of the cells. -/
structure InOrder (stateCount productionCount : Nat) (cells : List (StateOffer × Symbol))
    (b : Builder) : Prop where
  actions : ∀ action ∈ b.actions, action.InRange stateCount productionCount b.ambigs.size
  ambigs : ∀ kept ∈ b.ambigs, ∀ action ∈ kept, action.InRange stateCount productionCount 0
  fragile : b.fragile.Nodup
  breakdown : (b.breakdown.reverse.map fun entry => (entry.1, entry.2.1)).Sublist (cells.map place)
  /-- a lost shift was that to the successor -/
  lost : ∀ entry ∈ b.breakdown, ∃ cell ∈ cells, ∃ target,
    cell.1.edges.lookup cell.2 = some target ∧
      entry = (cell.1.state.toUInt32, cell.2, target.toUInt32)
  resolutions : ∀ r ∈ b.resolutions, ∃ cell ∈ cells, r.lookahead = cell.2

variable {cells : List (StateOffer × Symbol)} {b : Builder} {s : Symbol} {outcome : Outcome}

/-- What filling the cell of a terminal adds to the entries. -/
theorem addCell_entry (o : StateOffer) (b : Builder) (s : Symbol) (outcome : Outcome) :
    ∃ entry, (b.addCell o s (o.candidates s) outcome).actions = b.actions.push entry ∧
      ((b.addCell o s (o.candidates s) outcome).ambigs = b.ambigs ∧
          (entry = .error ∨ entry ∈ outcome.kept) ∨
        (b.addCell o s (o.candidates s) outcome).ambigs = b.ambigs.push outcome.kept.toArray ∧
          entry = .ambig b.ambigs.size.toUInt32) := by
  match hkept : outcome.kept with
  | [] =>
      obtain ⟨hactions, hambigs⟩ := addCell_of_kept_nil (o := o) (s := s) (b := b) hkept
      exact ⟨.error, hactions, .inl ⟨hambigs, .inl rfl⟩⟩
  | [single] =>
      obtain ⟨hactions, hambigs⟩ := addCell_of_kept_singleton (o := o) (s := s) (b := b) hkept
      exact ⟨single, hactions, .inl ⟨hambigs, .inr (List.mem_singleton_self single)⟩⟩
  | first :: second :: rest =>
      obtain ⟨hactions, hambigs⟩ := addCell_of_kept_many (o := o) (s := s) (b := b) hkept
      exact ⟨_, hactions, .inr ⟨hambigs, rfl⟩⟩

theorem nodup_addFragile {state : StateId} {reduces : List Nat}
    {found : List (StateId × ProductionId)} (h : found.Nodup) :
    (reduces.foldl (fun found p =>
      if found.contains (state, p.toUInt32) then found else (state, p.toUInt32) :: found) found).Nodup := by
  induction reduces generalizing found with
  | nil => exact h
  | cons p reduces ih =>
      rw [List.foldl_cons]
      split
      · exact ih h
      · rename_i hnot
        refine ih (List.nodup_cons.2 ⟨fun hmem => hnot ?_, h⟩)
        exact List.contains_iff_mem.2 hmem

/-- What filling the cell of a terminal adds to the records. -/
theorem addCell_records (o : StateOffer) (b : Builder) (s : Symbol) (outcome : Outcome) :
    (b.fragile.Nodup → (b.addCell o s (o.candidates s) outcome).fragile.Nodup) ∧
      ((b.addCell o s (o.candidates s) outcome).breakdown = b.breakdown ∨
        ∃ target, o.edges.lookup s = some target ∧
          (b.addCell o s (o.candidates s) outcome).breakdown
            = (o.state.toUInt32, s, target.toUInt32) :: b.breakdown) ∧
      ∀ r ∈ (b.addCell o s (o.candidates s) outcome).resolutions,
        r ∈ b.resolutions ∨ r.lookahead = s := by
  rw [Builder.addCell]
  cases outcome.reason with
  | none => exact ⟨id, .inl rfl, fun r hr => .inl hr⟩
  | some reason =>
      refine ⟨nodup_addFragile, ?_, ?_⟩
      · simp only
        split
        · exact .inl rfl
        · exact .inl rfl
        · rename_i target hshift _ _
          exact .inr ⟨target, hshift, rfl⟩
        · exact .inl rfl
      · intro r hr
        rcases List.mem_cons.1 hr with rfl | hr
        · exact .inr rfl
        · exact .inl hr

theorem inOrder_addCell (ho : o.InRange stateCount productionCount)
    (h : InOrder stateCount productionCount cells b)
    (hkept : outcome.kept ⊆ (o.candidates s).actions) :
    InOrder stateCount productionCount (cells ++ [(o, s)])
      (b.addCell o s (o.candidates s) outcome) := by
  obtain ⟨entry, hactions, hentry⟩ := addCell_entry o b s outcome
  obtain ⟨hfragile, hbreakdown, hresolutions⟩ := addCell_records o b s outcome
  have hrange : ∀ action ∈ outcome.kept, action.InRange stateCount productionCount 0 :=
    fun action haction => inRange_of_mem_actions ho (hkept haction)
  refine ⟨?_, ?_, hfragile h.fragile, ?_, ?_, ?_⟩
  · rw [hactions]
    intro action haction
    rcases hentry with ⟨hambigs, hentry⟩ | ⟨hambigs, hentry⟩
    · rw [hambigs]
      rcases Array.mem_push.1 haction with haction | rfl
      · exact h.actions action haction
      · rcases hentry with rfl | hentry
        · trivial
        · exact (hrange action hentry).mono (Nat.zero_le _)
    · rw [hambigs, Array.size_push]
      rcases Array.mem_push.1 haction with haction | rfl
      · exact (h.actions action haction).mono (Nat.le_succ _)
      · rw [hentry]
        exact toNat_toUInt32_lt (Nat.lt_succ_self _)
  · intro kept hmem action haction
    rcases hentry with ⟨hambigs, _⟩ | ⟨hambigs, _⟩
    · rw [hambigs] at hmem
      exact h.ambigs kept hmem action haction
    · rw [hambigs] at hmem
      rcases Array.mem_push.1 hmem with hmem | rfl
      · exact h.ambigs kept hmem action haction
      · exact hrange action (List.mem_toArray.1 haction)
  · rw [List.map_append]
    rcases hbreakdown with heq | ⟨target, _, heq⟩
    · rw [heq]
      exact h.breakdown.trans (List.sublist_append_left _ _)
    · rw [heq, List.reverse_cons, List.map_append]
      exact h.breakdown.append (List.Sublist.refl _)
  · have hold : ∀ entry ∈ b.breakdown, ∃ cell ∈ cells ++ [(o, s)], ∃ target,
        cell.1.edges.lookup cell.2 = some target ∧
          entry = (cell.1.state.toUInt32, cell.2, target.toUInt32) := by
      intro entry hentry
      obtain ⟨cell, hcell, hlost⟩ := h.lost entry hentry
      exact ⟨cell, List.mem_append_left _ hcell, hlost⟩
    rcases hbreakdown with heq | ⟨target, htarget, heq⟩
    · rw [heq]
      exact hold
    · rw [heq]
      refine List.forall_mem_cons.2 ⟨⟨(o, s), ?_, target, htarget, rfl⟩, hold⟩
      exact List.mem_append_right _ (List.mem_singleton_self _)
  · intro r hr
    rcases hresolutions r hr with hr | hr
    · obtain ⟨cell, hcell, heq⟩ := h.resolutions r hr
      exact ⟨cell, List.mem_append_left _ hcell, heq⟩
    · exact ⟨(o, s), List.mem_append_right _ (List.mem_singleton_self _), hr⟩

theorem inOrder_addNonterminal (ho : o.InRange stateCount productionCount)
    (h : InOrder stateCount productionCount cells b) (s : Symbol) :
    InOrder stateCount productionCount cells (Builder.addNonterminal o b s) := by
  refine ⟨?_, h.ambigs, h.fragile, h.breakdown, h.lost, h.resolutions⟩
  intro action haction
  rcases Array.mem_push.1 haction with haction | rfl
  · exact h.actions action haction
  · split
    · rename_i target htarget
      exact toNat_toUInt32_lt (ho.edges s target htarget)
    · trivial

/-- The cells of the terminals in a state. -/
def terminalCells (g : Grammar) (o : StateOffer) : List (StateOffer × Symbol) :=
  ((List.range (min g.terminalCount g.symbols.size)).map Symbol.ofIndex).map fun s => (o, s)

theorem inOrder_addState (ho : o.InRange stateCount productionCount)
    (h : InOrder stateCount productionCount cells b) {b' : Builder}
    (hadd : Builder.addState g policy b o = .ok b') :
    InOrder stateCount productionCount (cells ++ terminalCells g o) b' := by
  rw [Builder.addState] at hadd
  obtain ⟨next, hnext, hadd⟩ := exists_of_bind_eq_ok hadd
  cases hadd
  have hterminals : InOrder stateCount productionCount (cells ++ terminalCells g o) next := by
    refine foldlM_induction (fun done b => InOrder stateCount productionCount
      (cells ++ done.map fun s => (o, s)) b) hnext (by simpa using h) ?_
    intro done s rest b₁ b₂ _ hdone hcell
    rw [Builder.addTerminal] at hcell
    obtain ⟨outcome, hsettles, hcell⟩ := exists_of_bind_eq_ok hcell
    cases hcell
    rw [List.map_append, ← List.append_assoc]
    exact inOrder_addCell ho hdone (Candidates.settled_of_resolve hsettles).kept_subset
  exact foldl_induction (fun _ b => InOrder stateCount productionCount
    (cells ++ terminalCells g o) b) hterminals fun _ s _ _ _ hdone =>
      inOrder_addNonterminal ho hdone s

theorem inOrder_buildRows (hg : g.WellFormed) {rows : Builder}
    (h : buildRows (LookaheadTables.ofGrammar g) (states g) policy = .ok rows) :
    InOrder (states g).kernels.size g.productions.size
      ((List.range (states g).kernels.size).flatMap fun q => terminalCells g (offerOf g q)) rows := by
  rw [buildRows] at h
  refine foldlM_induction (fun done b => InOrder (states g).kernels.size g.productions.size
    (done.flatMap fun q => terminalCells g (offerOf g q)) b) h ?_ ?_
  · exact ⟨by simp, by simp, List.nodup_nil, List.Sublist.refl _, by simp, by simp⟩
  · intro done q rest b b' _ hdone hadd
    rw [List.flatMap_append, List.flatMap_singleton]
    exact inOrder_addState (inRange_offerOf hg q) hdone hadd

/-! ### The order of the records -/

/-- The place of a cell among the cells of a table. -/
def placeRank (p : StateId × Symbol) : Nat := p.1.toNat * 2 ^ 16 + p.2.index

theorem placeRank_place {q i : Nat} (hq : q < 2 ^ 32) (hi : i < 2 ^ 16) :
    placeRank (place (offerOf g q, Symbol.ofIndex i)) = q * 2 ^ 16 + i := by
  have hstate : q.toUInt32.toNat = q := by
    rw [Nat.toUInt32_eq, UInt32.toNat_ofNat', Nat.mod_eq_of_lt hq]
  calc placeRank (place (offerOf g q, Symbol.ofIndex i))
      = q.toUInt32.toNat * 2 ^ 16 + (Symbol.ofIndex i).index := rfl
    _ = q * 2 ^ 16 + i := by rw [hstate, Symbol.index_ofIndex hi]

theorem mem_terminalCells {o : StateOffer} {cell : StateOffer × Symbol} :
    cell ∈ terminalCells g o ↔
      ∃ i < min g.terminalCount g.symbols.size, cell = (o, Symbol.ofIndex i) := by
  simp [terminalCells, eq_comm]

/-- The cells come row by row, and in a row by symbol. -/
theorem pairwise_rowCells (hg : g.WellFormed) {n : Nat} (hn : n ≤ 2 ^ 32) :
    (((List.range n).flatMap fun q => rowCells g (offerOf g q)).map place).Pairwise
      fun a b => placeRank a < placeRank b := by
  have hbound := hg.size
  rw [List.pairwise_map, List.pairwise_flatMap]
  constructor
  · intro q hq
    have hq := List.mem_range.1 hq
    rw [rowCells, List.pairwise_map]
    refine List.pairwise_lt_range.imp_of_mem fun {i j} hi hj hij => ?_
    have hi := List.mem_range.1 hi
    have hj := List.mem_range.1 hj
    rw [placeRank_place (by omega) (by omega), placeRank_place (by omega) (by omega)]
    omega
  · refine List.pairwise_lt_range.imp_of_mem fun {q q'} hq hq' hlt => ?_
    have hq := List.mem_range.1 hq
    have hq' := List.mem_range.1 hq'
    intro cell hcell cell' hcell'
    obtain ⟨i, hi, rfl⟩ := List.mem_map.1 hcell
    obtain ⟨j, hj, rfl⟩ := List.mem_map.1 hcell'
    have hi := List.mem_range.1 hi
    have hj := List.mem_range.1 hj
    rw [placeRank_place (by omega) (by omega), placeRank_place (by omega) (by omega)]
    omega

theorem terminalCells_sublist (o : StateOffer) : (terminalCells g o).Sublist (rowCells g o) := by
  rw [terminalCells, List.map_map]
  exact (List.range_sublist.2 (Nat.min_le_right _ _)).map _

theorem pairwise_terminalCells (hg : g.WellFormed) {n : Nat} (hn : n ≤ 2 ^ 32) :
    (((List.range n).flatMap fun q => terminalCells g (offerOf g q)).map place).Pairwise
      fun a b => placeRank a < placeRank b := by
  refine (pairwise_rowCells hg hn).sublist (List.Sublist.map place ?_)
  exact List.Sublist.flatMap_right _ fun q _ => terminalCells_sublist (offerOf g q)

theorem ascending_breakdown (hg : g.WellFormed) {rows : Builder}
    (h : buildRows (LookaheadTables.ofGrammar g) (states g) policy = .ok rows)
    (hstates : (states g).kernels.size ≤ 2 ^ 32) :
    Table.Ascending Table.breakdownRank rows.breakdown.reverse := by
  have hplaces := (pairwise_terminalCells hg hstates).sublist (inOrder_buildRows hg h).breakdown
  exact (List.pairwise_map.1 hplaces).imp fun hab => hab

theorem index_lt_of_mem_cells (hg : g.WellFormed) {n : Nat} {cell : StateOffer × Symbol}
    (h : cell ∈ (List.range n).flatMap fun q => terminalCells g (offerOf g q)) :
    cell.2.index < g.symbols.size := by
  have hbound := hg.size
  obtain ⟨q, _, hcell⟩ := List.mem_flatMap.1 h
  obtain ⟨i, hi, rfl⟩ := mem_terminalCells.1 hcell
  simp only
  rw [Symbol.index_ofIndex (by omega)]
  omega

theorem index_lt_of_mem_breakdown (hg : g.WellFormed) {rows : Builder}
    (h : buildRows (LookaheadTables.ofGrammar g) (states g) policy = .ok rows)
    {entry : StateId × Symbol × StateId} (hentry : entry ∈ rows.breakdown.reverse) :
    entry.2.1.index < g.symbols.size := by
  have hplace := (inOrder_buildRows hg h).breakdown.subset
    (List.mem_map_of_mem (f := fun entry => (entry.1, entry.2.1)) hentry)
  obtain ⟨cell, hcell, heq⟩ := List.mem_map.1 hplace
  have hsymbol : cell.2 = entry.2.1 := congrArg Prod.snd heq
  rw [← hsymbol]
  exact index_lt_of_mem_cells hg hcell

theorem ascending_sortFragile {pairs : List (StateId × ProductionId)} (h : pairs.Nodup) :
    Table.Ascending Table.fragileRank (sortFragile pairs) := by
  have hsorted := Table.pairwise_mergeSort_rank Table.fragileRank_le pairs
  have hnodup : (sortFragile pairs).Nodup := (List.mergeSort_perm pairs _).nodup_iff.2 h
  refine (hsorted.and hnodup).imp fun {a b} hab => ?_
  exact Nat.lt_of_le_of_ne hab.1 fun heq => hab.2 (Table.fragileRank_injective heq)

/-! ### Lex modes -/

/-- The lex modes of a grammar: sets of terminals, no more than one beside those of the states, and
one mode for each state. -/
structure LexModesInRange (g : Grammar) (stateCount : Nat)
    (found : Array (Array Symbol) × Array LexMode) : Prop where
  pos : 0 < found.1.size
  size_le : found.1.size ≤ stateCount + 1
  symbols : ∀ mode ∈ found.1, ∀ s ∈ mode, s.index < g.terminalCount
  length_le : ∀ mode ∈ found.1, mode.size ≤ g.terminalCount
  size : found.2.size = stateCount
  modes : ∀ mode ∈ found.2, mode.toNat < found.1.size

/-- The modes found so far, the number of each, and those of the states. -/
abbrev ModeSearch := Array (Array Symbol) × Std.HashMap (List Symbol) Nat × Array LexMode

/-- The mode of the next state. -/
def addMode (found : ModeSearch) (valid : List Symbol) : ModeSearch :=
  match found.2.1[valid]? with
  | some mode => (found.1, found.2.1, found.2.2.push mode.toUInt16)
  | none => (found.1.push valid.toArray, found.2.1.insert valid found.1.size,
      found.2.2.push found.1.size.toUInt16)

theorem inRange_addMode {found : ModeSearch} {n : Nat} {valid : List Symbol}
    (h : LexModesInRange g n (found.1, found.2.2))
    (hindex : ∀ (key : List Symbol) (mode : Nat), found.2.1[key]? = some mode → mode < found.1.size)
    (hvalid : ∀ s ∈ valid, s.index < g.terminalCount) (hlength : valid.length ≤ g.terminalCount) :
    LexModesInRange g (n + 1) ((addMode found valid).1, (addMode found valid).2.2) ∧
      ∀ (key : List Symbol) (mode : Nat), (addMode found valid).2.1[key]? = some mode →
        mode < (addMode found valid).1.size := by
  rw [addMode]
  cases hfound : found.2.1[valid]? with
  | some mode =>
      refine ⟨⟨h.pos, Nat.le_succ_of_le h.size_le, h.symbols, h.length_le, ?_, ?_⟩, hindex⟩
      · simp only [Array.size_push]
        rw [h.size]
      · intro other hother
        rcases Array.mem_push.1 hother with hother | rfl
        · exact h.modes other hother
        · exact toNat_toUInt16_lt (hindex valid mode hfound)
  | none =>
      refine ⟨⟨?_, ?_, ?_, ?_, ?_, ?_⟩, ?_⟩
      · simp
      · rw [Array.size_push]
        exact Nat.succ_le_succ h.size_le
      · intro mode hmode
        rcases Array.mem_push.1 hmode with hmode | rfl
        · exact h.symbols mode hmode
        · exact fun s hs => hvalid s (List.mem_toArray.1 hs)
      · intro mode hmode
        rcases Array.mem_push.1 hmode with hmode | rfl
        · exact h.length_le mode hmode
        · exact hlength
      · simp only [Array.size_push]
        rw [h.size]
      · intro other hother
        rw [Array.size_push]
        rcases Array.mem_push.1 hother with hother | rfl
        · exact Nat.lt_succ_of_lt (h.modes other hother)
        · exact toNat_toUInt16_lt (Nat.lt_succ_self _)
      · intro key mode hmode
        rw [Array.size_push]
        rw [Std.HashMap.getElem?_insert] at hmode
        split at hmode
        · cases hmode
          exact Nat.lt_succ_self _
        · exact Nat.lt_succ_of_lt (hindex key mode hmode)

/-- The terminals that are valid in a state. -/
def validIn (g : Grammar) (actions : Array Action) (state : Nat) : List Symbol :=
  ((List.range g.terminalCount).map Symbol.ofIndex).filter fun s =>
    actions.getD (state * g.symbols.size + s.index) .error != .error ||
      (SymbolSet.ofList g.extras).contains s

/-- The search before the first state: all terminals are mode zero. -/
def modeSearch (g : Grammar) : ModeSearch :=
  (#[((List.range g.terminalCount).map Symbol.ofIndex).toArray],
    Std.HashMap.ofList [((List.range g.terminalCount).map Symbol.ofIndex, 0)], #[])

theorem lexModes_eq (g : Grammar) (actions : Array Action) (stateCount : Nat) :
    lexModes g actions stateCount
      = (((List.range stateCount).foldl (fun found q => addMode found (validIn g actions q))
            (modeSearch g)).1,
          ((List.range stateCount).foldl (fun found q => addMode found (validIn g actions q))
            (modeSearch g)).2.2) :=
  rfl

theorem lexModesInRange (hg : g.WellFormed) (actions : Array Action) (stateCount : Nat) :
    LexModesInRange g stateCount (lexModes g actions stateCount) := by
  have hbound := hg.size
  have hterminals := hg.augmented_lt
  have hall : ∀ s ∈ (List.range g.terminalCount).map Symbol.ofIndex, s.index < g.terminalCount := by
    intro s hs
    obtain ⟨i, hi, rfl⟩ := List.mem_map.1 hs
    have hi := List.mem_range.1 hi
    rwa [Symbol.index_ofIndex (by omega)]
  let search := (List.range stateCount).foldl (fun found q => addMode found (validIn g actions q))
    (modeSearch g)
  have hfold : LexModesInRange g (List.range stateCount).length (search.1, search.2.2) ∧
      ∀ (key : List Symbol) (mode : Nat), search.2.1[key]? = some mode → mode < search.1.size :=
    foldl_induction (fun done (found : ModeSearch) =>
      LexModesInRange g done.length (found.1, found.2.2) ∧
        ∀ (key : List Symbol) (mode : Nat), found.2.1[key]? = some mode → mode < found.1.size) ?_ ?_
  · rw [lexModes_eq]
    simpa using hfold.1
  · refine ⟨⟨Nat.zero_lt_one, Nat.le_refl 1, ?_, ?_, rfl, by simp [modeSearch]⟩, ?_⟩
    · intro mode hmode s hs
      rw [List.mem_singleton.1 (Array.mem_toList_iff.2 hmode)] at hs
      exact hall s (List.mem_toArray.1 hs)
    · intro mode hmode
      rw [List.mem_singleton.1 (Array.mem_toList_iff.2 hmode)]
      simp
    · intro key mode hmode
      rw [modeSearch, Std.HashMap.ofList_singleton, Std.HashMap.getElem?_insert] at hmode
      split at hmode
      · cases hmode
        exact Nat.zero_lt_one
      · simp at hmode
  · intro done q rest found _ hdone
    rw [List.length_append, List.length_singleton]
    refine inRange_addMode hdone.1 hdone.2 (fun s hs => hall s (List.mem_filter.1 hs).1) ?_
    calc (validIn g actions q).length
        ≤ ((List.range g.terminalCount).map Symbol.ofIndex).length := List.length_filter_le _ _
      _ = g.terminalCount := by rw [List.length_map, List.length_range]

end Compile

end IncrementalLR
