import Mathlib.Data.List.Forall2
import IncrementalLR.Table.Compile
import IncrementalLR.Proofs.Fold
import IncrementalLR.Proofs.Grammar.WellFormed

/-!
# Filling the rows of a table

The cells of a table are filled one after the other, and what is recorded on the way is only added
to. So the cell of a terminal holds in the end what was left when its candidates were settled, and
the cell of a nonterminal its successor.
-/

namespace IncrementalLR

variable {g : Grammar} {policy : ConflictPolicy}

namespace Compile

/-- The cell of a nonterminal. -/
def gotoOf (o : StateOffer) (s : Symbol) : Action :=
  match o.edges.lookup s with
  | some target => .goto target.toUInt32
  | none => .error

/-- What the candidates of a terminal are settled to. -/
def Settles (g : Grammar) (policy : ConflictPolicy) (o : StateOffer) (s : Symbol)
    (outcome : Outcome) : Prop :=
  (o.candidates s).resolve g policy o.state o.kernel s = .ok outcome

/-- The entry of a cell stands for the actions that are kept. -/
def Entry (b : Builder) : List Action → Action → Prop
  | [], entry => entry = .error
  | [single], entry => entry = single
  | many, entry => ∃ i : Nat, entry = .ambig i.toUInt32 ∧ b.ambigs[i]? = some many.toArray

/-- The entry of a cell is what its state offers on its symbol. -/
def Filled (g : Grammar) (policy : ConflictPolicy) (b : Builder) (cell : StateOffer × Symbol)
    (entry : Action) : Prop :=
  if g.isTerminal cell.2 then
    ∃ outcome, Settles g policy cell.1 cell.2 outcome ∧ Entry b outcome.kept entry ∧
      (outcome.reason ≠ none → b.resolutions ≠ [])
  else entry = gotoOf cell.1 cell.2

/-- Every ambiguous entry holds the actions that were kept on a terminal. -/
def AmbigsSettled (g : Grammar) (policy : ConflictPolicy) (b : Builder) : Prop :=
  ∀ kept ∈ b.ambigs, ∃ o s outcome, Settles g policy o s outcome ∧ kept = outcome.kept.toArray ∧
    2 ≤ outcome.kept.length

/-- Cells are added to those that are filled. -/
structure Adds (g : Grammar) (policy : ConflictPolicy) (cells : List (StateOffer × Symbol))
    (b b' : Builder) : Prop where
  ambigs : b.ambigs.toList <+: b'.ambigs.toList
  resolutions : b.resolutions ≠ [] → b'.resolutions ≠ []
  settled : AmbigsSettled g policy b → AmbigsSettled g policy b'
  entries : ∃ entries, b'.actions.toList = b.actions.toList ++ entries ∧
    List.Forall₂ (Filled g policy b') cells entries

theorem Entry.mono {b b' : Builder} (hambigs : b.ambigs.toList <+: b'.ambigs.toList)
    {kept : List Action} {entry : Action} (h : Entry b kept entry) : Entry b' kept entry := by
  match kept with
  | [] => exact h
  | [single] => exact h
  | first :: second :: rest =>
      obtain ⟨i, hentry, hi⟩ := h
      exact ⟨i, hentry, getElem?_of_toList_isPrefix hambigs hi⟩

theorem Filled.mono {cells : List (StateOffer × Symbol)} {b b' : Builder}
    (hadds : Adds g policy cells b b') {cell : StateOffer × Symbol} {entry : Action}
    (h : Filled g policy b cell entry) : Filled g policy b' cell entry := by
  rw [Filled] at h ⊢
  by_cases hterminal : g.isTerminal cell.2 = true
  · rw [if_pos hterminal] at h ⊢
    obtain ⟨outcome, hsettles, hentry, hreason⟩ := h
    exact ⟨outcome, hsettles, hentry.mono hadds.ambigs,
      fun hne => hadds.resolutions (hreason hne)⟩
  · rw [if_neg hterminal] at h ⊢
    exact h

theorem Adds.nil (b : Builder) : Adds g policy [] b b :=
  ⟨List.prefix_refl _, id, id, [], by simp, .nil⟩

theorem Adds.append {cells more : List (StateOffer × Symbol)} {b b' b'' : Builder}
    (h : Adds g policy cells b b') (h' : Adds g policy more b' b'') :
    Adds g policy (cells ++ more) b b'' := by
  obtain ⟨entries, hactions, hentries⟩ := h.entries
  obtain ⟨entries', hactions', hentries'⟩ := h'.entries
  refine ⟨h.ambigs.trans h'.ambigs, fun hne => h'.resolutions (h.resolutions hne),
    fun hs => h'.settled (h.settled hs), entries ++ entries', ?_, ?_⟩
  · rw [hactions', hactions, List.append_assoc]
  · exact List.rel_append (hentries.imp fun _ _ hfilled => hfilled.mono h') hentries'

section AddCell

variable {o : StateOffer} {s : Symbol} {b : Builder} {outcome : Outcome}

theorem addCell_of_kept_nil (hkept : outcome.kept = []) :
    (b.addCell o s (o.candidates s) outcome).actions = b.actions.push .error ∧
      (b.addCell o s (o.candidates s) outcome).ambigs = b.ambigs := by
  simp only [Builder.addCell, hkept]
  cases outcome.reason <;> exact ⟨rfl, rfl⟩

theorem addCell_of_kept_singleton {single : Action} (hkept : outcome.kept = [single]) :
    (b.addCell o s (o.candidates s) outcome).actions = b.actions.push single ∧
      (b.addCell o s (o.candidates s) outcome).ambigs = b.ambigs := by
  simp only [Builder.addCell, hkept]
  cases outcome.reason <;> exact ⟨rfl, rfl⟩

theorem addCell_of_kept_many {first second : Action} {rest : List Action}
    (hkept : outcome.kept = first :: second :: rest) :
    (b.addCell o s (o.candidates s) outcome).actions
        = b.actions.push (.ambig b.ambigs.size.toUInt32) ∧
      (b.addCell o s (o.candidates s) outcome).ambigs
        = b.ambigs.push (first :: second :: rest).toArray := by
  simp only [Builder.addCell, hkept]
  cases outcome.reason <;> exact ⟨rfl, rfl⟩

end AddCell

theorem adds_addTerminal {o : StateOffer} {s : Symbol} {b b' : Builder}
    (hs : g.isTerminal s = true) (h : Builder.addTerminal g policy o b s = .ok b') :
    Adds g policy [(o, s)] b b' := by
  rw [Builder.addTerminal] at h
  obtain ⟨outcome, hsettles, h⟩ := exists_of_bind_eq_ok h
  cases h
  have hentry : ∃ entry, (b.addCell o s (o.candidates s) outcome).actions = b.actions.push entry ∧
      Entry (b.addCell o s (o.candidates s) outcome) outcome.kept entry ∧
      b.ambigs.toList <+: (b.addCell o s (o.candidates s) outcome).ambigs.toList ∧
      (AmbigsSettled g policy b →
        AmbigsSettled g policy (b.addCell o s (o.candidates s) outcome)) := by
    match hkept : outcome.kept with
    | [] =>
        obtain ⟨hactions, hambigs⟩ := addCell_of_kept_nil (o := o) (s := s) (b := b) hkept
        refine ⟨.error, hactions, rfl, ?_, ?_⟩
        · exact hambigs ▸ List.prefix_refl _
        · rw [AmbigsSettled, AmbigsSettled, hambigs]
          exact id
    | [single] =>
        obtain ⟨hactions, hambigs⟩ := addCell_of_kept_singleton (o := o) (s := s) (b := b) hkept
        refine ⟨single, hactions, rfl, ?_, ?_⟩
        · exact hambigs ▸ List.prefix_refl _
        · rw [AmbigsSettled, AmbigsSettled, hambigs]
          exact id
    | first :: second :: rest =>
        obtain ⟨hactions, hambigs⟩ := addCell_of_kept_many (o := o) (s := s) (b := b) hkept
        refine ⟨.ambig b.ambigs.size.toUInt32, hactions, ⟨b.ambigs.size, rfl, ?_⟩, ?_, ?_⟩
        · rw [hambigs, Array.getElem?_push_size]
        · rw [hambigs, Array.toList_push]
          exact List.prefix_append _ _
        · intro hsettled kept hmem
          rw [hambigs] at hmem
          rcases Array.mem_push.1 hmem with hmem | rfl
          · exact hsettled kept hmem
          · exact ⟨o, s, outcome, hsettles, by rw [hkept], by rw [hkept]; simp⟩
  have hresolutions : (b.resolutions ≠ [] →
      (b.addCell o s (o.candidates s) outcome).resolutions ≠ []) ∧ (outcome.reason ≠ none →
      (b.addCell o s (o.candidates s) outcome).resolutions ≠ []) := by
    rw [Builder.addCell]
    cases outcome.reason with
    | none => exact ⟨id, fun hne => absurd rfl hne⟩
    | some reason => exact ⟨fun _ => List.cons_ne_nil _ _, fun _ => List.cons_ne_nil _ _⟩
  obtain ⟨entry, hactions, hentry, hambigs, hsettled⟩ := hentry
  refine ⟨hambigs, hresolutions.1, hsettled, [entry], ?_, ?_⟩
  · rw [hactions, Array.toList_push]
  · refine .cons ?_ .nil
    rw [Filled, if_pos hs]
    exact ⟨outcome, hsettles, hentry, hresolutions.2⟩

theorem adds_addNonterminal {o : StateOffer} {s : Symbol} (b : Builder)
    (hs : g.isTerminal s = false) : Adds g policy [(o, s)] b (Builder.addNonterminal o b s) := by
  refine ⟨List.prefix_refl _, id, id, [gotoOf o s], ?_, .cons ?_ .nil⟩
  · simp only [Builder.addNonterminal, gotoOf]
    cases o.edges.lookup s with
    | none => simp
    | some target => simp
  · rw [Filled, if_neg (by simp [hs])]

/-! ### Rows -/

/-- The cells of a state, by ascending symbol. -/
def rowCells (g : Grammar) (o : StateOffer) : List (StateOffer × Symbol) :=
  (List.range g.symbols.size).map fun i => (o, Symbol.ofIndex i)

theorem isTerminal_ofIndex (hg : g.WellFormed) {i : Nat} (hi : i < g.symbols.size) :
    g.isTerminal (Symbol.ofIndex i) = decide (i < g.terminalCount) := by
  have hbound := hg.size
  rw [Grammar.isTerminal, Symbol.index_ofIndex (by omega)]

/-- The terminals come first. -/
theorem rowCells_eq (hg : g.WellFormed) (o : StateOffer) : rowCells g o
    = ((List.range g.terminalCount).map Symbol.ofIndex).map (fun s => (o, s)) ++
      ((List.range' g.terminalCount (g.symbols.size - g.terminalCount)).map Symbol.ofIndex).map
        (fun s => (o, s)) := by
  have haug := hg.augmented_lt
  have hrange : List.range g.symbols.size = List.range g.terminalCount ++
      List.range' g.terminalCount (g.symbols.size - g.terminalCount) := by
    have happend : List.range' 0 g.terminalCount ++
        List.range' (0 + g.terminalCount) (g.symbols.size - g.terminalCount)
          = List.range' 0 (g.terminalCount + (g.symbols.size - g.terminalCount)) :=
      List.range'_append_1
    have hsum : g.terminalCount + (g.symbols.size - g.terminalCount) = g.symbols.size := by omega
    rw [Nat.zero_add, hsum] at happend
    rw [List.range_eq_range', List.range_eq_range']
    exact happend.symm
  rw [rowCells, hrange, List.map_append, List.map_map, List.map_map]
  rfl

/-- What every cell keeps, a row keeps. -/
theorem addState_induction (hg : g.WellFormed) {o : StateOffer}
    (P : List (StateOffer × Symbol) → Builder → Prop)
    (hterminal : ∀ cells b b' s, g.isTerminal s = true → P cells b →
      Builder.addTerminal g policy o b s = .ok b' → P (cells ++ [(o, s)]) b')
    (hnonterminal : ∀ cells b s, g.isTerminal s = false → P cells b →
      P (cells ++ [(o, s)]) (Builder.addNonterminal o b s))
    {cells : List (StateOffer × Symbol)} {b b' : Builder} (hb : P cells b)
    (h : Builder.addState g policy b o = .ok b') : P (cells ++ rowCells g o) b' := by
  have haug := hg.augmented_lt
  rw [Builder.addState] at h
  obtain ⟨next, hnext, h⟩ := exists_of_bind_eq_ok h
  cases h
  rw [Nat.min_eq_left (Nat.le_of_lt haug)] at hnext
  rw [rowCells_eq hg, ← List.append_assoc]
  have hterminals : P (cells ++ ((List.range g.terminalCount).map Symbol.ofIndex).map
      (fun s => (o, s))) next := by
    refine foldlM_induction (fun done b => P (cells ++ done.map fun s => (o, s)) b) hnext ?_ ?_
    · simpa using hb
    · intro done s rest b₁ b₂ heq hdone hadd
      have hmem : s ∈ (List.range g.terminalCount).map Symbol.ofIndex := by
        rw [heq]
        exact List.mem_append_right _ List.mem_cons_self
      obtain ⟨i, hi, rfl⟩ := List.mem_map.1 hmem
      have hlt := List.mem_range.1 hi
      rw [List.map_append, ← List.append_assoc]
      refine hterminal _ b₁ b₂ _ ?_ hdone hadd
      rw [isTerminal_ofIndex hg (Nat.lt_trans hlt haug)]
      exact decide_eq_true hlt
  refine foldl_induction (fun done b => P (cells ++ ((List.range g.terminalCount).map
    Symbol.ofIndex).map (fun s => (o, s)) ++ done.map fun s => (o, s)) b) ?_ ?_
  · simpa using hterminals
  · intro done s rest b heq hdone
    have hmem : s ∈ (List.range' g.terminalCount (g.symbols.size - g.terminalCount)).map
        Symbol.ofIndex := by
      rw [heq]
      exact List.mem_append_right _ List.mem_cons_self
    obtain ⟨i, hi, rfl⟩ := List.mem_map.1 hmem
    have hrange := List.mem_range'_1.1 hi
    rw [List.map_append, ← List.append_assoc]
    refine hnonterminal _ b _ ?_ hdone
    rw [isTerminal_ofIndex hg (by omega)]
    exact decide_eq_false (by omega)

/-- What the closure of a state offers. -/
abbrev offerOf (g : Grammar) (q : Nat) : StateOffer :=
  offer (LookaheadTables.ofGrammar g) (Lr0.ofGrammar g)
    (KernelFollows.ofLr0 (LookaheadTables.ofGrammar g) (Lr0.ofGrammar g)) q

theorem length_rowCells (g : Grammar) (q : Nat) :
    (rowCells g (offerOf g q)).length = g.symbols.size := by
  rw [rowCells, List.length_map, List.length_range]

/-- All cells of a table, row by row. -/
def allCells (g : Grammar) : List (StateOffer × Symbol) :=
  (List.range (Lr0.ofGrammar g).kernels.size).flatMap fun q => rowCells g (offerOf g q)

/-- What holds before the first cell and every cell keeps holds of all rows. -/
theorem buildRows_induction (hg : g.WellFormed) (P : List (StateOffer × Symbol) → Builder → Prop)
    (hinit : P [] {})
    (hterminal : ∀ q cells b b' s, g.isTerminal s = true → P cells b →
      Builder.addTerminal g policy (offerOf g q) b s = .ok b' → P (cells ++ [(offerOf g q, s)]) b')
    (hnonterminal : ∀ q cells b s, g.isTerminal s = false → P cells b →
      P (cells ++ [(offerOf g q, s)]) (Builder.addNonterminal (offerOf g q) b s))
    {rows : Builder}
    (h : buildRows (LookaheadTables.ofGrammar g) (Lr0.ofGrammar g) policy = .ok rows) :
    P (allCells g) rows := by
  rw [buildRows] at h
  refine foldlM_induction (fun done b => P (done.flatMap fun q => rowCells g (offerOf g q)) b) h
    hinit ?_
  intro done q rest b b' _ hdone hadd
  rw [List.flatMap_append, List.flatMap_singleton]
  exact addState_induction hg P (hterminal q) (hnonterminal q) hdone hadd

theorem adds_buildRows (hg : g.WellFormed) {rows : Builder}
    (h : buildRows (LookaheadTables.ofGrammar g) (Lr0.ofGrammar g) policy = .ok rows) :
    Adds g policy (allCells g) {} rows := by
  refine buildRows_induction hg (fun cells b => Adds g policy cells {} b) (Adds.nil {}) ?_ ?_ h
  · intro q cells b b' s hs hdone hadd
    exact hdone.append (adds_addTerminal hs hadd)
  · intro q cells b s hs hdone
    exact hdone.append (adds_addNonterminal b hs)

theorem length_flatMap_range {α : Type} {f : Nat → List α} {n : Nat}
    (hlength : ∀ q, (f q).length = n) (k : Nat) : ((List.range k).flatMap f).length = k * n := by
  simp [List.length_flatMap, hlength]

theorem getElem?_flatMap_range {α : Type} {f : Nat → List α} {n : Nat}
    (hlength : ∀ q, (f q).length = n) {k q j : Nat} (hq : q < k) (hj : j < n) :
    ((List.range k).flatMap f)[q * n + j]? = (f q)[j]? := by
  induction k with
  | zero => omega
  | succ k ih =>
      have htotal := length_flatMap_range hlength k
      rw [List.range_succ, List.flatMap_append, List.flatMap_singleton]
      by_cases hlast : q = k
      · subst hlast
        rw [List.getElem?_append_right (by rw [htotal]; omega), htotal, Nat.add_sub_cancel_left]
      · have hlt : q < k := by omega
        have hbelow : q * n + j < k * n := by
          calc q * n + j < q * n + n := by omega
            _ = (q + 1) * n := by rw [Nat.succ_mul]
            _ ≤ k * n := Nat.mul_le_mul_right n hlt
        rw [List.getElem?_append_left (by rw [htotal]; exact hbelow)]
        exact ih hlt

/-- Where the cell of a symbol in a state stands. -/
theorem getElem?_allCells {q : Nat} (hq : q < (Lr0.ofGrammar g).kernels.size) {s : Symbol}
    (hs : s.index < g.symbols.size) :
    (allCells g)[q * g.symbols.size + s.index]? = some (offerOf g q, s) := by
  rw [allCells, getElem?_flatMap_range (length_rowCells g) hq hs, rowCells, List.getElem?_map,
    List.getElem?_range hs, Option.map_some, Symbol.ofIndex_index]

/-- The cell of a symbol in a state is filled with what the state offers on it. -/
theorem exists_filled (hg : g.WellFormed) {rows : Builder}
    (h : buildRows (LookaheadTables.ofGrammar g) (Lr0.ofGrammar g) policy = .ok rows) {q : Nat}
    (hq : q < (Lr0.ofGrammar g).kernels.size) {s : Symbol} (hs : s.index < g.symbols.size) :
    ∃ entry, rows.actions[q * g.symbols.size + s.index]? = some entry ∧
      Filled g policy rows (offerOf g q, s) entry := by
  obtain ⟨entries, hactions, hentries⟩ := (adds_buildRows hg h).entries
  obtain ⟨hlt, hget⟩ := List.getElem?_eq_some_iff.1 (getElem?_allCells hq hs)
  have hlt' : q * g.symbols.size + s.index < entries.length := by
    rw [← hentries.length_eq]
    exact hlt
  have hfilled := hentries.get hlt hlt'
  rw [List.get_eq_getElem, hget] at hfilled
  refine ⟨entries[q * g.symbols.size + s.index], ?_, hfilled⟩
  rw [← Array.getElem?_toList, hactions]
  exact List.getElem?_eq_getElem hlt'

/-- No entry lies behind the rows. -/
theorem size_actions (hg : g.WellFormed) {rows : Builder}
    (h : buildRows (LookaheadTables.ofGrammar g) (Lr0.ofGrammar g) policy = .ok rows) :
    rows.actions.size = (Lr0.ofGrammar g).kernels.size * g.symbols.size := by
  obtain ⟨entries, hactions, hentries⟩ := (adds_buildRows hg h).entries
  have hlength := hentries.length_eq
  rw [allCells, length_flatMap_range (length_rowCells g)] at hlength
  rw [← Array.length_toList, hactions, hlength]
  rfl

end Compile

end IncrementalLR
