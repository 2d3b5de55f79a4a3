import IncrementalLR.Proofs.Table.Range

/-!
# The records of a table

Filling a cell leaves an entry behind, and where something had to be settled a record of it. The
cells are filled one after the other, so in the end the entries and the records of a table are those
of the list of its cells.
-/

namespace IncrementalLR

variable {g : Grammar} {policy : ConflictPolicy}

open KernelFollows (states)

namespace Compile

/-- A cell with its entry, and what its candidates were settled to. -/
structure Filling where
  cell : StateOffer × Symbol
  entry : Action
  outcome : Outcome

namespace Filling

def candidates (f : Filling) : Candidates := f.cell.1.candidates f.cell.2

/-- What is recorded of the conflict in the cell. -/
def resolution? (f : Filling) : Option Resolution :=
  f.outcome.reason.map fun reason =>
    ⟨(place f.cell).1, (place f.cell).2, f.entry, f.outcome.discarded, reason⟩

/-- The shift of the cell, where its entry is neither a shift nor a list of several actions. -/
def lost? (f : Filling) : Option (StateId × Symbol × StateId) :=
  f.outcome.reason.bind fun _ =>
    match f.candidates.shift, f.entry with
    | some _, .shift _ => none
    | some _, .ambig _ => none
    | some target, _ => some ((place f.cell).1, (place f.cell).2, target.toUInt32)
    | none, _ => none

/-- The reductions of the cell, where something had to be settled. -/
def fragile (f : Filling) : List (StateId × ProductionId) :=
  if f.outcome.reason = none then []
  else f.candidates.reduces.map fun p => ((place f.cell).1, p.toUInt32)

end Filling

/-- The entry of the cell of a terminal stands for the actions that are kept. -/
def entryOf (b : Builder) : List Action → Action
  | [] => .error
  | [single] => single
  | _ => .ambig b.ambigs.size.toUInt32

/-- The outcome is what the candidates of a terminal are settled to; there is nothing to settle on a
nonterminal. -/
def Filling.Settled (g : Grammar) (policy : ConflictPolicy) (f : Filling) : Prop :=
  if g.isTerminal f.cell.2 then
    Settles g policy f.cell.1 f.cell.2 f.outcome ∧ ∃ b, f.entry = entryOf b f.outcome.kept
  else f.outcome.reason = none

/-- The entries and records are those of the cells filled so far. -/
structure Records (g : Grammar) (policy : ConflictPolicy) (fillings : List Filling) (b : Builder) :
    Prop where
  settled : ∀ f ∈ fillings, f.Settled g policy
  actions : b.actions.toList = fillings.map Filling.entry
  resolutions : b.resolutions.reverse = fillings.filterMap Filling.resolution?
  breakdown : b.breakdown.reverse = fillings.filterMap Filling.lost?
  fragile : ∀ pair, pair ∈ b.fragile ↔ ∃ f ∈ fillings, pair ∈ f.fragile

theorem records_nil : Records g policy [] {} :=
  ⟨by simp, rfl, rfl, rfl, by simp⟩

/-- One more cell is filled. -/
theorem Records.push {fillings : List Filling} {b b' : Builder} (h : Records g policy fillings b)
    {f : Filling} (hsettled : f.Settled g policy) (hactions : b'.actions = b.actions.push f.entry)
    (hresolutions : b'.resolutions = f.resolution?.toList ++ b.resolutions)
    (hbreakdown : b'.breakdown = f.lost?.toList ++ b.breakdown)
    (hfragile : ∀ pair, pair ∈ b'.fragile ↔ pair ∈ b.fragile ∨ pair ∈ f.fragile) :
    Records g policy (fillings ++ [f]) b' := by
  have hreverse : ∀ {α : Type} (found : Option α), found.toList.reverse = found.toList := by
    intro α found
    cases found <;> rfl
  have hfilterMap : ∀ {α : Type} (get : Filling → Option α), [f].filterMap get = (get f).toList := by
    intro α get
    cases hget : get f <;> simp [hget]
  refine ⟨?_, ?_, ?_, ?_, ?_⟩
  · intro other hother
    rcases List.mem_append.1 hother with hother | hother
    · exact h.settled other hother
    · rw [List.mem_singleton.1 hother]
      exact hsettled
  · rw [hactions, Array.toList_push, h.actions, List.map_append, List.map_singleton]
  · rw [hresolutions, List.reverse_append, h.resolutions, hreverse, List.filterMap_append, hfilterMap]
  · rw [hbreakdown, List.reverse_append, h.breakdown, hreverse, List.filterMap_append, hfilterMap]
  · intro pair
    rw [hfragile, h.fragile]
    simp [or_and_right, exists_or]

theorem mem_foldl_addFragile {state : StateId} {reduces : List Nat}
    {found : List (StateId × ProductionId)} {pair : StateId × ProductionId} :
    pair ∈ reduces.foldl (fun found p =>
        if found.contains (state, p.toUInt32) then found else (state, p.toUInt32) :: found) found ↔
      pair ∈ found ∨ pair ∈ reduces.map fun p => (state, p.toUInt32) := by
  induction reduces generalizing found with
  | nil => simp
  | cons p reduces ih =>
      rw [List.foldl_cons, ih, List.map_cons, List.mem_cons]
      split
      · rename_i hfound
        have hmem : (state, p.toUInt32) ∈ found := List.contains_iff_mem.1 hfound
        constructor
        · tauto
        · rintro (hpair | rfl | hpair)
          · exact .inl hpair
          · exact .inl hmem
          · exact .inr hpair
      · rw [List.mem_cons]
        tauto

/-- What filling the cell of a terminal adds to the entries and to the records. -/
theorem addCell_eq (o : StateOffer) (b : Builder) (s : Symbol) (outcome : Outcome) :
    let f : Filling := ⟨(o, s), entryOf b outcome.kept, outcome⟩
    let b' := b.addCell o s (o.candidates s) outcome
    b'.actions = b.actions.push f.entry ∧ b'.resolutions = f.resolution?.toList ++ b.resolutions ∧
      b'.breakdown = f.lost?.toList ++ b.breakdown := by
  obtain ⟨kept, discarded, reason⟩ := outcome
  match kept, reason with
  | [], none => exact ⟨rfl, rfl, rfl⟩
  | [_], none => exact ⟨rfl, rfl, rfl⟩
  | _ :: _ :: _, none => exact ⟨rfl, rfl, rfl⟩
  | [], some _ => exact ⟨rfl, rfl, rfl⟩
  | [_], some _ => exact ⟨rfl, rfl, rfl⟩
  | _ :: _ :: _, some _ => exact ⟨rfl, rfl, rfl⟩

theorem records_addCell {fillings : List Filling} {b : Builder} {o : StateOffer} {s : Symbol}
    {outcome : Outcome} (h : Records g policy fillings b) (hs : g.isTerminal s = true)
    (hsettles : Settles g policy o s outcome) :
    Records g policy (fillings ++ [⟨(o, s), entryOf b outcome.kept, outcome⟩])
      (b.addCell o s (o.candidates s) outcome) := by
  obtain ⟨hactions, hresolutions, hbreakdown⟩ := addCell_eq o b s outcome
  refine h.push ?_ hactions hresolutions hbreakdown ?_
  · rw [Filling.Settled, if_pos hs]
    exact ⟨hsettles, b, rfl⟩
  · intro pair
    rw [Builder.addCell]
    cases hreason : outcome.reason with
    | none => simp [Filling.fragile, hreason]
    | some reason =>
        simp only
        rw [mem_foldl_addFragile]
        simp [Filling.fragile, hreason, place, Filling.candidates]

theorem records_addNonterminal {fillings : List Filling} {b : Builder} {o : StateOffer} {s : Symbol}
    (h : Records g policy fillings b) (hs : g.isTerminal s = false) :
    Records g policy (fillings ++ [⟨(o, s), gotoOf o s, ⟨[], [], none⟩⟩])
      (Builder.addNonterminal o b s) := by
  refine h.push ?_ rfl rfl rfl ?_
  · rw [Filling.Settled, if_neg (by simp [hs])]
  · simp [Builder.addNonterminal, Filling.fragile]

/-- A table that is filled is filled cell by cell. -/
theorem exists_records (hg : g.WellFormed) {rows : Builder}
    (h : buildRows (LookaheadTables.ofGrammar g) (states g) policy = .ok rows) :
    ∃ fillings, fillings.map Filling.cell = allCells g ∧ Records g policy fillings rows := by
  refine buildRows_induction hg
    (fun cells b => ∃ fillings, fillings.map Filling.cell = cells ∧ Records g policy fillings b)
    ⟨[], rfl, records_nil⟩ ?_ ?_ h
  · intro q cells b b' s hs ⟨fillings, hcells, hrecords⟩ hadd
    rw [Builder.addTerminal] at hadd
    obtain ⟨outcome, hsettles, hadd⟩ := exists_of_bind_eq_ok hadd
    cases hadd
    exact ⟨_, by rw [List.map_append, hcells]; rfl, records_addCell hrecords hs hsettles⟩
  · intro q cells b s hs ⟨fillings, hcells, hrecords⟩
    exact ⟨_, by rw [List.map_append, hcells]; rfl, records_addNonterminal hrecords hs⟩

end Compile

namespace Table

/-- A table with what its cells were filled with. -/
structure FilledBy (g : Grammar) (policy : ConflictPolicy) (t : Table)
    (fillings : List Compile.Filling) : Prop where
  cells : fillings.map Compile.Filling.cell = Compile.allCells g
  settled : ∀ f ∈ fillings, f.Settled g policy
  actions : t.actions.toList = fillings.map Compile.Filling.entry
  resolutions : t.resolutions.toList = fillings.filterMap Compile.Filling.resolution?
  breakdown : t.breakdown = fillings.filterMap Compile.Filling.lost?
  fragile : ∀ pair, pair ∈ t.fragile ↔ ∃ f ∈ fillings, pair ∈ f.fragile

theorem exists_filledBy (hg : g.WellFormed) {t : Table} (h : Table.compile g policy = .ok t) :
    ∃ fillings, t.FilledBy g policy fillings := by
  rw [Table.compile] at h
  obtain ⟨rows, hrows, h⟩ := exists_of_bind_eq_ok h
  cases h
  obtain ⟨fillings, hcells, hrecords⟩ := Compile.exists_records hg hrows
  refine ⟨fillings, hcells, hrecords.settled, hrecords.actions, hrecords.resolutions,
    hrecords.breakdown, fun pair => ?_⟩
  rw [← hrecords.fragile]
  exact (List.mergeSort_perm rows.fragile _).mem_iff

namespace FilledBy

variable {t : Table} {fillings : List Compile.Filling} (hfilled : t.FilledBy g policy fillings)

include hfilled

theorem exists_offerOf {f : Compile.Filling} (hf : f ∈ fillings) :
    ∃ q < (states g).kernels.size, f.cell.1 = Compile.offerOf g q := by
  have hcell : f.cell ∈ Compile.allCells g := by
    rw [← hfilled.cells]
    exact List.mem_map_of_mem hf
  obtain ⟨q, hq, hcell⟩ := List.mem_flatMap.1 hcell
  obtain ⟨i, _, heq⟩ := List.mem_map.1 hcell
  exact ⟨q, List.mem_range.1 hq, by rw [← heq]⟩

/-- Conflicts are on terminals. -/
theorem isTerminal_of_mem_resolutions {r : Resolution} (hr : r ∈ t.resolutions) :
    g.isTerminal r.lookahead = true := by
  rw [← Array.mem_toList_iff, hfilled.resolutions] at hr
  obtain ⟨f, hf, hr⟩ := List.mem_filterMap.1 hr
  obtain ⟨reason, hreason, rfl⟩ := Option.map_eq_some_iff.1 hr
  change g.isTerminal f.cell.2 = true
  have hsettled := hfilled.settled f hf
  rw [Compile.Filling.Settled] at hsettled
  by_contra hs
  rw [if_neg hs, hreason] at hsettled
  cases hsettled

/-- The filling of the cell of a symbol in a state, with its entry. -/
theorem exists_filling (hg : g.WellFormed) (hfrom : t.CompiledFrom g) {state : StateId} {s : Symbol}
    (hstate : state.toNat < t.stateCount) (hs : s.index < t.symbols.size) :
    ∃ f ∈ fillings, f.cell = (Compile.offerOf g state.toNat, s) ∧ t.action state s = f.entry := by
  rw [hfrom.stateCount] at hstate
  rw [hfrom.symbols] at hs
  have hcell := Compile.getElem?_allCells hstate hs
  rw [← hfilled.cells, List.getElem?_map] at hcell
  obtain ⟨f, hf, hcell⟩ := Option.map_eq_some_iff.1 hcell
  refine ⟨f, List.mem_of_getElem? hf, hcell, ?_⟩
  have hsize := hg.size
  have hentry : t.actions[state.toNat * g.symbols.size + s.index]? = some f.entry := by
    rw [← Array.getElem?_toList, hfilled.actions, List.getElem?_map, hf]
    rfl
  rw [action, if_neg (Symbol.ne_error_of_index_lt (by omega)), hfrom.symbols,
    Array.getD_eq_getD_getElem?, hentry]
  rfl

/-- Cells of one place are one cell. -/
theorem pairwise_place (hg : g.WellFormed) (hfrom : t.CompiledFrom g) (hfit : t.NumbersFit) :
    fillings.Pairwise fun f f' =>
      Compile.placeRank (Compile.place f.cell) < Compile.placeRank (Compile.place f'.cell) := by
  have hstates := hfit.states
  rw [hfrom.stateCount] at hstates
  have hpairwise := Compile.pairwise_rowCells hg hstates
  rw [show (List.range (states g).kernels.size).flatMap _ = Compile.allCells g from rfl,
    ← hfilled.cells, List.map_map, List.pairwise_map] at hpairwise
  exact hpairwise

/-- What the other cells leave behind is found elsewhere. -/
theorem filter_filterMap (hg : g.WellFormed) (hfrom : t.CompiledFrom g) (hfit : t.NumbersFit)
    {f : Compile.Filling} (hf : f ∈ fillings) {α : Type} (get : Compile.Filling → Option α)
    (isHere : α → Bool) (hget : ∀ other a, get other = some a →
      (isHere a = true ↔ Compile.place other.cell = Compile.place f.cell)) :
    (fillings.filterMap get).filter isHere = (get f).toList := by
  have hothers : ∀ others : List Compile.Filling, (∀ other ∈ others, Compile.place other.cell ≠
      Compile.place f.cell) → (others.filterMap get).filter isHere = [] := by
    intro others hothers
    rw [List.filter_eq_nil_iff]
    intro a ha hat
    obtain ⟨other, hother, hget'⟩ := List.mem_filterMap.1 ha
    exact hothers other hother ((hget other a hget').1 hat)
  obtain ⟨before, after, rfl⟩ := List.append_of_mem hf
  obtain ⟨_, hafter, hbefore⟩ := List.pairwise_append.1 (hfilled.pairwise_place hg hfrom hfit)
  have hne : ∀ {a b : Compile.Filling}, Compile.placeRank (Compile.place a.cell)
      < Compile.placeRank (Compile.place b.cell) → Compile.place a.cell ≠ Compile.place b.cell := by
    intro a b hlt heq
    rw [heq] at hlt
    exact Nat.lt_irrefl _ hlt
  rw [List.filterMap_append, List.filter_append,
    hothers before fun other hother => hne (hbefore other hother f List.mem_cons_self),
    List.nil_append, List.filterMap_cons]
  have hrest := hothers after fun other hother =>
    (hne ((List.pairwise_cons.1 hafter).1 other hother)).symm
  cases hf' : get f with
  | none => exact hrest
  | some a =>
      simp only
      rw [List.filter_cons_of_pos ((hget f a hf').2 rfl), hrest]
      rfl

end FilledBy

end Table

end IncrementalLR
