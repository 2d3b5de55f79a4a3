import Mathlib.Algebra.BigOperators.Ring.Finset
import IncrementalLR.Proofs.Automaton.Lookahead

/-!
# Lookaheads of kernels

What follows the kernel items of a state is handed on to its successors until no state has anything
to hand on. Every round but the first needs that a set has grown, so the rounds come to an end, and
then every state has handed on all it has.
-/

namespace IncrementalLR.KernelFollows

variable {g : Grammar}

/-! ### Handing on -/

theorem length_handOn (known : Array (Option SymbolSet)) (sources : List (Item × SymbolSet))
    (targets : List Item) : (handOn g known sources targets).length = targets.length := by
  induction targets generalizing sources with
  | nil =>
      cases sources <;> rfl
  | cons target targets ih =>
      cases sources with
      | nil => rw [handOn, List.length_cons, ih, List.length_cons]
      | cons source sources =>
          rw [handOn]
          split <;> rw [List.length_cons, ih, List.length_cons]

/-- What the closure hands to an item with the dot behind the first symbol. -/
def fromClosure (g : Grammar) (known : Array (Option SymbolSet)) (target : Item) : SymbolSet :=
  if target.dot = 1 then (known.getD (g.itemLhs target).index none).getD SymbolSet.empty
  else SymbolSet.empty

theorem handOn_nil (known : Array (Option SymbolSet)) (target : Item) (targets : List Item) :
    handOn g known [] (target :: targets)
      = fromClosure g known target :: handOn g known [] targets :=
  rfl

theorem handOn_cons (known : Array (Option SymbolSet)) (source : Item × SymbolSet)
    (sources : List (Item × SymbolSet)) (target : Item) (targets : List Item) :
    handOn g known (source :: sources) (target :: targets)
      = if source.1.advance = target then
          (fromClosure g known target).union source.2 :: handOn g known sources targets
        else fromClosure g known target :: handOn g known (source :: sources) targets :=
  rfl

theorem contains_fromClosure {known : Array (Option SymbolSet)} {target : Item} {x : Symbol} :
    (fromClosure g known target).contains x = true ↔
      target.dot = 1 ∧ Trails known (g.itemLhs target) x := by
  rw [fromClosure, Trails]
  split
  · rename_i hdot
    cases known.getD (g.itemLhs target).index none with
    | none => simp
    | some set => simp [hdot]
  · rename_i hdot
    simp [hdot]

/-- What the closure hands on arrives. -/
theorem looks_handOn_of_trails {known : Array (Option SymbolSet)}
    {sources : List (Item × SymbolSet)} {targets : List Item} {target : Item} {x : Symbol}
    (hmem : target ∈ targets) (hdot : target.dot = 1) (hx : Trails known (g.itemLhs target) x) :
    Looks (targets.zip (handOn g known sources targets)) target x := by
  have hclosure : (fromClosure g known target).contains x = true :=
    contains_fromClosure.2 ⟨hdot, hx⟩
  induction targets generalizing sources with
  | nil => cases hmem
  | cons first targets ih =>
      cases sources with
      | nil =>
          rw [handOn_nil, List.zip_cons_cons, looks_cons]
          rcases List.mem_cons.1 hmem with rfl | hmem
          · exact .inl ⟨rfl, hclosure⟩
          · exact .inr (ih hmem)
      | cons source sources =>
          rw [handOn_cons]
          split
          · rw [List.zip_cons_cons, looks_cons]
            rcases List.mem_cons.1 hmem with rfl | hmem
            · exact .inl ⟨rfl, by rw [SymbolSet.contains_union, hclosure, Bool.true_or]⟩
            · exact .inr (ih hmem)
          · rw [List.zip_cons_cons, looks_cons]
            rcases List.mem_cons.1 hmem with rfl | hmem
            · exact .inl ⟨rfl, hclosure⟩
            · exact .inr (ih hmem)

/-- What the sources hand on arrives, since the targets have their items in the same order. -/
theorem looks_handOn_of_source {known : Array (Option SymbolSet)}
    {sources : List (Item × SymbolSet)} {targets : List Item} {item : Item} {x : Symbol}
    (horder : (sources.map fun source => source.1.advance).Sublist targets)
    (hx : Looks sources item x) :
    Looks (targets.zip (handOn g known sources targets)) item.advance x := by
  induction targets generalizing sources with
  | nil =>
      rw [List.sublist_nil, List.map_eq_nil_iff] at horder
      rw [horder] at hx
      exact absurd hx looks_nil
  | cons target targets ih =>
      cases sources with
      | nil => exact absurd hx looks_nil
      | cons source sources =>
          obtain ⟨first, set⟩ := source
          rw [handOn_cons]
          split
          · rename_i heq
            simp only at heq
            rw [List.zip_cons_cons, looks_cons]
            rcases looks_cons.1 hx with ⟨rfl, hset⟩ | hrest
            · refine .inl ⟨heq, ?_⟩
              rw [SymbolSet.contains_union, hset, Bool.or_true]
            · refine .inr (ih ?_ hrest)
              rw [List.map_cons, heq] at horder
              exact List.Sublist.of_cons_cons horder
          · rename_i hne
            rw [List.zip_cons_cons, looks_cons]
            refine .inr (ih ?_ hx)
            rcases List.sublist_cons_iff.1 horder with horder | ⟨rest, heq, horder⟩
            · exact horder
            · rw [List.map_cons, List.cons.injEq] at heq
              exact absurd heq.1 hne

/-- Nothing else arrives. -/
theorem of_looks_handOn {known : Array (Option SymbolSet)} {sources : List (Item × SymbolSet)}
    {targets : List Item} {target : Item} {x : Symbol}
    (hx : Looks (targets.zip (handOn g known sources targets)) target x) :
    (target.dot = 1 ∧ Trails known (g.itemLhs target) x) ∨
      ∃ item, item.advance = target ∧ Looks sources item x := by
  induction targets generalizing sources with
  | nil => exact absurd hx looks_nil
  | cons first targets ih =>
      cases sources with
      | nil =>
          rw [handOn_nil, List.zip_cons_cons, looks_cons] at hx
          rcases hx with ⟨rfl, hx⟩ | hx
          · exact .inl (contains_fromClosure.1 hx)
          · exact ih hx
      | cons source sources =>
          obtain ⟨item, set⟩ := source
          have hrest : Looks (targets.zip (handOn g known sources targets)) target x →
              (target.dot = 1 ∧ Trails known (g.itemLhs target) x) ∨
                ∃ other, other.advance = target ∧ Looks ((item, set) :: sources) other x := by
            intro hx
            rcases ih hx with h | ⟨other, hother, hx⟩
            · exact .inl h
            · exact .inr ⟨other, hother, looks_cons.2 (.inr hx)⟩
          rw [handOn_cons] at hx
          split at hx
          · rename_i heq
            rw [List.zip_cons_cons, looks_cons] at hx
            rcases hx with ⟨rfl, hx⟩ | hx
            · rw [SymbolSet.contains_union, Bool.or_eq_true] at hx
              rcases hx with hx | hx
              · exact .inl (contains_fromClosure.1 hx)
              · exact .inr ⟨item, heq, looks_cons.2 (.inl ⟨rfl, hx⟩)⟩
            · exact hrest hx
          · rw [List.zip_cons_cons, looks_cons] at hx
            rcases hx with ⟨rfl, hx⟩ | hx
            · exact .inl (contains_fromClosure.1 hx)
            · exact ih hx

theorem below_handOn {known : Array (Option SymbolSet)} {bound : Nat}
    (hknown : ∀ i set, known.getD i none = some set → set.Below bound)
    {sources : List (Item × SymbolSet)} (hsources : AllBelow bound sources) {targets : List Item}
    {set : SymbolSet} (h : set ∈ handOn g known sources targets) : set.Below bound := by
  have hclosure : ∀ target, (fromClosure g known target).Below bound := by
    intro target
    rw [fromClosure]
    split
    · cases hset : known.getD (g.itemLhs target).index none with
      | none => exact SymbolSet.below_empty
      | some set => exact hknown _ set hset
    · exact SymbolSet.below_empty
  induction targets generalizing sources with
  | nil => cases sources <;> cases h
  | cons target targets ih =>
      cases sources with
      | nil =>
          rw [handOn_nil] at h
          rcases List.mem_cons.1 h with rfl | h
          · exact hclosure target
          · exact ih hsources h
      | cons source sources =>
          have hrest : AllBelow bound sources :=
            fun other hother => hsources other (List.mem_cons_of_mem _ hother)
          rw [handOn_cons] at h
          split at h
          · rcases List.mem_cons.1 h with rfl | h
            · exact (hclosure target).union (hsources _ List.mem_cons_self)
            · exact ih hrest h
          · rcases List.mem_cons.1 h with rfl | h
            · exact hclosure target
            · exact ih hsources h

/-! ### Rows -/

/-- The number of members of the sets of a row. -/
def rowWeight (bound : Nat) (row : Array SymbolSet) : Nat :=
  ∑ j ∈ Finset.range row.size, (row.getD j SymbolSet.empty).count bound

theorem rowWeight_le (bound : Nat) (row : Array SymbolSet) : rowWeight bound row ≤ row.size * bound := by
  calc rowWeight bound row ≤ ∑ _j ∈ Finset.range row.size, bound :=
        Finset.sum_le_sum fun j _ => SymbolSet.count_le bound _
    _ = row.size * bound := by simp

theorem rowWeight_set! {bound : Nat} {row : Array SymbolSet} {i : Nat} {set : SymbolSet}
    (hi : i < row.size) (hsub : row.getD i SymbolSet.empty ⊆ set)
    (hne : row.getD i SymbolSet.empty ≠ set) (hset : set.Below bound) :
    rowWeight bound row < rowWeight bound (row.set! i set) := by
  rw [rowWeight, rowWeight, size_set!]
  exact sum_getD_lt_sum_getD_set! (SymbolSet.count bound) rfl hi
    (SymbolSet.count_lt_count hsub hne hset)

/-- One row is contained in another, place by place. -/
structure RowLe (bound : Nat) (row row' : Array SymbolSet) : Prop where
  size : row'.size = row.size
  subset : ∀ j, row.getD j SymbolSet.empty ⊆ row'.getD j SymbolSet.empty
  weight : row' = row ∨ rowWeight bound row < rowWeight bound row'

theorem RowLe.refl (bound : Nat) (row : Array SymbolSet) : RowLe bound row row :=
  ⟨rfl, fun _ => SymbolSet.subset_refl _, .inl rfl⟩

theorem RowLe.trans {bound : Nat} {row row' row'' : Array SymbolSet} (h : RowLe bound row row')
    (h' : RowLe bound row' row'') : RowLe bound row row'' := by
  refine ⟨h'.size.trans h.size, fun j => SymbolSet.subset_trans (h.subset j) (h'.subset j), ?_⟩
  rcases h.weight with rfl | hlt
  · exact h'.weight
  · rcases h'.weight with rfl | hlt'
    · exact .inr hlt
    · exact .inr (Nat.lt_trans hlt hlt')

theorem RowLe.set! {bound : Nat} {row : Array SymbolSet} {i : Nat} {set : SymbolSet}
    (hi : i < row.size) (hsub : row.getD i SymbolSet.empty ⊆ set)
    (hne : row.getD i SymbolSet.empty ≠ set) (hset : set.Below bound) :
    RowLe bound row (row.set! i set) := by
  refine ⟨size_set! row i set, fun j => ?_, .inr (rowWeight_set! hi hsub hne hset)⟩
  by_cases hj : i = j
  · rw [← hj, getD_set!_self hi]
    exact hsub
  · rw [getD_set!_of_ne hj]
    exact SymbolSet.subset_refl _

/-- A row that is contained in another one weighs no more. -/
theorem RowLe.rowWeight_le {bound : Nat} {row row' : Array SymbolSet} (h : RowLe bound row row') :
    rowWeight bound row ≤ rowWeight bound row' := by
  rcases h.weight with rfl | hlt
  · exact Nat.le_refl _
  · exact Nat.le_of_lt hlt

/-- One place of a row. -/
def mergePlace (state : Array SymbolSet × Bool × Nat) (set : SymbolSet) :
    Array SymbolSet × Bool × Nat :=
  if (state.1.getD state.2.2 SymbolSet.empty).union set = state.1.getD state.2.2 SymbolSet.empty then
    (state.1, state.2.1, state.2.2 + 1)
  else
    (state.1.set! state.2.2 ((state.1.getD state.2.2 SymbolSet.empty).union set), true,
      state.2.2 + 1)

theorem mergeRow_eq (row : Array SymbolSet) (new : List SymbolSet) : mergeRow row new
    = ((new.foldl mergePlace (row, false, 0)).1, (new.foldl mergePlace (row, false, 0)).2.1) :=
  rfl

/-- What merging keeps of the row, after the first of the new sets. -/
structure Merged (bound : Nat) (row : Array SymbolSet) (done : List SymbolSet)
    (state : Array SymbolSet × Bool × Nat) : Prop where
  place : state.2.2 = done.length
  le : RowLe bound row state.1
  same : state.2.1 = false → state.1 = row
  grown : state.2.1 = true → rowWeight bound row < rowWeight bound state.1
  below : ∀ set ∈ state.1, set.Below bound
  arrived : ∀ (j : Nat) (set : SymbolSet), done[j]? = some set →
    set ⊆ state.1.getD j SymbolSet.empty
  source : ∀ (j : Nat) (x : Symbol), (state.1.getD j SymbolSet.empty).contains x = true →
    (row.getD j SymbolSet.empty).contains x = true ∨ ∃ set, done[j]? = some set ∧ set.contains x = true

theorem getD_below {bound : Nat} {row : Array SymbolSet} (h : ∀ set ∈ row, set.Below bound)
    (i : Nat) : (row.getD i SymbolSet.empty).Below bound := by
  by_cases hi : i < row.size
  · exact h _ (Array.mem_of_getElem? (getElem?_eq_some_getD hi SymbolSet.empty))
  · rw [getD_of_size_le (Nat.le_of_not_lt hi)]
    exact SymbolSet.below_empty

theorem Merged.place_done {bound : Nat} {row : Array SymbolSet} {done : List SymbolSet}
    {state : Array SymbolSet × Bool × Nat} (h : Merged bound row done state) {set : SymbolSet}
    (hset : set.Below bound) (hi : done.length < row.size) :
    Merged bound row (done ++ [set]) (mergePlace state set) := by
  obtain ⟨row', grown, i⟩ := state
  obtain rfl : i = done.length := h.place
  have hle := h.le
  have hbelow := h.below
  have harrived := h.arrived
  have hsource := h.source
  have hsame := h.same
  have hgrown := h.grown
  simp only at hle hbelow harrived hsource hsame hgrown
  have hi' : done.length < row'.size := by
    rw [hle.size]
    exact hi
  by_cases hmerged : (row'.getD done.length SymbolSet.empty).union set
      = row'.getD done.length SymbolSet.empty
  · rw [mergePlace, if_pos hmerged]
    refine ⟨by simp, hle, hsame, hgrown, hbelow, fun j set' hj => ?_, fun j x hx => ?_⟩
    · rcases getElem?_append_singleton_eq_some.1 hj with hj | ⟨rfl, rfl⟩
      · exact harrived j set' hj
      · rw [← hmerged]
        exact SymbolSet.subset_union_right _ _
    · rcases hsource j x hx with hx | ⟨set', hj, hx⟩
      · exact .inl hx
      · exact .inr ⟨set', getElem?_append_singleton_eq_some.2 (.inl hj), hx⟩
  · rw [mergePlace, if_neg hmerged]
    have hunion : ((row'.getD done.length SymbolSet.empty).union set).Below bound :=
      (getD_below hbelow _).union hset
    have hsub := SymbolSet.subset_union_left (row'.getD done.length SymbolSet.empty) set
    have hstep := RowLe.set! hi' hsub (Ne.symm hmerged) hunion
    have htotal := Nat.lt_of_le_of_lt hle.rowWeight_le
      (rowWeight_set! hi' hsub (Ne.symm hmerged) hunion)
    refine ⟨by simp, hle.trans hstep, by simp, fun _ => htotal, fun set' hset' => ?_,
      fun j set' hj => ?_, fun j x hx => ?_⟩
    · rw [Array.set!_eq_setIfInBounds] at hset'
      rcases Array.mem_or_eq_of_mem_setIfInBounds hset' with hmem | heq
      · exact hbelow set' hmem
      · rw [heq]
        exact hunion
    · rcases getElem?_append_singleton_eq_some.1 hj with hj | ⟨rfl, rfl⟩
      · exact SymbolSet.subset_trans (harrived j set' hj) (hstep.subset j)
      · rw [getD_set!_self hi']
        exact SymbolSet.subset_union_right _ _
    · by_cases hj : done.length = j
      · rw [← hj, getD_set!_self hi', SymbolSet.contains_union, Bool.or_eq_true] at hx
        rcases hx with hx | hx
        · rcases hsource _ x hx with hx | ⟨set', hset', hx⟩
          · exact .inl (hj ▸ hx)
          · exact .inr ⟨set', getElem?_append_singleton_eq_some.2 (.inl (hj ▸ hset')), hx⟩
        · exact .inr ⟨set, getElem?_append_singleton_eq_some.2 (.inr ⟨hj.symm, rfl⟩), hx⟩
      · rw [getD_set!_of_ne hj] at hx
        rcases hsource j x hx with hx | ⟨set', hset', hx⟩
        · exact .inl hx
        · exact .inr ⟨set', getElem?_append_singleton_eq_some.2 (.inl hset'), hx⟩

theorem mergeRow_spec {bound : Nat} {row : Array SymbolSet} {new : List SymbolSet}
    (hsize : new.length ≤ row.size) (hrow : ∀ set ∈ row, set.Below bound)
    (hnew : ∀ set ∈ new, set.Below bound) :
    Merged bound row new ((mergeRow row new).1, (mergeRow row new).2, new.length) := by
  have hfold : Merged bound row new (new.foldl mergePlace (row, false, 0)) := by
    refine foldl_induction (Merged bound row)
      ⟨rfl, .refl bound row, fun _ => rfl, by simp, hrow, by simp, fun j x hx => .inl hx⟩ ?_
    intro done set rest state heq hstate
    refine hstate.place_done (hnew set (by rw [heq]; simp)) ?_
    rw [heq, List.length_append, List.length_cons] at hsize
    omega
  rw [mergeRow_eq]
  exact ⟨rfl, hfold.le, hfold.same, hfold.grown, hfold.below, hfold.arrived, hfold.source⟩

/-! ### States -/

/-- The collection for which lookaheads are computed. -/
abbrev states (g : Grammar) : Lr0 := Lr0.ofGrammar g

theorem looks_zip {items : List Item} {sets : List SymbolSet} {item : Item} {x : Symbol} :
    Looks (items.zip sets) item x ↔ ∃ (j : Nat) (set : SymbolSet),
      items[j]? = some item ∧ sets[j]? = some set ∧ set.contains x = true := by
  constructor
  · rintro ⟨set, hmem, hx⟩
    obtain ⟨j, hj⟩ := List.mem_iff_getElem?.1 hmem
    obtain ⟨hitem, hset⟩ := List.getElem?_zip_eq_some.1 hj
    exact ⟨j, set, hitem, hset, hx⟩
  · rintro ⟨j, set, hitem, hset, hx⟩
    exact ⟨set, List.mem_iff_getElem?.2 ⟨j, List.getElem?_zip_eq_some.2 ⟨hitem, hset⟩⟩, hx⟩

theorem looks_kernel {follows : KernelFollows} {q : Nat} {item : Item} {x : Symbol} :
    Looks (kernel (states g) follows q) item x ↔ ∃ j, ((states g).kernel q)[j]? = some item ∧
      ((follows.getD q #[]).getD j SymbolSet.empty).contains x = true := by
  rw [kernel, looks_zip]
  constructor
  · rintro ⟨j, set, hitem, hset, hx⟩
    rw [Array.getElem?_toList] at hset
    exact ⟨j, hitem, by rw [Array.getD_eq_getD_getElem?, hset, Option.getD_some]; exact hx⟩
  · rintro ⟨j, hitem, hx⟩
    have hj : j < (follows.getD q #[]).size := by
      by_contra hge
      rw [getD_of_size_le (Nat.le_of_not_lt hge), SymbolSet.contains_empty] at hx
      cases hx
    refine ⟨j, _, hitem, ?_, hx⟩
    rw [Array.getElem?_toList, getElem?_eq_some_getD hj SymbolSet.empty]

/-- The rows fit the kernels, terminals follow, and only the end of input follows the start
production. -/
structure FollowsOf (g : Grammar) (follows : KernelFollows) : Prop where
  size : follows.size = (states g).kernels.size
  row : ∀ q < (states g).kernels.size, (follows.getD q #[]).size = ((states g).kernel q).length
  below : ∀ q, ∀ set ∈ follows.getD q #[], set.Below g.terminalCount
  start : ∀ (q : Nat) (item : Item) (x : Symbol), Looks (kernel (states g) follows q) item x →
    item.prod = 0 → x = Symbol.eof

theorem FollowsOf.allBelow {follows : KernelFollows} (h : FollowsOf g follows) (q : Nat) :
    AllBelow g.terminalCount (kernel (states g) follows q) := by
  intro entry hentry
  exact h.below q entry.2 (Array.mem_toList_iff.1 (List.of_mem_zip hentry).2)

/-- The number of members of all sets. -/
def weight (g : Grammar) (follows : KernelFollows) : Nat :=
  ∑ q ∈ Finset.range (states g).kernels.size, rowWeight g.terminalCount (follows.getD q #[])

/-- What some handing on makes of the lookaheads: rows grow, and a row that has grown is stale. -/
structure Progress (g : Grammar) (s s' : KernelFollows × Array Bool) : Prop where
  followsOf : FollowsOf g s'.1
  size : s'.2.size = s.2.size
  rows : ∀ q, RowLe g.terminalCount (s.1.getD q #[]) (s'.1.getD q #[])
  stale : ∀ q, s.2.getD q false = true → s'.2.getD q false = true
  changed : ∀ q, s'.2.getD q false = true ∨ s'.1.getD q #[] = s.1.getD q #[]
  weight : s' = s ∨ weight g s.1 < weight g s'.1

theorem Progress.refl {s : KernelFollows × Array Bool} (h : FollowsOf g s.1) : Progress g s s :=
  ⟨h, rfl, fun _ => .refl _ _, fun _ hq => hq, fun _ => .inr rfl, .inl rfl⟩

theorem Progress.trans {s s' s'' : KernelFollows × Array Bool} (h : Progress g s s')
    (h' : Progress g s' s'') : Progress g s s'' := by
  refine ⟨h'.followsOf, h'.size.trans h.size, fun q => (h.rows q).trans (h'.rows q),
    fun q hq => h'.stale q (h.stale q hq), fun q => ?_, ?_⟩
  · rcases h'.changed q with hq | hq
    · exact .inl hq
    · rcases h.changed q with hq' | hq'
      · exact .inl (h'.stale q hq')
      · exact .inr (hq.trans hq')
  · rcases h'.weight with heq | hlt
    · rw [heq]
      exact h.weight
    · rcases h.weight with heq | hlt'
      · rw [heq] at hlt
        exact .inr hlt
      · exact .inr (Nat.lt_trans hlt' hlt)

theorem looks_kernel_mono {follows follows' : KernelFollows} {q : Nat}
    (h : RowLe g.terminalCount (follows.getD q #[]) (follows'.getD q #[])) {item : Item} {x : Symbol}
    (hx : Looks (kernel (states g) follows q) item x) :
    Looks (kernel (states g) follows' q) item x := by
  obtain ⟨j, hitem, hx⟩ := looks_kernel.1 hx
  exact looks_kernel.2 ⟨j, hitem, SymbolSet.contains_of_subset (h.subset j) hx⟩

/-! ### One state hands on -/

/-- What the items of a state hand on to its successor on a symbol. -/
def passed (g : Grammar) (source : List (Item × SymbolSet)) (edge : Symbol × Nat) :
    List SymbolSet :=
  handOn g ((LookaheadTables.ofGrammar g).closureFollows source)
    (source.filter fun entry => decide (g.nextSymbol? entry.1 = some edge.1))
    ((states g).kernel edge.2)

/-- Handing on along one edge. -/
def passEdge (g : Grammar) (source : List (Item × SymbolSet)) (s : KernelFollows × Array Bool)
    (edge : Symbol × Nat) : KernelFollows × Array Bool :=
  if (mergeRow (s.1.getD edge.2 #[]) (passed g source edge)).2 then
    (s.1.set! edge.2 (mergeRow (s.1.getD edge.2 #[]) (passed g source edge)).1,
      s.2.set! edge.2 true)
  else s

theorem handOnFrom_eq (q : Nat) (s : KernelFollows × Array Bool) :
    handOnFrom (LookaheadTables.ofGrammar g) (states g) q s
      = ((states g).edges q).foldl (passEdge g (kernel (states g) s.1 q)) s :=
  rfl

/-- Only the end of input follows the start production among the items of the list. -/
def StartEof (items : List (Item × SymbolSet)) : Prop :=
  ∀ (item : Item) (x : Symbol), Looks items item x → item.prod = 0 → x = Symbol.eof

theorem looks_filter {items : List (Item × SymbolSet)} (p : Item → Bool) {item : Item}
    {x : Symbol} : Looks (items.filter fun entry => p entry.1) item x ↔
      Looks items item x ∧ p item = true := by
  constructor
  · rintro ⟨set, hmem, hx⟩
    obtain ⟨hmem, hp⟩ := List.mem_filter.1 hmem
    exact ⟨⟨set, hmem, hx⟩, hp⟩
  · rintro ⟨⟨set, hmem, hx⟩, hp⟩
    exact ⟨set, List.mem_filter.2 ⟨hmem, hp⟩, hx⟩

theorem length_passed (source : List (Item × SymbolSet)) (edge : Symbol × Nat) :
    (passed g source edge).length = ((states g).kernel edge.2).length :=
  length_handOn _ _ _

theorem below_passed (hg : g.WellFormed) {source : List (Item × SymbolSet)}
    (hsource : AllBelow g.terminalCount source) (edge : Symbol × Nat) :
    ∀ set ∈ passed g source edge, set.Below g.terminalCount := by
  intro set hset
  refine below_handOn (fun i set h => LookaheadTables.below_closureFollows hg hsource h) ?_ hset
  intro entry hentry
  exact hsource entry (List.mem_filter.1 hentry).1

theorem startEof_passed (hg : g.WellFormed) {source : List (Item × SymbolSet)}
    (hsource : AllBelow g.terminalCount source) (hstart : StartEof source) (edge : Symbol × Nat) :
    StartEof (((states g).kernel edge.2).zip (passed g source edge)) := by
  intro item x hx hprod
  rcases of_looks_handOn hx with ⟨_, htrail⟩ | ⟨origin, rfl, horigin⟩
  · obtain ⟨p, hp, hlhs, _⟩ := hg.start
    obtain ⟨i, d⟩ := item
    simp only at hprod
    subst hprod
    rw [Grammar.itemLhs_eq hp, hlhs] at htrail
    exact absurd htrail (LookaheadTables.not_trails_augmented hg hsource)
  · have hsource := (looks_filter fun item => decide (g.nextSymbol? item = some edge.1)).1 horigin
    exact hstart origin x hsource.1 hprod

/-- A grown row is put in the place of another, which is stale from then on. -/
theorem Progress.set! {s : KernelFollows × Array Bool} (h : FollowsOf g s.1)
    (hstale : s.2.size = (states g).kernels.size) {q : Nat} (hq : q < (states g).kernels.size)
    {row : Array SymbolSet} (hle : RowLe g.terminalCount (s.1.getD q #[]) row)
    (hgrown : rowWeight g.terminalCount (s.1.getD q #[]) < rowWeight g.terminalCount row)
    (hbelow : ∀ set ∈ row, set.Below g.terminalCount)
    (hstart : StartEof (((states g).kernel q).zip row.toList)) :
    Progress g s (s.1.set! q row, s.2.set! q true) := by
  have hself : (s.1.set! q row).getD q #[] = row := getD_set!_self (by rw [h.size]; exact hq) _ _
  have hrows : ∀ q', RowLe g.terminalCount (s.1.getD q' #[]) ((s.1.set! q row).getD q' #[]) := by
    intro q'
    by_cases heq : q = q'
    · rw [← heq, hself]
      exact hle
    · rw [getD_set!_of_ne heq]
      exact .refl _ _
  refine ⟨⟨?_, ?_, ?_, ?_⟩, ?_, hrows, ?_, ?_, .inr ?_⟩
  · exact (size_set! s.1 _ _).trans h.size
  · intro q' hq'
    rw [(hrows q').size, h.row q' hq']
  · intro q' set hset
    by_cases heq : q = q'
    · rw [← heq, hself] at hset
      exact hbelow set hset
    · rw [getD_set!_of_ne heq] at hset
      exact h.below q' set hset
  · intro q' item x hx
    by_cases heq : q = q'
    · rw [← heq, kernel, hself] at hx
      exact hstart item x hx
    · rw [kernel, getD_set!_of_ne heq] at hx
      exact h.start q' item x hx
  · exact size_set! s.2 _ _
  · intro q' hq'
    by_cases heq : q = q'
    · rw [← heq, getD_set!_self (by omega)]
    · rw [getD_set!_of_ne heq, hq']
  · intro q'
    by_cases heq : q = q'
    · rw [← heq, getD_set!_self (by omega)]
      exact .inl rfl
    · exact .inr (getD_set!_of_ne heq _ _)
  · exact sum_getD_lt_sum_getD_set! (rowWeight g.terminalCount) h.size hq hgrown

theorem passEdge_spec (hg : g.WellFormed) {source : List (Item × SymbolSet)}
    (hsource : AllBelow g.terminalCount source) (hstart : StartEof source)
    {s : KernelFollows × Array Bool} (h : FollowsOf g s.1)
    (hstale : s.2.size = (states g).kernels.size) {edge : Symbol × Nat}
    (htarget : edge.2 < (states g).kernels.size) :
    Progress g s (passEdge g source s edge) ∧
      ∀ item x, Looks (((states g).kernel edge.2).zip (passed g source edge)) item x →
        Looks (kernel (states g) (passEdge g source s edge).1 edge.2) item x := by
  have hrow := h.row edge.2 htarget
  have hlength := length_passed (g := g) source edge
  have hmerged := mergeRow_spec (by omega) (h.below edge.2) (below_passed hg hsource edge)
  -- everything passed is in the merged row, whatever row the array then has there
  have harrived : ∀ follows : KernelFollows,
      follows.getD edge.2 #[] = (mergeRow (s.1.getD edge.2 #[]) (passed g source edge)).1 →
      ∀ item x, Looks (((states g).kernel edge.2).zip (passed g source edge)) item x →
        Looks (kernel (states g) follows edge.2) item x := by
    intro follows hfollows item x hx
    obtain ⟨j, set, hitem, hset, hx⟩ := looks_zip.1 hx
    refine looks_kernel.2 ⟨j, hitem, ?_⟩
    rw [hfollows]
    exact SymbolSet.contains_of_subset (hmerged.arrived j set hset) hx
  rw [passEdge]
  split
  · rename_i hgrown
    have hself := getD_set!_self (h.size ▸ htarget)
      (mergeRow (s.1.getD edge.2 #[]) (passed g source edge)).1 #[]
    refine ⟨.set! h hstale htarget hmerged.le (hmerged.grown hgrown) hmerged.below ?_,
      harrived _ hself⟩
    -- what the merged row has was in the row or has been passed
    intro item x hx hprod
    rw [← hself] at hx
    obtain ⟨j, hitem, hx⟩ := looks_kernel.1 hx
    rw [hself] at hx
    rcases hmerged.source j x hx with hx | ⟨set, hset, hx⟩
    · exact h.start edge.2 item x (looks_kernel.2 ⟨j, hitem, hx⟩) hprod
    · exact startEof_passed hg hsource hstart edge item x (looks_zip.2 ⟨j, set, hitem, hset, hx⟩) hprod
  · rename_i hgrown
    refine ⟨.refl h, harrived s.1 ?_⟩
    exact (hmerged.same (Bool.not_eq_true _ ▸ hgrown)).symm

theorem foldl_passEdge_spec (hg : g.WellFormed) {source : List (Item × SymbolSet)}
    (hsource : AllBelow g.terminalCount source) (hstart : StartEof source)
    {edges : List (Symbol × Nat)} (htargets : ∀ edge ∈ edges, edge.2 < (states g).kernels.size)
    {s : KernelFollows × Array Bool} (h : FollowsOf g s.1)
    (hstale : s.2.size = (states g).kernels.size) :
    Progress g s (edges.foldl (passEdge g source) s) ∧
      ∀ edge ∈ edges, ∀ item x,
        Looks (((states g).kernel edge.2).zip (passed g source edge)) item x →
        Looks (kernel (states g) (edges.foldl (passEdge g source) s).1 edge.2) item x := by
  induction edges generalizing s with
  | nil => exact ⟨.refl h, by simp⟩
  | cons edge edges ih =>
      obtain ⟨hprogress, harrived⟩ :=
        passEdge_spec hg hsource hstart h hstale (htargets edge List.mem_cons_self)
      obtain ⟨hrest, harrivedRest⟩ := ih
        (fun other hother => htargets other (List.mem_cons_of_mem _ hother))
        hprogress.followsOf (hprogress.size.trans hstale)
      rw [List.foldl_cons]
      refine ⟨hprogress.trans hrest, fun other hother item x hx => ?_⟩
      rcases List.mem_cons.1 hother with rfl | hother
      · exact looks_kernel_mono (hrest.rows other.2) (harrived item x hx)
      · exact harrivedRest other hother item x hx

/-- The state has handed on all it has. -/
def HandedOn (g : Grammar) (follows : KernelFollows) (q : Nat) : Prop :=
  ∀ edge ∈ (states g).edges q, ∀ item x,
    Looks (((states g).kernel edge.2).zip
      (passed g (kernel (states g) follows q) edge)) item x →
    Looks (kernel (states g) follows edge.2) item x

theorem edges_lt (hg : g.WellFormed) {q : Nat} :
    ∀ edge ∈ (states g).edges q, edge.2 < (states g).kernels.size :=
  fun edge hedge =>
    (Lr0.kernel_of_step? hg ((Lr0.step?_eq_some_iff_mem hg (s := edge.1)).2 hedge)).1

theorem handOnFrom_spec (hg : g.WellFormed) {s : KernelFollows × Array Bool} (h : FollowsOf g s.1)
    (hstale : s.2.size = (states g).kernels.size) (q : Nat) :
    Progress g s (handOnFrom (LookaheadTables.ofGrammar g) (states g) q s) ∧
      ((handOnFrom (LookaheadTables.ofGrammar g) (states g) q s).2.getD q false = true ∨
        HandedOn g (handOnFrom (LookaheadTables.ofGrammar g) (states g) q s).1 q) := by
  rw [handOnFrom_eq]
  obtain ⟨hprogress, harrived⟩ :=
    foldl_passEdge_spec hg (h.allBelow q) (h.start q) (edges_lt hg) h hstale
  refine ⟨hprogress, ?_⟩
  rcases hprogress.changed q with hq | hq
  · exact .inl hq
  · refine .inr fun edge hedge item x hx => harrived edge hedge item x ?_
    rwa [kernel, hq, ← kernel] at hx

/-- A state that is not stale keeps having handed on all it has. -/
theorem HandedOn.mono {s s' : KernelFollows × Array Bool} (hprogress : Progress g s s') {q : Nat}
    (hq : s'.1.getD q #[] = s.1.getD q #[]) (h : HandedOn g s.1 q) : HandedOn g s'.1 q := by
  intro edge hedge item x hx
  rw [kernel, hq, ← kernel] at hx
  exact looks_kernel_mono (hprogress.rows edge.2) (h edge hedge item x hx)

/-! ### Rounds -/

/-- Every state is stale or has handed on all it has. -/
structure Settled (g : Grammar) (s : KernelFollows × Array Bool) : Prop where
  followsOf : FollowsOf g s.1
  size : s.2.size = (states g).kernels.size
  handed : ∀ q, s.2.getD q false = true ∨ HandedOn g s.1 q

/-- One state of a round. -/
def visit (g : Grammar) (s : KernelFollows × Array Bool) (q : Nat) : KernelFollows × Array Bool :=
  if s.2.getD q false then
    handOnFrom (LookaheadTables.ofGrammar g) (states g) q (s.1, s.2.set! q false)
  else s

theorem round_eq (s : KernelFollows × Array Bool) :
    round (LookaheadTables.ofGrammar g) (states g) s
      = (List.range (states g).kernels.size).foldl (visit g) s :=
  rfl

/-- What some states of a round make of the lookaheads: something has grown, or only marks have been
taken away. -/
structure Visited (g : Grammar) (s : KernelFollows × Array Bool) (done : List Nat)
    (s' : KernelFollows × Array Bool) : Prop where
  settled : Settled g s'
  rows : ∀ q, RowLe g.terminalCount (s.1.getD q #[]) (s'.1.getD q #[])
  weight : weight g s.1 < weight g s'.1 ∨
    (s'.1 = s.1 ∧ ∀ q, s'.2.getD q false = true → s.2.getD q false = true ∧ q ∉ done)

theorem Visited.visit (hg : g.WellFormed) {s s' : KernelFollows × Array Bool} {done : List Nat}
    (h : Visited g s done s') (q : Nat) : Visited g s (done ++ [q]) (visit g s' q) := by
  have hsettled := h.settled
  rw [KernelFollows.visit]
  split
  · rename_i hstale
    have hsize : (s'.2.set! q false).size = (states g).kernels.size :=
      (size_set! s'.2 q false).trans hsettled.size
    have hq : q < s'.2.size := by
      by_contra hge
      rw [getD_of_size_le (Nat.le_of_not_lt hge)] at hstale
      cases hstale
    obtain ⟨hprogress, hhanded⟩ :=
      handOnFrom_spec hg (s := (s'.1, s'.2.set! q false)) hsettled.followsOf hsize q
    refine ⟨⟨hprogress.followsOf, hprogress.size.trans hsize, fun r => ?_⟩,
      fun r => (h.rows r).trans (hprogress.rows r), ?_⟩
    · by_cases hr : q = r
      · rw [← hr]
        exact hhanded
      · rcases hprogress.changed r with hchanged | hchanged
        · exact .inl hchanged
        · rcases hsettled.handed r with hmark | hdone
          · refine .inl (hprogress.stale r ?_)
            rw [getD_set!_of_ne hr]
            exact hmark
          · exact .inr (hdone.mono hprogress hchanged)
    · rcases hprogress.weight with heq | hlt
      · rcases h.weight with hlt | ⟨hsame, hmarks⟩
        · rw [heq]
          exact .inl hlt
        · rw [heq]
          refine .inr ⟨hsame, fun r hr => ?_⟩
          by_cases hqr : q = r
          · rw [← hqr, getD_set!_self hq] at hr
            cases hr
          · rw [getD_set!_of_ne hqr] at hr
            refine ⟨(hmarks r hr).1, fun hmem => ?_⟩
            rcases List.mem_append.1 hmem with hmem | hmem
            · exact (hmarks r hr).2 hmem
            · exact hqr (List.mem_singleton.1 hmem).symm
      · rcases h.weight with hlt' | ⟨hsame, _⟩
        · exact .inl (Nat.lt_trans hlt' hlt)
        · rw [← hsame]
          exact .inl hlt
  · rename_i hstale
    refine ⟨hsettled, h.rows, ?_⟩
    rcases h.weight with hlt | ⟨hsame, hmarks⟩
    · exact .inl hlt
    · refine .inr ⟨hsame, fun r hr => ⟨(hmarks r hr).1, fun hmem => ?_⟩⟩
      rcases List.mem_append.1 hmem with hmem | hmem
      · exact (hmarks r hr).2 hmem
      · rw [List.mem_singleton.1 hmem] at hr
        exact hstale hr

theorem round_spec (hg : g.WellFormed) {s : KernelFollows × Array Bool} (h : Settled g s) :
    Settled g (round (LookaheadTables.ofGrammar g) (states g) s) ∧
      (∀ q, RowLe g.terminalCount (s.1.getD q #[])
        ((round (LookaheadTables.ofGrammar g) (states g) s).1.getD q #[])) ∧
      (weight g s.1 < weight g (round (LookaheadTables.ofGrammar g) (states g) s).1 ∨
        ∀ q, (round (LookaheadTables.ofGrammar g) (states g) s).2.getD q false = false) := by
  rw [round_eq]
  have hvisited : Visited g s (List.range (states g).kernels.size)
      ((List.range (states g).kernels.size).foldl (visit g) s) := by
    refine foldl_induction (Visited g s) ⟨h, fun _ => .refl _ _, .inr ⟨rfl, by simp⟩⟩ ?_
    intro done q rest s' _ hs'
    exact hs'.visit hg q
  refine ⟨hvisited.settled, hvisited.rows, ?_⟩
  rcases hvisited.weight with hlt | ⟨_, hmarks⟩
  · exact .inl hlt
  · refine .inr fun q => ?_
    by_contra hmark
    rw [Bool.not_eq_false] at hmark
    have hq : q < (states g).kernels.size := by
      rw [← hvisited.settled.size]
      by_contra hge
      rw [getD_of_size_le (Nat.le_of_not_lt hge)] at hmark
      cases hmark
    exact (hmarks q hmark).2 (List.mem_range.2 hq)

/-! ### The fixed point -/

/-- The number of kernel items. -/
def kernelItems (g : Grammar) : Nat :=
  (states g).kernels.foldl (fun n kernel => n + kernel.length) 0

theorem sum_length_kernel (g : Grammar) :
    ∑ q ∈ Finset.range (states g).kernels.size, ((states g).kernel q).length = kernelItems g := by
  have hlist : ∀ (kernels : List (List Item)) (n : Nat),
      n + ∑ q ∈ Finset.range kernels.length, (kernels.getD q []).length
        = kernels.foldl (fun n kernel => n + kernel.length) n := by
    intro kernels
    induction kernels with
    | nil => simp
    | cons kernel kernels ih =>
        intro n
        rw [List.foldl_cons, ← ih, List.length_cons, Finset.sum_range_succ']
        simp only [List.getD_cons_succ, List.getD_cons_zero]
        omega
  have htotal := hlist (states g).kernels.toList 0
  rw [Nat.zero_add] at htotal
  rw [kernelItems, ← Array.foldl_toList, ← htotal, Array.length_toList]
  refine Finset.sum_congr rfl fun q _ => ?_
  rw [Lr0.kernel, Array.getD_eq_getD_getElem?, List.getD_eq_getElem?_getD, Array.getElem?_toList]

theorem weight_le {follows : KernelFollows} (h : FollowsOf g follows) :
    weight g follows ≤ kernelItems g * g.terminalCount := by
  calc weight g follows
      ≤ ∑ q ∈ Finset.range (states g).kernels.size,
          ((states g).kernel q).length * g.terminalCount := by
        refine Finset.sum_le_sum fun q hq => ?_
        rw [← h.row q (Finset.mem_range.1 hq)]
        exact rowWeight_le _ _
    _ = kernelItems g * g.terminalCount := by rw [← Finset.sum_mul, sum_length_kernel]

theorem handedOn_of_not_stale {s : KernelFollows × Array Bool} (h : Settled g s)
    (hstale : ∀ q, s.2.getD q false = false) (q : Nat) : HandedOn g s.1 q := by
  refine (h.handed q).resolve_left ?_
  rw [hstale q]
  exact Bool.false_ne_true

theorem any_stale_eq_false {stale : Array Bool} :
    stale.any id = false ↔ ∀ q, stale.getD q false = false := by
  rw [Array.any_eq_false]
  constructor
  · intro h q
    by_cases hq : q < stale.size
    · rw [Array.getD_eq_getD_getElem?, Array.getElem?_eq_getElem hq]
      simpa using h q hq
    · exact getD_of_size_le (Nat.le_of_not_lt hq) _
  · intro h q hq
    have := h q
    rw [Array.getD_eq_getD_getElem?, Array.getElem?_eq_getElem hq] at this
    simpa using this

/-- With enough fuel every state has handed on all it has in the end. -/
theorem close_spec (hg : g.WellFormed) {fuel : Nat} {s : KernelFollows × Array Bool}
    (h : Settled g s)
    (hfuel : kernelItems g * g.terminalCount < fuel + weight g s.1 ∨
      ∀ q, s.2.getD q false = false) :
    FollowsOf g (close (LookaheadTables.ofGrammar g) (states g) fuel s) ∧
      (∀ q, RowLe g.terminalCount (s.1.getD q #[])
        ((close (LookaheadTables.ofGrammar g) (states g) fuel s).getD q #[])) ∧
      ∀ q, HandedOn g (close (LookaheadTables.ofGrammar g) (states g) fuel s) q := by
  induction fuel generalizing s with
  | zero =>
      have hle := weight_le h.followsOf
      have hstale := hfuel.resolve_left (by omega)
      exact ⟨h.followsOf, fun _ => .refl _ _, handedOn_of_not_stale h hstale⟩
  | succ fuel ih =>
      rw [close]
      by_cases hany : s.2.any id = true
      · rw [if_pos hany]
        obtain ⟨hsettled, hrows, hweight⟩ := round_spec hg h
        have hfuel := hfuel.resolve_right (by
          rw [← any_stale_eq_false, hany]
          exact Bool.noConfusion)
        obtain ⟨hfollows, hrows', hhanded⟩ := ih hsettled (by
          rcases hweight with hlt | hstale
          · exact .inl (by omega)
          · exact .inr hstale)
        exact ⟨hfollows, fun q => (hrows q).trans (hrows' q), hhanded⟩
      · rw [if_neg hany]
        rw [Bool.not_eq_true] at hany
        exact ⟨h.followsOf, fun _ => .refl _ _,
          handedOn_of_not_stale h (any_stale_eq_false.1 hany)⟩

theorem getD_initial_zero (hg : g.WellFormed) :
    (initial (states g)).getD 0 #[] = #[SymbolSet.singleton Symbol.eof] := by
  have hsize := Lr0.size_kernels_pos hg
  have hkernel := Lr0.kernel_zero hg
  rw [initial, getD_modify_self (by simpa using hsize)]
  have hrow : ((states g).kernels.map fun kernel =>
      Array.replicate kernel.length SymbolSet.empty).getD 0 #[]
        = Array.replicate ((states g).kernel 0).length SymbolSet.empty :=
    getD_map (fun kernel : List Item => Array.replicate kernel.length SymbolSet.empty) []
  rw [hrow, hkernel, Array.map_replicate]
  rfl

theorem getD_initial_of_ne {q : Nat} (hq : q ≠ 0) :
    (initial (states g)).getD q #[]
      = Array.replicate ((states g).kernel q).length SymbolSet.empty := by
  rw [initial, getD_modify_of_ne (Ne.symm hq)]
  exact getD_map (fun kernel : List Item => Array.replicate kernel.length SymbolSet.empty) []

theorem followsOf_initial (hg : g.WellFormed) : FollowsOf g (initial (states g)) := by
  have hkernel := Lr0.kernel_zero hg
  refine ⟨by simp [initial], fun q _ => ?_, fun q set hset => ?_, fun q item x hx _ => ?_⟩
  · by_cases hq : q = 0
    · rw [hq, getD_initial_zero hg, hkernel]
      rfl
    · rw [getD_initial_of_ne hq, Array.size_replicate]
  · by_cases hq : q = 0
    · rw [hq, getD_initial_zero hg] at hset
      rw [List.mem_singleton.1 (Array.mem_toList_iff.2 hset)]
      exact SymbolSet.below_singleton hg.terminals
    · rw [getD_initial_of_ne hq] at hset
      rw [(Array.mem_replicate.1 hset).2]
      exact SymbolSet.below_empty
  · obtain ⟨j, hitem, hx⟩ := looks_kernel.1 hx
    by_cases hq : q = 0
    · rw [hq, getD_initial_zero hg] at hx
      cases j with
      | zero => simpa using hx
      | succ j => simp at hx
    · rw [getD_initial_of_ne hq, Array.getD_eq_getD_getElem?, Array.getElem?_replicate] at hx
      split at hx <;> simp at hx

theorem settled_initial (hg : g.WellFormed) :
    Settled g (initial (states g), Array.replicate (states g).kernels.size true) := by
  refine ⟨followsOf_initial hg, Array.size_replicate, fun q => ?_⟩
  by_cases hq : q < (states g).kernels.size
  · exact .inl (getD_replicate hq true false)
  · refine .inr fun edge hedge => ?_
    rw [Lr0.edges_eq_nil hg hq] at hedge
    cases hedge

/-- What follows the kernel items, as the compiler computes it. -/
abbrev final (g : Grammar) : KernelFollows := ofLr0 (LookaheadTables.ofGrammar g) (states g)

theorem final_spec (hg : g.WellFormed) : FollowsOf g (final g) ∧
    Looks (kernel (states g) (final g) 0) ⟨0, 0⟩ Symbol.eof ∧ ∀ q, HandedOn g (final g) q := by
  obtain ⟨hfollows, hrows, hhanded⟩ := close_spec hg (settled_initial hg)
    (.inl (show _ < kernelItems g * g.terminalCount + 2 + _ by omega))
  refine ⟨hfollows, looks_kernel_mono (hrows 0) (looks_kernel.2 ⟨0, ?_, ?_⟩), hhanded⟩
  · rw [Lr0.kernel_zero hg]
    rfl
  · rw [getD_initial_zero hg]
    rfl

end IncrementalLR.KernelFollows
