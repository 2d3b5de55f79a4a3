import IncrementalLR.Proofs.Grammar.Meaning
import IncrementalLR.Proofs.Table.Acceptance
import IncrementalLR.Proofs.Table.Entries
import IncrementalLR.Proofs.Table.Records

/-!
# Transitions of a compiled table

The state behind a symbol is found in three places: the entry itself, the list of an ambiguous entry,
and the record of the shifts that lost their conflict. A shift that lost while several reductions
were kept is in none of them: nothing is recorded beside an ambiguous entry. All other transitions of
the automaton are found, and nothing else is.
-/

namespace IncrementalLR

variable {g : Grammar} {policy : ConflictPolicy} {t : Table} {state : StateId} {s : Symbol}

open KernelFollows (states)

namespace Table

/-- The shift lost a conflict of which several reductions were kept. -/
def ForgetsShift (t : Table) (state : StateId) (s : Symbol) : Prop :=
  ∃ r ∈ t.resolutions, r.state = state ∧ r.lookahead = s ∧ r.reason = .declaredConflict ∧
    ∃ target, .shift target ∈ r.discarded

theorem mem_shiftTarget? {actions : List Action} {target : StateId} (h : .shift target ∈ actions) :
    ∃ first, shiftTarget? actions = some first := by
  fun_induction shiftTarget? actions with
  | case1 => cases h
  | case2 first => exact ⟨first, rfl⟩
  | case3 action _ hne ih =>
      refine ih ?_
      rcases List.mem_cons.1 h with rfl | h
      · exact absurd rfl (hne target)
      · exact h

/-- A shift that the entry shows is found there. -/
theorem exists_nextState?_of_shift {target : StateId} (h : .shift target ∈ t.actionList state s) :
    ∃ next, t.nextState? state s = some next := by
  rw [actionList] at h
  rw [nextState?]
  cases haction : t.action state s with
  | error => simp [haction] at h
  | accept => simp [haction] at h
  | reduce p => simp [haction] at h
  | goto next => simp [haction] at h
  | shift next => exact ⟨next, rfl⟩
  | ambig entry =>
      rw [haction] at h
      exact mem_shiftTarget? h

namespace FilledBy

variable {fillings : List Compile.Filling} {f : Compile.Filling}
  (hfilled : t.FilledBy g policy fillings) (hg : g.WellFormed) (hfrom : t.CompiledFrom g)
  (hfit : t.NumbersFit) (hf : f ∈ fillings)

include hfilled hg hfrom hfit hf

/-- The record of the conflict in a cell is the only one there. -/
theorem filter_resolutions : t.resolutions.toList.filter
      (fun r => r.state = (Compile.place f.cell).1 ∧ r.lookahead = (Compile.place f.cell).2)
    = f.resolution?.toList := by
  rw [hfilled.resolutions]
  refine hfilled.filter_filterMap hg hfrom hfit hf _ _ fun other r hr => ?_
  obtain ⟨reason, _, rfl⟩ := Option.map_eq_some_iff.1 hr
  rw [decide_eq_true_iff, Prod.ext_iff]

/-- The shift that lost in a cell is the only one recorded there. -/
theorem breakdown?_eq : t.breakdown? (Compile.place f.cell).1 (Compile.place f.cell).2
    = f.lost?.map (·.2.2) := by
  have hfilter := hfilled.filter_filterMap hg hfrom hfit hf Compile.Filling.lost?
    (fun entry => decide (entry.1 = (Compile.place f.cell).1 ∧ entry.2.1 = (Compile.place f.cell).2)) ?_
  · rw [breakdown?, hfilled.breakdown, ← List.head?_filter]
    simp only [Bool.decide_and] at hfilter ⊢
    rw [hfilter]
    cases f.lost? <;> rfl
  · intro other entry hentry
    obtain ⟨reason, _, hentry⟩ := Option.bind_eq_some_iff.1 hentry
    split at hentry
    · cases hentry
    · cases hentry
    · cases hentry
      rw [decide_eq_true_iff, Prod.ext_iff]
    · cases hentry

end FilledBy

/-- What the cell of a terminal was filled with, and what became of it. -/
structure FilledAt (g : Grammar) (policy : ConflictPolicy) (t : Table) (state : StateId) (s : Symbol)
    (f : Compile.Filling) : Prop where
  cell : f.cell = (Compile.offerOf g state.toNat, s)
  place : Compile.place f.cell = (state, s)
  settles : Compile.Settles g policy (Compile.offerOf g state.toNat) s f.outcome
  entry : ∃ b, t.action state s = Compile.entryOf b f.outcome.kept
  action : t.action state s = f.entry
  actionList : t.actionList state s = f.outcome.kept

namespace FilledAt

variable {f : Compile.Filling} (hat : t.FilledAt g policy state s f)

include hat

theorem settled : Candidates.Settled g policy (Compile.offerOf g state.toNat).kernel
    ((Compile.offerOf g state.toNat).candidates s) f.outcome :=
  Candidates.settled_of_resolve hat.settles

/-- An action that is not in the entry was discarded for a reason. -/
theorem discards {action : Action}
    (hoffered : action ∈ ((Compile.offerOf g state.toNat).candidates s).actions)
    (hkept : action ∉ t.actionList state s) :
    action ∈ f.outcome.discarded ∧ f.outcome.reason ≠ none := by
  rw [hat.actionList] at hkept
  refine ⟨hat.settled.mem_discarded.2 ⟨hoffered, hkept⟩, fun hnone => hkept ?_⟩
  rw [(Candidates.resolve_of_reason_none hat.settles hnone).2]
  exact hoffered

/-- Several actions are kept in an ambiguous entry, and only there. -/
theorem many_iff : 2 ≤ f.outcome.kept.length ↔ ∃ entry, t.action state s = .ambig entry := by
  obtain ⟨b, hentry⟩ := hat.entry
  match hkept : f.outcome.kept with
  | [] => simp [hentry, hkept, Compile.entryOf]
  | [single] =>
      have hmem : single ∈ f.outcome.kept := by simp [hkept]
      have hplain := Candidates.plain_of_mem_actions (hat.settled.kept_subset hmem)
      simpa [hentry, hkept, Compile.entryOf] using hplain.2
  | first :: second :: rest => simp [hentry, hkept, Compile.entryOf]

theorem resolution?_eq {reason : ResolutionReason} (h : f.outcome.reason = some reason) :
    f.resolution? = some ⟨state, s, t.action state s, f.outcome.discarded, reason⟩ := by
  rw [Compile.Filling.resolution?, h, hat.place, hat.action]
  rfl

end FilledAt

section Fit

variable (hg : g.WellFormed) (h : Table.compile g policy = .ok t) (hfit : t.EntriesFit)

include hg h hfit

theorem FilledBy.exists_filledAt {fillings : List Compile.Filling}
    (hfilled : t.FilledBy g policy fillings) (hstate : state.toNat < t.stateCount)
    (hs : g.isTerminal s = true) (hlt : s.index < t.symbols.size) :
    ∃ f ∈ fillings, t.FilledAt g policy state s f := by
  obtain ⟨hfrom, _⟩ := compile_eq_ok h
  obtain ⟨f, hf, hcell, haction⟩ := hfilled.exists_filling hg hfrom hstate hlt
  have hsettled := hfilled.settled f hf
  rw [Compile.Filling.Settled, hcell, if_pos hs] at hsettled
  obtain ⟨hsettles, b, hentry⟩ := hsettled
  rw [hfrom.symbols] at hlt
  rw [hfrom.stateCount] at hstate
  obtain ⟨outcome, hsettles', hkept⟩ := exists_settles hg h hfit hstate hs hlt
  have heq : f.outcome = outcome := Except.ok.inj (hsettles.symm.trans hsettles')
  refine ⟨f, hf, hcell, ?_, hsettles, ⟨b, haction.trans hentry⟩, haction, by rw [heq]; exact hkept⟩
  rw [hcell, Compile.place]
  exact Prod.ext (by simp [Compile.offer]) rfl

/-- Where the shift is not in the entry and at most one action is kept, it is recorded. -/
theorem exists_nextState?_of_lost {fillings : List Compile.Filling}
    (hfilled : t.FilledBy g policy fillings) {f : Compile.Filling} (hf : f ∈ fillings)
    (hat : t.FilledAt g policy state s f) (hs : t.Has s) {target : Nat}
    (hstep : (states g).step? state.toNat s = some target)
    (hlost : .shift target.toUInt32 ∉ t.actionList state s) (hreason : f.outcome.reason ≠ none)
    (hfew : f.outcome.kept.length ≤ 1) : ∃ next, t.nextState? state s = some next := by
  obtain ⟨reason, hreason⟩ := Option.ne_none_iff_exists'.1 hreason
  have hshift : f.candidates.shift = some target := by
    rw [Compile.Filling.candidates, hat.cell]
    exact hstep
  have hbreakdown := hfilled.breakdown?_eq hg (compile_eq_ok h).1 hfit.toNumbersFit hf
  rw [hat.place, Compile.Filling.lost?, hreason, hshift, ← hat.action, Option.bind_some] at hbreakdown
  rw [nextState?]
  cases haction : t.action state s with
  | shift next =>
      have hmem : .shift next ∈ t.actionList state s := by
        rw [actionList, haction]
        exact List.mem_singleton_self _
      have hnext := (step?_of_shift hg h hfit hs hmem).2
      rw [hstep, Option.some.injEq] at hnext
      rw [hnext, Nat.toUInt32_eq, UInt32.ofNat_toNat] at hlost
      exact absurd hmem hlost
  | goto next => exact ⟨next, rfl⟩
  | ambig entry =>
      exact absurd (hat.many_iff.2 ⟨entry, haction⟩) (by omega)
  | error =>
      rw [haction] at hbreakdown
      exact ⟨_, hbreakdown⟩
  | accept =>
      rw [haction] at hbreakdown
      exact ⟨_, hbreakdown⟩
  | reduce p =>
      rw [haction] at hbreakdown
      exact ⟨_, hbreakdown⟩

/-- A forgotten shift is found nowhere. -/
theorem nextState?_of_forgetsShift (hstate : state.toNat < t.stateCount) (hs : g.isTerminal s = true)
    (hlt : s.index < t.symbols.size) (hforgets : t.ForgetsShift state s) :
    t.nextState? state s = none ∧ ((states g).step? state.toNat s).isSome = true := by
  obtain ⟨fillings, hfilled⟩ := exists_filledBy hg h
  obtain ⟨f, hf, hat⟩ := hfilled.exists_filledAt hg h hfit hstate hs hlt
  obtain ⟨r, hr, hrstate, hrsymbol, hreason, target, hdiscarded⟩ := hforgets
  -- the record is that of the cell
  have hfilter := hfilled.filter_resolutions hg (compile_eq_ok h).1 hfit.toNumbersFit hf
  have hmem : r ∈ f.resolution?.toList := by
    rw [← hfilter, hat.place]
    exact List.mem_filter.2 ⟨Array.mem_toList_iff.2 hr, by simp [hrstate, hrsymbol]⟩
  obtain ⟨reason, hreason', rfl⟩ := Option.map_eq_some_iff.1 (Option.mem_toList.1 hmem)
  rw [show reason = .declaredConflict from hreason] at hreason'
  obtain ⟨entry, haction⟩ := hat.many_iff.1 (Candidates.many_of_declared hat.settles hreason')
  obtain ⟨hoffered, hkept⟩ := hat.settled.mem_discarded.1 hdiscarded
  rw [← hat.actionList] at hkept
  have hstep : (states g).step? state.toNat s = some target.toNat ∨
      ∃ p, Action.shift target = Candidates.reduceAction p := by
    rcases Compile.mem_actions.1 hoffered with ⟨next, hstep, heq⟩ | ⟨p, _, heq⟩
    · cases heq
      rw [toNat_toUInt32_step? hg h hfit hstep]
      exact .inl hstep
    · exact .inr ⟨p, heq⟩
  rcases hstep with hstep | ⟨p, heq⟩
  · refine ⟨Option.eq_none_iff_forall_ne_some.2 fun next hnext => hkept ?_, by rw [hstep]; rfl⟩
    rw [nextState?, haction] at hnext
    have hshift : .shift next ∈ t.actionList state s := by
      rw [actionList, haction]
      exact mem_of_shiftTarget? hnext
    have hnext := (step?_of_shift hg h hfit (.inr hlt) hshift).2
    rw [hstep, Option.some.injEq, UInt32.toNat_inj] at hnext
    rw [hnext]
    exact hshift
  · rw [Candidates.reduceAction] at heq
    split at heq <;> cases heq

/-- A transition of the automaton is found, or forgotten. -/
theorem exists_nextState? {target : Nat} (hstep : (states g).step? state.toNat s = some target) :
    (∃ next, t.nextState? state s = some next) ∨ t.ForgetsShift state s := by
  obtain ⟨hfrom, _⟩ := compile_eq_ok h
  have hstate := step?_lt hg hstep
  obtain ⟨item, _, hnext⟩ := Lr0.exists_nextSymbol?_of_step? hg hstep
  have hlt := (hg.nextSymbol?_usable hnext).2.2
  by_cases hs : g.isTerminal s = true
  · rw [← hfrom.symbols] at hlt
    rw [← hfrom.stateCount] at hstate
    obtain ⟨fillings, hfilled⟩ := exists_filledBy hg h
    obtain ⟨f, hf, hat⟩ := hfilled.exists_filledAt hg h hfit hstate hs hlt
    by_cases hshift : .shift target.toUInt32 ∈ t.actionList state s
    · exact .inl (exists_nextState?_of_shift hshift)
    obtain ⟨hdiscarded, hreason⟩ :=
      hat.discards (Compile.mem_actions.2 (.inl ⟨target, hstep, rfl⟩)) hshift
    by_cases hfew : f.outcome.kept.length ≤ 1
    · exact .inl (exists_nextState?_of_lost hg h hfit hfilled hf hat (.inr hlt) hstep hshift hreason hfew)
    · have hresolution := hat.resolution?_eq (hat.settled.reason_of_many (by omega))
      have hmem := List.mem_filterMap.2 ⟨f, hf, hresolution⟩
      rw [← hfilled.resolutions, Array.mem_toList_iff] at hmem
      exact .inr ⟨_, hmem, rfl, rfl, rfl, target.toUInt32, hdiscarded⟩
  · have hgoto := goto?_eq hg h state (Bool.eq_false_iff.2 hs) hlt
    rw [hstep, goto?] at hgoto
    left
    rw [nextState?]
    cases haction : t.action state s with
    | goto next => exact ⟨next, rfl⟩
    | _ =>
        rw [haction] at hgoto
        cases hgoto

end Fit

/-- The state behind a symbol is the successor in the automaton, however a conflict on it was settled;
unless the shift lost a conflict of which several reductions were kept, and is found no more. -/
theorem nextState?_spec {d : GrammarDef} (hload : Grammar.load d = .ok g)
    (h : Table.compile g policy = .ok t) (hfit : t.EntriesFit) (hstate : state.toNat < t.stateCount)
    (hs : t.Has s) :
    (¬ t.ForgetsShift state s →
      t.nextState? state s = ((states g).step? state.toNat s).map Nat.toUInt32) ∧
    (t.ForgetsShift state s →
      t.nextState? state s = none ∧ ((states g).step? state.toNat s).isSome = true) := by
  have hg := Grammar.load_wellFormed hload
  constructor
  · intro hfound
    cases hstep : (states g).step? state.toNat s with
    | none =>
        refine Option.eq_none_iff_forall_ne_some.2 fun next hnext => ?_
        have hsome := step?_of_nextState? hg h hfit hs hnext
        rw [hstep] at hsome
        cases hsome
    | some target =>
        obtain ⟨next, hnext⟩ := (exists_nextState? hg h hfit hstep).resolve_right hfound
        have hsome := step?_of_nextState? hg h hfit hs hnext
        rw [hstep, Option.some.injEq] at hsome
        rw [hnext, hsome, Option.map_some, Nat.toUInt32_eq, UInt32.ofNat_toNat]
  · intro hforgets
    obtain ⟨fillings, hfilled⟩ := exists_filledBy hg h
    have hterminal : g.isTerminal s = true := by
      obtain ⟨r, hr, _, rfl, _⟩ := hforgets
      exact hfilled.isTerminal_of_mem_resolutions hr
    have hlt : s.index < g.symbols.size :=
      Nat.lt_trans (of_decide_eq_true hterminal) hg.augmented_lt
    rw [← (compile_eq_ok h).1.symbols] at hlt
    exact nextState?_of_forgetsShift hg h hfit hstate hterminal hlt hforgets

end Table

/-! ### Two reductions over one shift -/

def GrammarDef.overruled : GrammarDef :=
  { name := "overruled"
    rules := [("s", .choice [.ranked 1 none (.literal "t"), .seq [.symbol "s", .literal "x"],
        .seq [.symbol "a", .literal "x"], .seq [.literal "t", .literal "x"]]),
      ("a", .ranked 1 none (.literal "t"))]
    extras := some []
    conflicts := [["s", "a"]] }

def Grammar.overruled : Grammar :=
  { name := "overruled"
    symbols := #[⟨"end", .terminal, false, false, false⟩, ⟨"t", .terminal, true, false, false⟩,
      ⟨"x", .terminal, true, false, false⟩, ⟨"start'", .auxiliary, false, false, false⟩,
      ⟨"s", .nonterminal, true, true, false⟩, ⟨"a", .nonterminal, true, true, false⟩]
    terminalCount := 3
    start := ⟨4⟩
    productions := #[⟨⟨3⟩, #[{ symbol := ⟨4⟩ }], none, 0⟩,
      ⟨⟨4⟩, #[{ symbol := ⟨1⟩, precedence := some ⟨1, none⟩ }], some ⟨1, none⟩, 0⟩,
      ⟨⟨4⟩, #[{ symbol := ⟨4⟩ }, { symbol := ⟨2⟩ }], none, 0⟩,
      ⟨⟨4⟩, #[{ symbol := ⟨5⟩ }, { symbol := ⟨2⟩ }], none, 0⟩,
      ⟨⟨4⟩, #[{ symbol := ⟨1⟩ }, { symbol := ⟨2⟩ }], none, 0⟩,
      ⟨⟨5⟩, #[{ symbol := ⟨1⟩, precedence := some ⟨1, none⟩ }], some ⟨1, none⟩, 0⟩]
    fields := #[]
    tokens := #[⟨⟨1⟩, "t", true⟩, ⟨⟨2⟩, "x", true⟩]
    skips := []
    extras := []
    externals := #[]
    word := none
    keywords := []
    conflicts := [[⟨4⟩, ⟨5⟩]]
    tokenPrecedence := []
    auxOrigin := []
    warnings := [] }


theorem load_overruled : Grammar.load .overruled = .ok .overruled := by
  cbv

theorem states_overruled : states Grammar.overruled
    = ⟨#[[⟨0, 0⟩], [⟨1, 1⟩, ⟨4, 1⟩, ⟨5, 1⟩], [⟨0, 1⟩, ⟨2, 1⟩], [⟨3, 1⟩], [⟨4, 2⟩], [⟨2, 2⟩], [⟨3, 2⟩]],
      #[[(⟨1⟩, 1), (⟨4⟩, 2), (⟨5⟩, 3)], [(⟨2⟩, 4)], [(⟨2⟩, 5)], [(⟨2⟩, 6)], [], [], []]⟩ := by
  have hmoves₀ : Lr0.moves .overruled Grammar.overruled.productionsByLhs [⟨0, 0⟩]
      = [(⟨1⟩, [⟨1, 1⟩, ⟨4, 1⟩, ⟨5, 1⟩]), (⟨4⟩, [⟨0, 1⟩, ⟨2, 1⟩]), (⟨5⟩, [⟨3, 1⟩])] := by decide
  have hmoves₁ : Lr0.moves .overruled Grammar.overruled.productionsByLhs [⟨1, 1⟩, ⟨4, 1⟩, ⟨5, 1⟩]
      = [(⟨2⟩, [⟨4, 2⟩])] := by decide
  have hmoves₂ : Lr0.moves .overruled Grammar.overruled.productionsByLhs [⟨0, 1⟩, ⟨2, 1⟩]
      = [(⟨2⟩, [⟨2, 2⟩])] := by decide
  have hmoves₃ : Lr0.moves .overruled Grammar.overruled.productionsByLhs [⟨3, 1⟩]
      = [(⟨2⟩, [⟨3, 2⟩])] := by decide
  have hends : ∀ p < 6, Lr0.moves .overruled Grammar.overruled.productionsByLhs [⟨p, 2⟩] = [] := by
    decide
  have hcount : Lr0.itemCount .overruled = 15 := by decide
  simp [states, Lr0.ofGrammar, hmoves₀, hmoves₁, hmoves₂, hmoves₃, hends, hcount, Lr0.Builder.run,
    Lr0.startKernel, Lr0.Builder.addTransitions, Lr0.Builder.addState]

theorem exists_compile_overruled : ∃ t, Table.compile .overruled .strict = .ok t ∧ t.EntriesFit ∧
    t.stateCount = 7 ∧
    t.resolutions = #[⟨1, ⟨2⟩, .ambig 0, [.shift 4], .declaredConflict⟩] := by
  have hrows : ((Compile.buildRows (LookaheadTables.ofGrammar .overruled)
      (states .overruled) .strict).toOption.map fun rows => (rows.resolutions, rows.ambigs.size))
        = some ([⟨1, ⟨2⟩, .ambig 0, [.shift 4], .declaredConflict⟩], 1) := by
    rw [states_overruled]
    decide +kernel
  cases hbuilt : Compile.buildRows (LookaheadTables.ofGrammar .overruled)
      (states .overruled) .strict with
  | error conflict =>
      rw [hbuilt] at hrows
      cases hrows
  | ok rows =>
      rw [hbuilt] at hrows
      simp only [Except.toOption, Option.map_some, Option.some.injEq, Prod.mk.injEq] at hrows
      obtain ⟨hresolutions, hambigs⟩ := hrows
      obtain ⟨t, ht, hrecords⟩ := Table.exists_compile_of_buildRows hbuilt
      obtain ⟨hfrom, rows', hrows', _, hambigs', _⟩ := Table.compile_eq_ok ht
      cases hbuilt.symm.trans hrows'
      have hstates : t.stateCount = 7 := by
        rw [hfrom.stateCount, states_overruled]
        rfl
      refine ⟨t, ht, ⟨⟨by omega, ?_⟩, ?_⟩, hstates, ?_⟩
      · rw [hfrom.productions, Array.size_map]
        decide
      · rw [hambigs', hambigs]
        decide
      · rw [hrecords, hresolutions]
        rfl

/-- A shift that two reductions of a declared conflict overrule is forgotten. -/
theorem nextState?_overruled : ∃ t, Table.compile .overruled .strict = .ok t ∧
    t.nextState? 1 ⟨2⟩ = none ∧ ((states .overruled).step? 1 ⟨2⟩).isSome = true ∧
    t.nextState? 0 ⟨1⟩ = ((states .overruled).step? 0 ⟨1⟩).map Nat.toUInt32 := by
  obtain ⟨t, ht, hfit, hstates, hresolutions⟩ := exists_compile_overruled
  have hhas : ∀ i < 6, t.Has ⟨i⟩ := by
    intro i hi
    right
    rw [(Table.compile_eq_ok ht).1.symbols]
    exact hi
  have hforgets : t.ForgetsShift 1 ⟨2⟩ :=
    ⟨⟨1, ⟨2⟩, .ambig 0, [.shift 4], .declaredConflict⟩, by rw [hresolutions]; simp, rfl, rfl, rfl, 4,
      by simp⟩
  have hfound : ¬ t.ForgetsShift 0 ⟨1⟩ := by
    rintro ⟨r, hr, hstate, _⟩
    rw [hresolutions] at hr
    cases List.mem_singleton.1 (Array.mem_toList_iff.2 hr)
    cases hstate
  have hlost := (Table.nextState?_spec load_overruled ht hfit (by rw [hstates]; decide)
    (hhas 2 (by decide))).2 hforgets
  exact ⟨t, ht, hlost.1, hlost.2, (Table.nextState?_spec load_overruled ht hfit
    (by rw [hstates]; decide) (hhas 1 (by decide))).1 hfound⟩

end IncrementalLR
