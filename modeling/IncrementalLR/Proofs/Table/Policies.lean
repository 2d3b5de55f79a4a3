import IncrementalLR.Proofs.Table.Transitions

/-!
# What the policy decides

The policy is asked last, where neither precedence and associativity nor a declared conflict settle a
cell. Until then both policies do the same, cell by cell; so the strict one gives the same table as
the other, or refuses the first cell that the other had to decide.
-/

namespace IncrementalLR

variable {g : Grammar} {t : Table}

open KernelFollows (states)

namespace Candidates

/-- Preferring the shift never fails; the strict policy refuses exactly what only the policy settles. -/
theorem resolve_policies (g : Grammar) (state : Nat) (kernel : List Item) (lookahead : Symbol)
    (c : Candidates) : ∃ outcome, c.resolve g .preferShift state kernel lookahead = .ok outcome ∧
      ((outcome.reason ≠ some .policy ∧ c.resolve g .strict state kernel lookahead = .ok outcome) ∨
        (outcome.reason = some .policy ∧ c.resolve g .strict state kernel lookahead
          = .error (describe g state kernel lookahead (keptOf g c)))) := by
  rw [resolve_eq, resolve_eq]
  by_cases hclear : c.actions.length ≤ 1
  · rw [if_pos hclear, if_pos hclear]
    exact ⟨_, rfl, .inl ⟨by simp, rfl⟩⟩
  rw [if_neg hclear, if_neg hclear]
  by_cases hkept : (keptOf g c).length ≤ 1
  · rw [if_pos hkept, if_pos hkept]
    exact ⟨_, rfl, .inl ⟨(isRanked_contestOf g c).2, rfl⟩⟩
  rw [if_neg hkept, if_neg hkept]
  by_cases hdeclared : c.isDeclared g kernel = true
  · rw [if_pos hdeclared, if_pos hdeclared]
    exact ⟨_, rfl, .inl ⟨by simp [keep], rfl⟩⟩
  rw [if_neg hdeclared, if_neg hdeclared]
  exact ⟨_, rfl, .inr ⟨rfl, rfl⟩⟩

end Candidates

namespace Compile

/-- Nothing but the policy settles the cell. -/
def ByPolicy (g : Grammar) (cell : StateOffer × Symbol) : Prop :=
  g.isTerminal cell.2 = true ∧
    ∃ outcome, Settles g .preferShift cell.1 cell.2 outcome ∧ outcome.reason = some .policy

/-- The conflict for which the cell is refused. -/
def refusal (g : Grammar) (cell : StateOffer × Symbol) : Conflict :=
  Candidates.describe g cell.1.state cell.1.kernel cell.2
    (Candidates.keptOf g (cell.1.candidates cell.2))

/-- A cell is the first that nothing but the policy settles. -/
def FirstByPolicy (g : Grammar) (cells : List (StateOffer × Symbol)) (cell : StateOffer × Symbol) :
    Prop :=
  ∃ before after, cells = before ++ cell :: after ∧ (∀ other ∈ before, ¬ ByPolicy g other) ∧
    ByPolicy g cell

/-- Over the same cells, the strict run gives what the other gives, or refuses the first cell that the
other leaves to the policy. -/
def Agree (g : Grammar) (cells : List (StateOffer × Symbol)) {α : Type}
    (strict prefer : Except Conflict α) : Prop :=
  ∃ a, prefer = .ok a ∧ (((∀ cell ∈ cells, ¬ ByPolicy g cell) ∧ strict = .ok a) ∨
    ∃ cell, FirstByPolicy g cells cell ∧ strict = .error (refusal g cell))

variable {α β : Type} {cells more : List (StateOffer × Symbol)}

theorem FirstByPolicy.append_right {cell : StateOffer × Symbol} (h : FirstByPolicy g cells cell) :
    FirstByPolicy g (cells ++ more) cell := by
  obtain ⟨before, after, heq, hbefore, hcell⟩ := h
  refine ⟨before, after ++ more, ?_, hbefore, hcell⟩
  rw [heq, List.append_assoc, List.cons_append]

theorem FirstByPolicy.append_left {cell : StateOffer × Symbol} (h : FirstByPolicy g more cell)
    (hnone : ∀ other ∈ cells, ¬ ByPolicy g other) : FirstByPolicy g (cells ++ more) cell := by
  obtain ⟨before, after, heq, hbefore, hcell⟩ := h
  refine ⟨cells ++ before, after, by rw [heq, List.append_assoc], fun other hother => ?_, hcell⟩
  rcases List.mem_append.1 hother with hother | hother
  · exact hnone other hother
  · exact hbefore other hother

theorem agree_ok (a : α) (hnone : ∀ cell ∈ cells, ¬ ByPolicy g cell) :
    Agree g cells (.ok a) (.ok a) :=
  ⟨a, rfl, .inl ⟨hnone, rfl⟩⟩

/-- Runs that agree may be continued with runs that agree. -/
theorem Agree.bind {strict prefer : Except Conflict α} {f f' : α → Except Conflict β}
    (h : Agree g cells strict prefer) (hnext : ∀ a, Agree g more (f a) (f' a)) :
    Agree g (cells ++ more) (strict >>= f) (prefer >>= f') := by
  obtain ⟨a, rfl, ⟨hnone, rfl⟩ | ⟨cell, hfirst, rfl⟩⟩ := h
  · obtain ⟨b, hprefer, ⟨hnone', hstrict⟩ | ⟨cell, hfirst, hstrict⟩⟩ := hnext a
    · refine ⟨b, hprefer, .inl ⟨fun cell hcell => ?_, hstrict⟩⟩
      rcases List.mem_append.1 hcell with hcell | hcell
      · exact hnone cell hcell
      · exact hnone' cell hcell
    · exact ⟨b, hprefer, .inr ⟨cell, hfirst.append_left hnone, hstrict⟩⟩
  · obtain ⟨b, hprefer, _⟩ := hnext a
    exact ⟨b, hprefer, .inr ⟨cell, hfirst.append_right, rfl⟩⟩

theorem agree_foldlM {f f' : β → α → Except Conflict β} {cellsOf : α → List (StateOffer × Symbol)}
    {items : List α} (hstep : ∀ a ∈ items, ∀ b, Agree g (cellsOf a) (f b a) (f' b a)) (b : β) :
    Agree g (items.flatMap cellsOf) (items.foldlM f b) (items.foldlM f' b) := by
  induction items generalizing b with
  | nil => exact agree_ok b nofun
  | cons a items ih =>
      rw [List.flatMap_cons, List.foldlM_cons, List.foldlM_cons]
      exact (hstep a List.mem_cons_self b).bind
        fun next => ih (fun a' ha' => hstep a' (List.mem_cons_of_mem a ha')) next

theorem agree_addTerminal {o : StateOffer} {s : Symbol} (hs : g.isTerminal s = true) (b : Builder) :
    Agree g [(o, s)] (Builder.addTerminal g .strict o b s) (Builder.addTerminal g .preferShift o b s) := by
  obtain ⟨outcome, hprefer, hcases⟩ :=
    Candidates.resolve_policies g o.state o.kernel s (o.candidates s)
  refine ⟨b.addCell o s (o.candidates s) outcome, ?_, ?_⟩
  · rw [Builder.addTerminal, hprefer]
    rfl
  · rw [Builder.addTerminal]
    rcases hcases with ⟨hreason, hstrict⟩ | ⟨hreason, hstrict⟩
    · left
      rw [hstrict]
      refine ⟨fun cell hcell => ?_, rfl⟩
      rw [List.mem_singleton.1 hcell]
      rintro ⟨_, outcome', hsettles, hpolicy⟩
      rw [← Except.ok.inj (hprefer.symm.trans hsettles)] at hpolicy
      exact hreason hpolicy
    · right
      rw [hstrict]
      exact ⟨(o, s), ⟨[], [], rfl, by simp, hs, outcome, hprefer, hreason⟩, rfl⟩

theorem agree_addState (hg : g.WellFormed) (o : StateOffer) (b : Builder) :
    Agree g (rowCells g o) (Builder.addState g .strict b o) (Builder.addState g .preferShift b o) := by
  have haug := hg.augmented_lt
  rw [rowCells_eq hg, Builder.addState, Builder.addState, Nat.min_eq_left (Nat.le_of_lt haug)]
  refine Agree.bind ?_ fun next => agree_ok _ ?_
  · rw [List.map_eq_flatMap]
    refine agree_foldlM (fun s hs b => agree_addTerminal ?_ b) b
    obtain ⟨i, hi, rfl⟩ := List.mem_map.1 hs
    have hi := List.mem_range.1 hi
    rw [isTerminal_ofIndex hg (Nat.lt_trans hi haug)]
    exact decide_eq_true hi
  · intro cell hcell
    obtain ⟨s, hs, rfl⟩ := List.mem_map.1 hcell
    obtain ⟨i, hi, rfl⟩ := List.mem_map.1 hs
    have hi := List.mem_range'_1.1 hi
    rintro ⟨hterminal, _⟩
    rw [isTerminal_ofIndex hg (by omega), decide_eq_true_iff] at hterminal
    omega

theorem lt_of_placeRank_lt {a b : StateId × Symbol} (h : placeRank a < placeRank b) :
    a.1 < b.1 ∨ a.1 = b.1 ∧ a.2.index < b.2.index := by
  have hbound : b.2.index < 2 ^ 16 := UInt16.toNat_lt _
  rw [placeRank, placeRank] at h
  rw [UInt32.lt_iff_toNat_lt, ← UInt32.toNat_inj]
  omega

theorem agree_buildRows (hg : g.WellFormed) :
    Agree g (allCells g) (buildRows (LookaheadTables.ofGrammar g) (Lr0.ofGrammar g) .strict)
      (buildRows (LookaheadTables.ofGrammar g) (Lr0.ofGrammar g) .preferShift) :=
  agree_foldlM (fun q _ b => agree_addState hg (offerOf g q) b) {}

end Compile

namespace Table

theorem agree_compile (hg : g.WellFormed) :
    Compile.Agree g (Compile.allCells g) (Table.compile g .strict) (Table.compile g .preferShift) := by
  rw [← List.append_nil (Compile.allCells g)]
  exact (Compile.agree_buildRows hg).bind fun rows => Compile.agree_ok _ nofun

theorem FilledBy.byPolicy_iff {fillings : List Compile.Filling}
    (hfilled : t.FilledBy g .preferShift fillings) {f : Compile.Filling} (hf : f ∈ fillings) :
    Compile.ByPolicy g f.cell ↔ f.outcome.reason = some .policy := by
  have hsettled := hfilled.settled f hf
  rw [Compile.Filling.Settled] at hsettled
  constructor
  · rintro ⟨hs, outcome, hsettles, hpolicy⟩
    rw [if_pos hs] at hsettled
    rw [Except.ok.inj (hsettled.1.symm.trans hsettles)]
    exact hpolicy
  · intro hpolicy
    by_cases hs : g.isTerminal f.cell.2 = true
    · rw [if_pos hs] at hsettled
      exact ⟨hs, f.outcome, hsettled.1, hpolicy⟩
    · rw [if_neg hs, hpolicy] at hsettled
      cases hsettled

theorem FilledBy.reason_ne_policy {fillings some' : List Compile.Filling}
    (hfilled : t.FilledBy g .preferShift fillings) (hsub : some' ⊆ fillings)
    (hnone : ∀ f ∈ some', ¬ Compile.ByPolicy g f.cell) :
    ∀ r ∈ some'.filterMap Compile.Filling.resolution?, r.reason ≠ .policy := by
  intro r hr hpolicy
  obtain ⟨f, hf, hr⟩ := List.mem_filterMap.1 hr
  obtain ⟨reason, hreason, rfl⟩ := Option.map_eq_some_iff.1 hr
  rw [show reason = .policy from hpolicy] at hreason
  exact hnone f hf ((hfilled.byPolicy_iff (hsub hf)).2 hreason)

/-- The conflicts are recorded by state, and in a state by lookahead. -/
theorem pairwise_resolutions (hg : g.WellFormed) {policy : ConflictPolicy}
    (h : Table.compile g policy = .ok t) (hfit : t.NumbersFit) :
    t.resolutions.toList.Pairwise fun a b =>
      a.state < b.state ∨ a.state = b.state ∧ a.lookahead.index < b.lookahead.index := by
  obtain ⟨fillings, hfilled⟩ := exists_filledBy hg h
  rw [hfilled.resolutions, List.pairwise_filterMap]
  have hpairwise := hfilled.pairwise_place hg (compile_eq_ok h).1 hfit
  refine hpairwise.imp fun {f f'} hlt r hr r' hr' => ?_
  obtain ⟨_, _, rfl⟩ := Option.map_eq_some_iff.1 hr
  obtain ⟨_, _, rfl⟩ := Option.map_eq_some_iff.1 hr'
  exact Compile.lt_of_placeRank_lt hlt

/-- Where no cell is left to the policy, its reason is not recorded. -/
theorem FilledBy.strict_agrees {fillings : List Compile.Filling}
    (hfilled : t.FilledBy g .preferShift fillings)
    (hnone : ∀ cell ∈ Compile.allCells g, ¬ Compile.ByPolicy g cell) :
    ∀ r ∈ t.resolutions, r.reason ≠ .policy := by
  intro r hr
  rw [← Array.mem_toList_iff, hfilled.resolutions] at hr
  refine hfilled.reason_ne_policy (List.Subset.refl _) (fun f hf => hnone f.cell ?_) r hr
  rw [← hfilled.cells]
  exact List.mem_map_of_mem hf

/-- The first cell that is left to the policy has the first record with this reason. -/
theorem FilledBy.exists_first {fillings : List Compile.Filling}
    (hfilled : t.FilledBy g .preferShift fillings) {cell : Compile.StateOffer × Symbol}
    (hfirst : Compile.FirstByPolicy g (Compile.allCells g) cell) :
    ∃ before r after, t.resolutions.toList = before ++ r :: after ∧
      (∀ other ∈ before, other.reason ≠ .policy) ∧ r.reason = .policy ∧
      ∃ q < (states g).kernels.size, r.state = q.toUInt32 ∧
        cell = (Compile.offerOf g q, r.lookahead) := by
  obtain ⟨before, after, heq, hbefore, hcell⟩ := hfirst
  -- the fillings fall apart where the cells do
  rw [← hfilled.cells] at heq
  obtain ⟨first, rest, hsplit, rfl, hrest⟩ := List.map_eq_append_iff.1 heq
  obtain ⟨f, last, rfl, rfl, rfl⟩ := List.map_eq_cons_iff.1 hrest
  have hf : f ∈ fillings := by
    rw [hsplit]
    exact List.mem_append_right _ List.mem_cons_self
  have hresolution : f.resolution? = some ⟨(Compile.place f.cell).1, (Compile.place f.cell).2,
      f.entry, f.outcome.discarded, .policy⟩ := by
    rw [Compile.Filling.resolution?, (hfilled.byPolicy_iff hf).1 hcell]
    rfl
  obtain ⟨q, hq, hoffer⟩ := hfilled.exists_offerOf hf
  refine ⟨first.filterMap Compile.Filling.resolution?,
    ⟨(Compile.place f.cell).1, (Compile.place f.cell).2, f.entry, f.outcome.discarded, .policy⟩,
    last.filterMap Compile.Filling.resolution?, ?_, ?_, rfl, q, hq, ?_, ?_⟩
  · rw [hfilled.resolutions, hsplit, List.filterMap_append, List.filterMap_cons, hresolution]
  · refine hfilled.reason_ne_policy ?_ fun other hother => hbefore other.cell (List.mem_map_of_mem hother)
    rw [hsplit]
    exact List.subset_append_left _ _
  · simp only [Compile.place, hoffer]
    rfl
  · rw [← hoffer]
    rfl

/-- Preferring the shift always gives a table. The strict policy gives the same one exactly when none
of its conflicts was settled by the policy; otherwise it refuses the first of these. -/
theorem compile_policies {d : GrammarDef} (hload : Grammar.load d = .ok g) :
    ∃ t, Table.compile g .preferShift = .ok t ∧
      (∀ t', Table.compile g .strict = .ok t' ↔
        t' = t ∧ ∀ r ∈ t.resolutions, r.reason ≠ .policy) ∧
      ((∃ r ∈ t.resolutions, r.reason = .policy) → ∃ before r after,
        t.resolutions.toList = before ++ r :: after ∧ (∀ other ∈ before, other.reason ≠ .policy) ∧
        r.reason = .policy ∧ ∃ q < t.stateCount, r.state = q.toUInt32 ∧
          Table.compile g .strict
            = .error (Compile.refusal g (Compile.offerOf g q, r.lookahead))) ∧
      (t.NumbersFit → t.resolutions.toList.Pairwise fun a b =>
        a.state < b.state ∨ a.state = b.state ∧ a.lookahead.index < b.lookahead.index) := by
  have hg := Grammar.load_wellFormed hload
  obtain ⟨t, ht, hcases⟩ := agree_compile hg
  obtain ⟨fillings, hfilled⟩ := exists_filledBy hg ht
  refine ⟨t, ht, fun t' => ?_, fun ⟨r, hr, hpolicy⟩ => ?_, fun hfit => pairwise_resolutions hg ht hfit⟩
  · rcases hcases with ⟨hnone, hstrict⟩ | ⟨cell, hfirst, hstrict⟩
    · rw [hstrict, Except.ok.injEq]
      exact ⟨fun heq => ⟨heq.symm, hfilled.strict_agrees hnone⟩, fun h => h.1.symm⟩
    · obtain ⟨before, r, after, heq, _, hpolicy, _⟩ := hfilled.exists_first hfirst
      rw [hstrict]
      refine ⟨nofun, fun ⟨_, hnone⟩ => absurd hpolicy (hnone r ?_)⟩
      rw [← Array.mem_toList_iff, heq]
      exact List.mem_append_right _ List.mem_cons_self
  · rcases hcases with ⟨hnone, hstrict⟩ | ⟨cell, hfirst, hstrict⟩
    · exact absurd hpolicy (hfilled.strict_agrees hnone r hr)
    · obtain ⟨before, r, after, heq, hbefore, hreason, q, hq, hstate, rfl⟩ :=
        hfilled.exists_first hfirst
      rw [← (compile_eq_ok ht).1.stateCount] at hq
      exact ⟨before, r, after, heq, hbefore, hreason, q, hq, hstate, hstrict⟩

end Table

/-! ### Two in a row -/

def GrammarDef.doubled : GrammarDef :=
  { name := "doubled"
    rules := [("s", .choice [.seq [.symbol "s", .symbol "s"], .literal "t"])]
    extras := some [] }

def Grammar.doubled : Grammar :=
  { name := "doubled"
    symbols := #[⟨"end", .terminal, false, false, false⟩, ⟨"t", .terminal, true, false, false⟩,
      ⟨"start'", .auxiliary, false, false, false⟩, ⟨"s", .nonterminal, true, true, false⟩]
    terminalCount := 2
    start := ⟨3⟩
    productions := #[⟨⟨2⟩, #[{ symbol := ⟨3⟩ }], none, 0⟩,
      ⟨⟨3⟩, #[{ symbol := ⟨3⟩ }, { symbol := ⟨3⟩ }], none, 0⟩, ⟨⟨3⟩, #[{ symbol := ⟨1⟩ }], none, 0⟩]
    fields := #[]
    tokens := #[⟨⟨1⟩, "t", true⟩]
    skips := []
    extras := []
    externals := #[]
    word := none
    keywords := []
    conflicts := []
    tokenPrecedence := []
    auxOrigin := []
    warnings := [] }
theorem load_doubled : Grammar.load .doubled = .ok .doubled := by
  cbv

theorem states_doubled : states Grammar.doubled
    = ⟨#[[⟨0, 0⟩], [⟨2, 1⟩], [⟨0, 1⟩, ⟨1, 1⟩], [⟨1, 1⟩, ⟨1, 2⟩]],
      #[[(⟨1⟩, 1), (⟨3⟩, 2)], [], [(⟨1⟩, 1), (⟨3⟩, 3)], [(⟨1⟩, 1), (⟨3⟩, 3)]]⟩ := by
  have hmoves₀ : Lr0.moves .doubled Grammar.doubled.productionsByLhs [⟨0, 0⟩]
      = [(⟨1⟩, [⟨2, 1⟩]), (⟨3⟩, [⟨0, 1⟩, ⟨1, 1⟩])] := by decide
  have hmoves₁ : Lr0.moves .doubled Grammar.doubled.productionsByLhs [⟨2, 1⟩] = [] := by
    decide
  have hmoves₂ : Lr0.moves .doubled Grammar.doubled.productionsByLhs [⟨0, 1⟩, ⟨1, 1⟩]
      = [(⟨1⟩, [⟨2, 1⟩]), (⟨3⟩, [⟨1, 1⟩, ⟨1, 2⟩])] := by decide
  have hmoves₃ : Lr0.moves .doubled Grammar.doubled.productionsByLhs [⟨1, 1⟩, ⟨1, 2⟩]
      = [(⟨1⟩, [⟨2, 1⟩]), (⟨3⟩, [⟨1, 1⟩, ⟨1, 2⟩])] := by decide
  have hcount : Lr0.itemCount .doubled = 7 := by decide
  simp [states, Lr0.ofGrammar, hmoves₀, hmoves₁, hmoves₂, hmoves₃, hcount, Lr0.Builder.run,
    Lr0.startKernel, Lr0.Builder.addTransitions, Lr0.Builder.addState, Std.HashMap.getElem_insert]

/-- Whether two in a row are one before the next is left to the policy, behind two of them. -/
theorem compile_policies_doubled : ∃ conflict,
    Table.compile .doubled .strict = .error conflict ∧ conflict.state = 3 := by
  obtain ⟨t, ht, _, hrefuses, _⟩ := Table.compile_policies load_doubled
  obtain ⟨hfrom, rows, hrows, _, _, hresolutions⟩ := Table.compile_eq_ok ht
  have hrecords : ((Compile.buildRows (LookaheadTables.ofGrammar .doubled)
      (states .doubled) .preferShift).toOption.map (·.resolutions))
        = some [⟨3, ⟨1⟩, .shift 1, [.reduce 1], .policy⟩] := by
    rw [states_doubled]
    decide +kernel
  rw [hrows] at hrecords
  simp only [Except.toOption, Option.map_some, Option.some.injEq] at hrecords
  rw [hrecords] at hresolutions
  obtain ⟨before, r, after, heq, _, _, q, hq, hstate, hstrict⟩ :=
    hrefuses ⟨⟨3, ⟨1⟩, .shift 1, [.reduce 1], .policy⟩, by rw [hresolutions]; simp, rfl⟩
  refine ⟨_, hstrict, ?_⟩
  -- the only record is that of the last state
  have hr : r ∈ t.resolutions.toList := by
    rw [heq]
    exact List.mem_append_right _ List.mem_cons_self
  rw [hresolutions] at hr
  cases List.mem_singleton.1 hr
  rw [hfrom.stateCount, states_doubled] at hq
  have hq : q < 4 := hq
  have hnumber := congrArg UInt32.toNat hstate
  rw [Nat.toUInt32_eq, UInt32.toNat_ofNat_of_lt' (Nat.lt_trans hq (by decide))] at hnumber
  exact hnumber.symm

end IncrementalLR
