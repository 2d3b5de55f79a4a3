import IncrementalLR.Proofs.Tree.Balance

/-!
# Runs of repetitions

A run is a path of nodes of one auxiliary symbol. Balancing a chain of a repetition makes runs that are
no longer than the logarithm of the number of its items, counted from the last node of the chain. That
node may come from an old tree, where its run had some length of its own.
-/

namespace IncrementalLR

/-- The bases split every production of a repetition that goes on with it, and what is split off does not
go on with it. -/
structure RepetitionBases.Splits (bases : RepetitionBases) (table : Table) : Prop
    extends bases.FitTable table where
  free : ∀ p base, bases.get? p = some base →
    (table.production p).lhs ∉ (table.production base).rhs.toList
  all : ∀ p : ProductionId, p.toNat < table.productions.size →
    table.IsAuxiliary (table.production p).lhs →
    (table.production p).lhs ∈ (table.production p).rhs.toList → ∃ base, bases.get? p = some base

theorem RepetitionBases.FitTable.splits {bases : RepetitionBases} {table : Table} {g : Grammar}
    {d : GrammarDef} (hbases : bases.FitTable table) (hfrom : table.CompiledFrom g)
    (hg : Grammar.load d = .ok g) : bases.Splits table := by
  refine ⟨hbases, fun p base hget => (hbases.rest_spec hfrom hg hget).2, ?_⟩
  intro p hp haux hmem
  obtain ⟨production, hproduction, hlhs, hrhs⟩ := Table.exists_production hfrom hp
  have hkind : (g.symbolInfo production.lhs).kind = .auxiliary := by
    rw [← hlhs, ← haux.kind, Table.symbolInfo, Grammar.symbolInfo, hfrom.symbols]
  rw [hlhs, hrhs] at hmem
  obtain ⟨q, hq, hqlhs, hqrhs⟩ :=
    Grammar.exists_rest_of_load hg (Array.mem_of_getElem? hproduction) hkind hmem
  have hinfo : table.productions[p.toNat]? = some (table.production p) := by
    rw [Table.production, Array.getD_eq_getD_getElem?, Array.getElem?_eq_getElem hp]
    rfl
  have hfound : ((table.productions.findIdx? fun other =>
      other.lhs == (table.production p).lhs && other.rhs.toList == q.rhs)).isSome = true := by
    rw [Array.findIdx?_isSome, Array.any_eq_true']
    refine ⟨Compile.productionInfo q, ?_, ?_⟩
    · rw [hfrom.productions]
      exact Array.mem_map_of_mem hq
    · simp [Compile.productionInfo, hqlhs, hlhs, Production.rhs]
  obtain ⟨i, hi⟩ := Option.isSome_iff_exists.1 hfound
  refine ⟨i.toUInt32, ?_⟩
  rw [hbases.eq, get?, ofTable, Array.getElem?_map, hinfo, Option.map_some, Option.join_some, find?]
  rw [hrhs, hqrhs]
  simp only
  rw [if_pos ⟨haux.kind, hlhs.symm⟩, hi]
  rfl

namespace Subtree

mutual

/-- The length of the longest path of nodes of a symbol that starts with the subtree. -/
def runLength (s : Symbol) : Subtree → Nat
  | mk head children => if head.symbol = s then runLengthAll s children + 1 else 0

def runLengthAll (s : Symbol) : List Subtree → Nat
  | [] => 0
  | t :: rest => max (runLength s t) (runLengthAll s rest)

end

mutual

/-- The number of items of a repetition under nodes of its symbol. Each production holds one, and the
nodes that join parts have none. -/
def itemCount (s : Symbol) : Subtree → Nat
  | mk head children =>
    if head.symbol = s then itemCountAll s children + head.production.toList.length else 0

def itemCountAll (s : Symbol) : List Subtree → Nat
  | [] => 0
  | t :: rest => itemCount s t + itemCountAll s rest

end

mutual

/-- The length of the longest run of a symbol anywhere in the subtree. -/
def deepestRun (s : Symbol) : Subtree → Nat
  | mk head children => max (runLength s (mk head children)) (deepestRunAll s children)

def deepestRunAll (s : Symbol) : List Subtree → Nat
  | [] => 0
  | t :: rest => max (deepestRun s t) (deepestRunAll s rest)

end

/-- The run of a repetition is as short as balancing makes it over a node that was as deep before. -/
def IsFlat (deep : Symbol → Nat) (t : Subtree) : Prop :=
  runLength t.symbol t ≤ Nat.clog 2 (itemCount t.symbol t) + max 1 (deep t.symbol)

/-- Wherever a repetition begins in the subtree it is flat, except in skipped text. -/
inductive HoldsFlat (table : Table) (deep : Symbol → Nat) : Subtree → Prop
  | mk (t : Subtree)
      (hflat : t.symbol ≠ Symbol.error → ∀ child ∈ t.children, table.IsAuxiliary child.symbol →
        child.symbol ≠ t.symbol → child.IsFlat deep)
      (hchildren : ∀ child ∈ t.children, HoldsFlat table deep child) : HoldsFlat table deep t

/-- The last node of a chain is no deeper than was known before. -/
def EndsFlat (table : Table) (bases : RepetitionBases) (deep : Symbol → Nat) (t : Subtree) : Prop :=
  table.IsAuxiliary t.symbol → runLength t.symbol (chainEnd bases t) ≤ max 1 (deep t.symbol)

/-- All runs of the subtree are known. -/
def IsKnown (deep : Symbol → Nat) (t : Subtree) : Prop := ∀ s, deepestRun s t ≤ deep s

variable {table : Table} {bases : RepetitionBases} {deep : Symbol → Nat} {t : Subtree}
  {trees rest : List Subtree} {s : Symbol}

/-! ### Lengths and counts -/

theorem runLength_eq (s : Symbol) (t : Subtree) :
    runLength s t = if t.symbol = s then runLengthAll s t.children + 1 else 0 := by
  cases t
  rw [runLength]
  rfl

theorem itemCount_eq (s : Symbol) (t : Subtree) : itemCount s t
    = if t.symbol = s then itemCountAll s t.children + t.head.production.toList.length else 0 := by
  cases t
  rw [itemCount]
  rfl

theorem runLength_le_runLengthAll (h : t ∈ trees) : runLength s t ≤ runLengthAll s trees := by
  induction trees with
  | nil => cases h
  | cons first rest ih =>
      rw [runLengthAll]
      rcases List.mem_cons.1 h with rfl | h
      · exact Nat.le_max_left _ _
      · exact Nat.le_trans (ih h) (Nat.le_max_right _ _)

theorem deepestRun_le_deepestRunAll (h : t ∈ trees) : deepestRun s t ≤ deepestRunAll s trees := by
  induction trees with
  | nil => cases h
  | cons first rest ih =>
      rw [deepestRunAll]
      rcases List.mem_cons.1 h with rfl | h
      · exact Nat.le_max_left _ _
      · exact Nat.le_trans (ih h) (Nat.le_max_right _ _)

theorem runLengthAll_eq_zero (h : ∀ t ∈ trees, t.symbol ≠ s) : runLengthAll s trees = 0 := by
  induction trees with
  | nil => rfl
  | cons first rest ih =>
      obtain ⟨hfirst, hrest⟩ := List.forall_mem_cons.1 h
      rw [runLengthAll, ih hrest, runLength_eq, if_neg hfirst]
      rfl

theorem runLength_le_deepestRun (s : Symbol) (t : Subtree) : runLength s t ≤ deepestRun s t := by
  cases t
  rw [deepestRun]
  exact Nat.le_max_left _ _

theorem IsKnown.child (h : t.IsKnown deep) : ∀ child ∈ t.children, child.IsKnown deep := by
  intro child hchild s
  have hs := h s
  obtain ⟨head, children⟩ := t
  rw [deepestRun] at hs
  have hle : deepestRun s child ≤ deepestRunAll s children := deepestRun_le_deepestRunAll hchild
  omega

mutual

theorem IsKnown.holdsFlat : ∀ t : Subtree, t.IsKnown deep → t.HoldsFlat table deep
  | mk head children, h => by
      refine .mk _ (fun _ child hchild _ _ => ?_) (holdsFlatAll children h.child)
      have hknown := h.child child hchild child.symbol
      have hrun := runLength_le_deepestRun child.symbol child
      rw [IsFlat]
      omega

theorem IsKnown.holdsFlatAll : ∀ trees : List Subtree, (∀ t ∈ trees, t.IsKnown deep) →
    ∀ t ∈ trees, t.HoldsFlat table deep
  | [], _ => nofun
  | t :: rest, h => by
      obtain ⟨ht, hrest⟩ := List.forall_mem_cons.1 h
      exact List.forall_mem_cons.2 ⟨holdsFlat t ht, holdsFlatAll rest hrest⟩

end

/-- The last node of a chain is on a run of the chain. -/
theorem runLength_chainEnd_le (bases : RepetitionBases) (t : Subtree) :
    runLength t.symbol (chainEnd bases t) ≤ runLength t.symbol t := by
  fun_induction chainEnd bases t with
  | case1 => exact Nat.le_refl _
  | case2 => exact Nat.le_refl _
  | case3 head first rest base hbase ih =>
      obtain ⟨_, _, _, hsymbol, _⟩ := Plain.symbol_of_chainBase? rfl hbase
      rw [hsymbol] at ih
      refine Nat.le_trans ih ?_
      rw [runLength_eq _ (mk head (first :: rest)), if_pos rfl]
      exact Nat.le_succ_of_le (runLength_le_runLengthAll List.mem_cons_self)

theorem IsKnown.endsFlat (h : t.IsKnown deep) (table : Table) (bases : RepetitionBases) :
    t.EndsFlat table bases deep := by
  intro _
  calc runLength t.symbol (chainEnd bases t) ≤ runLength t.symbol t := runLength_chainEnd_le bases t
    _ ≤ deepestRun t.symbol t := runLength_le_deepestRun _ t
    _ ≤ deep t.symbol := h t.symbol
    _ ≤ max 1 (deep t.symbol) := Nat.le_max_right _ _

theorem HoldsFlat.child (h : t.HoldsFlat table deep) :
    ∀ child ∈ t.children, child.HoldsFlat table deep := by
  cases h with
  | mk _ _ hchildren => exact hchildren

theorem HoldsFlat.flat (h : t.HoldsFlat table deep) (hne : t.symbol ≠ Symbol.error) :
    ∀ child ∈ t.children, table.IsAuxiliary child.symbol → child.symbol ≠ t.symbol →
      child.IsFlat deep := by
  cases h with
  | mk _ hflat _ => exact hflat hne

theorem holdsFlat_of_isLeaf (h : t.children = []) : t.HoldsFlat table deep := by
  refine .mk t ?_ ?_
  · rw [h]
    exact nofun
  · rw [h]
    exact nofun

theorem holdsFlat_ofSkipped (id : Nat) (h : ∀ t ∈ trees, t.HoldsFlat table deep) :
    (ofSkipped table id trees).HoldsFlat table deep := by
  refine .mk _ (fun hne => absurd (symbol_ofSkipped table id trees) hne) ?_
  intro child hchild
  rw [ofSkipped, children_interior] at hchild
  obtain ⟨t, ht, hchild⟩ := List.mem_flatMap.1 hchild
  rw [flattenError] at hchild
  split at hchild
  · exact (h t ht).child child hchild
  · rw [List.mem_singleton.1 hchild]
    exact h t ht

/-! ### Repetitions of applied productions -/

theorem applies_of_production (h : Applied table t) {p : ProductionId}
    (hp : t.head.production = some p) : t.Applies table p := by
  cases h with
  | leaf _ hleaf =>
      rw [hleaf.production] at hp
      cases hp
  | node _ _ hmade =>
      rw [IsMade, hp] at hmade
      exact hmade

/-- An auxiliary symbol of a child stands on the right-hand side. -/
theorem mem_rhs_of_child (h : Applied table t) {p : ProductionId} (hp : t.head.production = some p)
    {child : Subtree} (hchild : child ∈ t.children) (haux : table.IsAuxiliary child.symbol) :
    child.symbol ∈ (table.production p).rhs.toList := by
  have hstructural : child.isStructural = true := by
    cases h.child child hchild with
    | leaf _ hleaf =>
        rcases hleaf.symbol with herror | ⟨hterminal, _⟩
        · exact absurd herror haux.ne_error
        · rw [haux.nonterminal] at hterminal
          cases hterminal
    | node _ hnode => simp [isStructural, hnode.extra, haux.ne_error]
  rw [← (applies_of_production h hp).children]
  exact List.mem_map_of_mem (List.mem_filter.2 ⟨hchild, hstructural⟩)

/-- A node whose right-hand side does not go on with its symbol ends a run. -/
theorem runLength_eq_one (h : Applied table t) {p : ProductionId} (hp : t.head.production = some p)
    (haux : table.IsAuxiliary t.symbol) (hfree : t.symbol ∉ (table.production p).rhs.toList) :
    runLength t.symbol t = 1 := by
  have hnone : ∀ child ∈ t.children, child.symbol ≠ t.symbol := by
    intro child hchild hsymbol
    exact hfree (hsymbol ▸ mem_rhs_of_child h hp hchild (hsymbol ▸ haux))
  rw [runLength_eq, if_pos rfl, runLengthAll_eq_zero hnone]

/-- There is an item in every repetition. -/
theorem one_le_itemCount (h : Applied table t) (haux : table.IsAuxiliary t.symbol) :
    1 ≤ itemCount t.symbol t := by
  induction h with
  | leaf t h =>
      rcases h.symbol with herror | ⟨hterminal, _⟩
      · exact absurd herror haux.ne_error
      · rw [haux.nonterminal] at hterminal
        cases hterminal
  | node t h hmade _ ih =>
      rw [itemCount_eq, if_pos rfl]
      cases hproduction : t.head.production with
      | some p => exact Nat.le_add_left _ _
      | none =>
          rw [IsMade, hproduction] at hmade
          rcases hmade with herror | ⟨hjoined, _⟩
          · exact absurd herror haux.ne_error
          · have hsymbols := hjoined.children
            cases hchildren : t.children with
            | nil =>
                rw [hchildren] at hsymbols
                cases hsymbols
            | cons first rest =>
                rw [hchildren, List.map_cons, List.cons.injEq] at hsymbols
                obtain ⟨hfirst, _⟩ := hsymbols
                have hone := ih first (hchildren ▸ List.mem_cons_self) (hfirst ▸ haux)
                rw [hfirst] at hone
                rw [itemCountAll]
                omega

/-! ### Balancing -/

theorem runLength_joined (id : Nat) (fragile : Bool) (left right : Subtree) :
    runLength s (interior table id s [left, right] none fragile)
      = max (runLength s left) (runLength s right) + 1 := by
  rw [runLength_eq, symbol_interior, children_interior, if_pos rfl, runLengthAll, runLengthAll,
    runLengthAll, Nat.max_zero]

theorem itemCount_joined (id : Nat) (fragile : Bool) (left right : Subtree) :
    itemCount s (interior table id s [left, right] none fragile)
      = itemCount s left + itemCount s right := by
  rw [itemCount_eq, symbol_interior, children_interior, production_interior, if_pos rfl]
  rfl

theorem itemCountAll_joinPairs (id : Nat) (trees : List Subtree) :
    itemCountAll s (joinPairs table s id trees).1 = itemCountAll s trees := by
  fun_induction joinPairs table s id trees with
  | case1 id left right rest node joined next heq ih =>
      rw [heq] at ih
      have hnode : itemCount s node = _ := itemCount_joined id _ left right
      rw [itemCountAll, itemCountAll, itemCountAll, hnode, ih, Nat.add_assoc]
  | case2 => rfl
  | case3 => rfl

theorem itemCount_joinBalanced (id : Nat) (t : Subtree) (rest : List Subtree) :
    itemCount s (joinBalanced table s id t rest).1 = itemCountAll s (t :: rest) := by
  fun_induction joinBalanced table s id t rest with
  | case1 => rfl
  | case2 id first second rest node ih =>
      have hnode : itemCount s node = _ := itemCount_joined id _ first second
      rw [ih, itemCountAll, itemCountAll_joinPairs, hnode, itemCountAll, itemCountAll, Nat.add_assoc]

theorem length_le_itemCountAll (h : ∀ t ∈ trees, 1 ≤ itemCount s t) :
    trees.length ≤ itemCountAll s trees := by
  induction trees with
  | nil => exact Nat.le_refl 0
  | cons t rest ih =>
      obtain ⟨ht, hrest⟩ := List.forall_mem_cons.1 h
      have hle := ih hrest
      rw [itemCountAll, List.length_cons]
      omega

/-- A subtree of the symbol that holds flat repetitions. -/
structure HoldsPart (table : Table) (deep : Symbol → Nat) (s : Symbol) (t : Subtree) : Prop where
  holds : t.HoldsFlat table deep
  symbol : t.symbol = s

theorem holdsPart_joined (id : Nat) (fragile : Bool) {left right : Subtree}
    (hleft : left.HoldsPart table deep s) (hright : right.HoldsPart table deep s) :
    (interior table id s [left, right] none fragile).HoldsPart table deep s := by
  refine ⟨.mk _ ?_ ?_, symbol_interior ..⟩
  · intro _ child hchild _ hne
    rw [symbol_interior] at hne
    rw [children_interior] at hchild
    rcases List.mem_cons.1 hchild with rfl | hchild
    · exact absurd hleft.symbol hne
    · rw [List.mem_singleton.1 hchild] at hne
      exact absurd hright.symbol hne
  · rw [children_interior]
    exact List.forall_mem_cons.2 ⟨hleft.holds, List.forall_mem_singleton.2 hright.holds⟩

theorem holdsPart_joinPairs (id : Nat) (h : ∀ t ∈ trees, t.HoldsPart table deep s) :
    ∀ t ∈ (joinPairs table s id trees).1, t.HoldsPart table deep s := by
  fun_induction joinPairs table s id trees with
  | case1 id left right rest node joined next heq ih =>
      rw [heq] at ih
      obtain ⟨hleft, h⟩ := List.forall_mem_cons.1 h
      obtain ⟨hright, hrest⟩ := List.forall_mem_cons.1 h
      exact List.forall_mem_cons.2 ⟨holdsPart_joined id _ hleft hright, ih hrest⟩
  | case2 => exact h
  | case3 => exact h

theorem holdsPart_joinBalanced (id : Nat) (ht : t.HoldsPart table deep s)
    (hrest : ∀ t ∈ rest, t.HoldsPart table deep s) :
    (joinBalanced table s id t rest).1.HoldsPart table deep s := by
  fun_induction joinBalanced table s id t rest with
  | case1 => exact ht
  | case2 id first second rest node ih =>
      obtain ⟨hsecond, hrest⟩ := List.forall_mem_cons.1 hrest
      exact ih (holdsPart_joined id _ ht hsecond) (holdsPart_joinPairs (id + 1) hrest)

theorem holdsPart_unchain (id : Nat) {parts : List Subtree} (ht : t.HoldsPart table deep s)
    (hparts : ∀ part ∈ parts, part.HoldsPart table deep s) :
    ∀ part ∈ (unchain table bases id parts t).1, part.HoldsPart table deep s := by
  fun_induction unchain table bases id parts t with
  | case1 => exact List.forall_mem_cons.2 ⟨ht, hparts⟩
  | case2 => exact List.forall_mem_cons.2 ⟨ht, hparts⟩
  | case3 id parts head first rest base hbase part ih =>
      obtain ⟨hholds, rfl⟩ := ht
      obtain ⟨_, _, _, hsymbol, hne⟩ := Plain.symbol_of_chainBase? rfl hbase
      obtain ⟨hfirst, hrest⟩ := List.forall_mem_cons.1 hholds.child
      refine ih ⟨hfirst, hsymbol⟩ (List.forall_mem_cons.2 ⟨⟨.mk _ ?_ ?_, symbol_interior ..⟩, hparts⟩)
      · intro _ child hchild haux hother
        rw [symbol_interior] at hother
        rw [children_interior] at hchild
        exact hholds.flat hne child (List.mem_cons_of_mem first hchild) haux hother
      · rw [children_interior]
        exact hrest

section Balance

variable (hbases : bases.Splits table)

include hbases

theorem holdsFlat_balance (id : Nat) (happlied : Applied table t) (h : t.HoldsFlat table deep) :
    (balance table bases id t).1.HoldsFlat table deep := by
  rw [balance]
  cases hbase : chainBase? bases t with
  | none => exact h
  | some base =>
      obtain ⟨_, hself, _⟩ := chainBase?_spec hbases.toFitTable happlied hbase
      obtain ⟨first, rest, hparts, _⟩ := exists_unchain hbases.toFitTable id hself
        (fun _ hpart => absurd hpart List.not_mem_nil)
      have hall : ∀ part ∈ (unchain table bases id [] t).1, part.HoldsPart table deep t.symbol :=
        holdsPart_unchain id ⟨h, rfl⟩ fun _ hpart => absurd hpart List.not_mem_nil
      simp only
      cases hunchain : unchain table bases id [] t with
      | mk parts next =>
          rw [hunchain] at hparts hall
          obtain rfl : parts = first :: rest := hparts
          obtain ⟨hfirst, hrest⟩ := List.forall_mem_cons.1 hall
          exact (holdsPart_joinBalanced next hfirst hrest).holds

theorem runLength_unchain_le (id : Nat) {parts : List Subtree} {m : Nat}
    (ht : IncrementalLR.IsPart table s t) (hend : runLength s (chainEnd bases t) ≤ m) (hone : 1 ≤ m)
    (hparts : ∀ part ∈ parts, runLength s part ≤ m) :
    ∀ part ∈ (unchain table bases id parts t).1, runLength s part ≤ m := by
  fun_induction unchain table bases id parts t with
  | case1 => exact List.forall_mem_cons.2 ⟨hend, hparts⟩
  | case2 id parts head first rest hnone =>
      simp only [chainEnd, hnone] at hend
      exact List.forall_mem_cons.2 ⟨hend, hparts⟩
  | case3 id parts head first rest base hbase part ih =>
      simp only [chainEnd, hbase] at hend
      obtain rfl : (mk head (first :: rest)).symbol = s := (Prod.mk.inj ht.2).2
      obtain ⟨haux, _, hlinks⟩ := chainBase?_spec hbases.toFitTable ht.1 hbase
      obtain ⟨hfirst, hpart⟩ := hlinks first rest rfl
      obtain ⟨p, hp, hget, _⟩ := Plain.symbol_of_chainBase? rfl hbase
      have happlied := (hpart id head.flags.fragile).1.1
      have hsymbol : part.symbol = head.symbol := symbol_interior ..
      have hlhs : (table.production p).lhs = head.symbol :=
        (applies_of_production ht.1 hp).symbol.symm
      have hrun : runLength part.symbol part = 1 := by
        refine runLength_eq_one happlied (production_interior ..) (hsymbol ▸ haux) ?_
        rw [hsymbol, ← hlhs]
        exact hbases.free p base hget
      rw [hsymbol] at hrun
      exact ih hfirst hend (List.forall_mem_cons.2 ⟨hrun.le.trans hone, hparts⟩)

/-- A balanced chain is flat. -/
theorem isFlat_balance (id : Nat) (happlied : Applied table t) (haux : table.IsAuxiliary t.symbol)
    (hend : t.EndsFlat table bases deep) : (balance table bases id t).1.IsFlat deep := by
  have hend := hend haux
  rw [balance]
  cases hbase : chainBase? bases t with
  | none =>
      rw [chainEnd_of_chainBase? hbase] at hend
      exact Nat.le_trans hend (Nat.le_add_left _ _)
  | some base =>
      obtain ⟨_, hself, _⟩ := chainBase?_spec hbases.toFitTable happlied hbase
      obtain ⟨first, rest, hparts, hfirst, hrest⟩ := exists_unchain hbases.toFitTable id hself
        (fun _ hpart => absurd hpart List.not_mem_nil)
      have hruns := runLength_unchain_le hbases id hself hend (Nat.le_max_left _ _)
        (fun _ hpart => absurd hpart List.not_mem_nil)
      simp only
      cases hunchain : unchain table bases id [] t with
      | mk parts next =>
          rw [hunchain] at hparts hruns
          obtain rfl : parts = first :: rest := hparts
          obtain ⟨hfirstRun, hrestRuns⟩ := List.forall_mem_cons.1 hruns
          have hrole := (isPart_joinBalanced next first rest haux hfirst hrest).2
          have hsymbol : (joinBalanced table t.symbol next first rest).1.symbol = t.symbol :=
            (Prod.mk.inj hrole).2
          have hcount : (first :: rest).length ≤ itemCountAll t.symbol (first :: rest) := by
            refine length_le_itemCountAll fun part hpart => ?_
            have hisPart : IncrementalLR.IsPart table t.symbol part := by
              rcases List.mem_cons.1 hpart with rfl | hpart
              · exact hfirst
              · exact (hrest part hpart).1
            have hpartSymbol : part.symbol = t.symbol := (Prod.mk.inj hisPart.2).2
            rw [← hpartSymbol]
            exact one_le_itemCount hisPart.1 (hpartSymbol ▸ haux)
          have hrun := measure_joinBalanced_le table t.symbol (runLength t.symbol)
            (fun id fragile left right => (runLength_joined id fragile left right).le) next hfirstRun
            hrestRuns
          rw [IsFlat, hsymbol, itemCount_joinBalanced]
          exact hrun.trans (Nat.add_le_add_right (Nat.clog_mono_right 2 hcount) _)

end Balance

end Subtree

end IncrementalLR
