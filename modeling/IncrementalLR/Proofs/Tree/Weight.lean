import IncrementalLR.Proofs.Grammar.Repetition
import IncrementalLR.Proofs.Tree.Applied

/-!
# What subtrees weigh

A subtree weighs the dynamic precedence of its production and what its children weigh. Chains of
repetitions keep their weight when they are balanced, since each part of a repetition weighs the same in
a chain and by itself. Weights are added in 32 bits.
-/

namespace IncrementalLR

/-- What a node over a production weighs by itself. -/
def Table.weight (t : Table) (production : Option ProductionId) : Int32 :=
  (production.map fun p => (t.production p).dynamicPrecedence).getD 0

namespace Subtree

/-- What subtrees weigh together. -/
def weightAll (trees : List Subtree) : Int32 := (trees.map (·.head.dynamicPrecedence)).sum

/-- There is no error in the subtree, and it weighs what its productions weigh. -/
inductive Plain (table : Table) : Subtree → Prop
  | mk (head : Head) (children : List Subtree) (herror : head.flags.hasError = false)
      (hcost : head.errorCost = 0)
      (hweight : head.dynamicPrecedence = table.weight head.production + weightAll children)
      (hchildren : ∀ child ∈ children, Plain table child) : Plain table (.mk head children)

end Subtree

/-- The productions of repetitions weigh what those of their rests weigh. -/
def RepetitionBases.KeepWeight (bases : RepetitionBases) (table : Table) : Prop :=
  ∀ p base, bases.get? p = some base → table.weight (some p) = table.weight (some base)

/-- The productions of a repetition and of its rest, as they stand in the grammar. -/
theorem RepetitionBases.FitTable.exists_productions {bases : RepetitionBases} {table : Table}
    {g : Grammar} (hbases : bases.FitTable table) (hfrom : table.CompiledFrom g) {p base : ProductionId}
    (hbase : bases.get? p = some base) :
    ∃ production rest, g.productions[p.toNat]? = some production ∧
      g.productions[base.toNat]? = some rest ∧ (g.symbolInfo production.lhs).kind = .auxiliary ∧
      rest.lhs = production.lhs ∧ production.rhs = production.lhs :: rest.rhs := by
  obtain ⟨hp, hb, hlhs, haux, hrhs⟩ := hbases.get?_eq_some hbase
  obtain ⟨production, hproduction, hplhs, hprhs⟩ := Table.exists_production hfrom hp
  obtain ⟨rest, hrest, hblhs, hbrhs⟩ := Table.exists_production hfrom hb
  refine ⟨production, rest, hproduction, hrest, ?_, ?_, ?_⟩
  · rw [← hplhs, ← haux.kind, Table.symbolInfo, Grammar.symbolInfo, hfrom.symbols]
  · rw [← hplhs, ← hblhs, hlhs]
  · rw [← hprhs, ← hbrhs, ← hplhs, hrhs]

theorem Table.CompiledFrom.production_eq {table : Table} {g : Grammar} (hfrom : table.CompiledFrom g)
    {p : ProductionId} {production : Production} (hp : g.productions[p.toNat]? = some production) :
    table.production p = Compile.productionInfo production := by
  rw [Table.production, hfrom.productions, Array.getD_eq_getD_getElem?, Array.getElem?_map, hp]
  rfl

theorem RepetitionBases.FitTable.keepWeight {bases : RepetitionBases} {table : Table} {g : Grammar}
    (hbases : bases.FitTable table) (hfrom : table.CompiledFrom g) (hg : g.RepeatsEvenly) :
    bases.KeepWeight table := by
  intro p base hbase
  obtain ⟨production, rest, hproduction, hrest, hkind, hlhs, hrhs⟩ :=
    hbases.exists_productions hfrom hbase
  have hweight := hg production (Array.mem_of_getElem? hproduction) rest (Array.mem_of_getElem? hrest)
    hkind hlhs hrhs
  simpa [Table.weight, hfrom.production_eq hproduction, hfrom.production_eq hrest,
    Compile.productionInfo] using hweight

namespace Subtree

variable {table : Table} {bases : RepetitionBases} {t : Subtree} {trees rest : List Subtree}
  {s : Symbol}

/-! ### Weights -/

theorem weightAll_cons (t : Subtree) (trees : List Subtree) :
    weightAll (t :: trees) = t.head.dynamicPrecedence + weightAll trees := by
  rw [weightAll, List.map_cons, List.sum_cons]
  rfl

theorem weightAll_append (trees others : List Subtree) :
    weightAll (trees ++ others) = weightAll trees + weightAll others := by
  rw [weightAll, List.map_append, List.sum_append]
  rfl

theorem dynamicPrecedence_interior (table : Table) (id : Nat) (s : Symbol)
    (children : List Subtree) (production : Option ProductionId) (fragile : Bool) :
    (interior table id s children production fragile).head.dynamicPrecedence
      = table.weight production + weightAll children := by
  cases children <;> rfl

/-- A node over children that cost nothing costs nothing. -/
theorem errorCost_interior (hs : s ≠ Symbol.error) (h : ∀ child ∈ trees, child.head.errorCost = 0)
    (id : Nat) (production : Option ProductionId) (fragile : Bool) :
    (interior table id s trees production fragile).head.errorCost = 0 := by
  have hfold : ∀ (trees : List Subtree) (summary : Summary),
      (∀ child ∈ trees, child.head.errorCost = 0) →
      (trees.foldl (Summary.add false) summary).errorCost = summary.errorCost := by
    intro trees
    induction trees with
    | nil => exact fun _ _ => rfl
    | cons child trees ih =>
        intro summary h
        obtain ⟨hchild, h⟩ := List.forall_mem_cons.1 h
        rw [List.foldl_cons, ih _ h, Summary.add, costWithin, hchild]
        rfl
  have hnone : (s == Symbol.error) = false := beq_false_of_ne hs
  cases trees with
  | nil => rfl
  | cons first rest =>
      rw [interior]
      simp only [hnone, Bool.false_eq_true, if_false, head]
      rw [hfold _ _ h]
      rfl

namespace Plain

theorem hasError (h : t.Plain table) : t.flags.hasError = false := by
  cases h with
  | mk _ _ herror => exact herror

theorem errorCost (h : t.Plain table) : t.head.errorCost = 0 := by
  cases h with
  | mk _ _ _ hcost => exact hcost

theorem weight (h : t.Plain table) :
    t.head.dynamicPrecedence = table.weight t.head.production + weightAll t.children := by
  cases h with
  | mk _ _ _ _ hweight => exact hweight

theorem child (h : t.Plain table) : ∀ child ∈ t.children, child.Plain table := by
  cases h with
  | mk _ _ _ _ _ hchildren => exact hchildren

theorem ofToken (id : Nat) {token : Lexed} (hne : token.symbol ≠ Symbol.error) :
    (Subtree.ofToken table id token).Plain table := by
  have hnone : (token.symbol == Symbol.error) = false := beq_false_of_ne hne
  refine .mk _ _ hnone ?_ rfl fun _ hchild => absurd hchild List.not_mem_nil
  rw [hnone]
  rfl

theorem interior (id : Nat) (production : Option ProductionId) (fragile : Bool)
    (hs : s ≠ Symbol.error) (h : ∀ child ∈ trees, child.Plain table) :
    (Subtree.interior table id s trees production fragile).Plain table := by
  have herror : (Subtree.interior table id s trees production fragile).flags.hasError = false := by
    rw [hasError_interior, beq_false_of_ne hs, Bool.false_or, anyError, List.any_eq_false]
    intro child hchild
    rw [(h child hchild).hasError]
    exact Bool.false_ne_true
  have hcost : (Subtree.interior table id s trees production fragile).head.errorCost = 0 :=
    errorCost_interior hs (fun child hchild => (h child hchild).errorCost) id production fragile
  have hweight := dynamicPrecedence_interior table id s trees production fragile
  have hproduction := production_interior table id s trees production fragile
  cases trees with
  | nil => exact .mk _ _ herror hcost hweight h
  | cons first rest => exact .mk _ _ herror hcost hweight h

/-! ### Balancing -/

theorem symbol_of_chainBase? {base : ProductionId} {first : Subtree}
    (hchildren : t.children = first :: rest) (h : chainBase? bases t = some base) :
    ∃ p, t.head.production = some p ∧ bases.get? p = some base ∧ first.symbol = t.symbol ∧
      t.symbol ≠ Symbol.error := by
  obtain ⟨p, hp, h⟩ := Option.bind_eq_some_iff.1 h
  obtain ⟨base', hget, h⟩ := Option.bind_eq_some_iff.1 h
  obtain ⟨first', hfirst, h⟩ := Option.bind_eq_some_iff.1 h
  rw [hchildren, List.head?_cons, Option.some.injEq] at hfirst
  subst hfirst
  simp only [Option.ite_none_right_eq_some, Option.some.injEq, Bool.and_eq_true, beq_iff_eq,
    isStructural, bne_iff_ne] at h
  obtain ⟨⟨hsymbol, _, hne⟩, rfl⟩ := h
  exact ⟨p, hp, hget, hsymbol, hsymbol ▸ hne⟩

/-- Taking a chain apart keeps its weight. -/
theorem unchain (hbases : bases.KeepWeight table) (id : Nat) {parts : List Subtree}
    (h : t.Plain table) (hparts : ∀ part ∈ parts, part.Plain table) :
    (∀ part ∈ (Subtree.unchain table bases id parts t).1, part.Plain table) ∧
      weightAll (Subtree.unchain table bases id parts t).1 = weightAll (t :: parts) := by
  fun_induction Subtree.unchain table bases id parts t with
  | case1 id parts head => exact ⟨List.forall_mem_cons.2 ⟨h, hparts⟩, rfl⟩
  | case2 id parts head first rest _ => exact ⟨List.forall_mem_cons.2 ⟨h, hparts⟩, rfl⟩
  | case3 id parts head first rest base hbase part ih =>
      obtain ⟨p, hp, hget, _, hne⟩ := symbol_of_chainBase? rfl hbase
      obtain ⟨hfirst, hrest⟩ := List.forall_mem_cons.1 h.child
      have hpart : part.Plain table := .interior id (some base) _ hne hrest
      obtain ⟨hall, hweight⟩ := ih hfirst (List.forall_mem_cons.2 ⟨hpart, hparts⟩)
      refine ⟨hall, hweight.trans ?_⟩
      have hhead : head.dynamicPrecedence = table.weight (some base)
          + (first.head.dynamicPrecedence + weightAll rest) := by
        rw [← hbases p base hget, ← weightAll_cons]
        exact h.weight.trans (congrArg (table.weight · + _) hp)
      have hown : part.head.dynamicPrecedence = table.weight (some base) + weightAll rest :=
        dynamicPrecedence_interior ..
      rw [weightAll_cons, weightAll_cons, weightAll_cons, hown]
      simp only [Subtree.head]
      rw [hhead]
      ac_rfl

theorem joinPairs (id : Nat) (hs : s ≠ Symbol.error) (h : ∀ t ∈ trees, t.Plain table) :
    (∀ t ∈ (Subtree.joinPairs table s id trees).1, t.Plain table) ∧
      weightAll (Subtree.joinPairs table s id trees).1 = weightAll trees := by
  fun_induction Subtree.joinPairs table s id trees with
  | case1 id left right rest node joined next heq ih =>
      rw [heq] at ih
      obtain ⟨hleft, h⟩ := List.forall_mem_cons.1 h
      obtain ⟨hright, hrest⟩ := List.forall_mem_cons.1 h
      have hpair : ∀ t ∈ [left, right], t.Plain table := by simpa using ⟨hleft, hright⟩
      obtain ⟨hall, hweight⟩ := ih hrest
      refine ⟨List.forall_mem_cons.2 ⟨.interior id none _ hs hpair, hall⟩, ?_⟩
      have hnode : node.head.dynamicPrecedence = weightAll [left, right] :=
        (dynamicPrecedence_interior ..).trans (Int32.zero_add _)
      rw [weightAll_cons, hnode, hweight, ← weightAll_append]
      rfl
  | case2 => exact ⟨h, rfl⟩
  | case3 => exact ⟨h, rfl⟩

theorem joinBalanced (id : Nat) (hs : s ≠ Symbol.error) (hfirst : t.Plain table)
    (hrest : ∀ t ∈ rest, t.Plain table) :
    (Subtree.joinBalanced table s id t rest).1.Plain table ∧
      (Subtree.joinBalanced table s id t rest).1.head.dynamicPrecedence = weightAll (t :: rest) := by
  fun_induction Subtree.joinBalanced table s id t rest with
  | case1 id first =>
      refine ⟨hfirst, ?_⟩
      rw [weightAll_cons]
      exact (Int32.add_zero _).symm
  | case2 id first second rest node ih =>
      obtain ⟨hsecond, hrest⟩ := List.forall_mem_cons.1 hrest
      have hpair : ∀ t ∈ [first, second], t.Plain table := by simpa using ⟨hfirst, hsecond⟩
      obtain ⟨hjoined, hjoinedWeight⟩ := joinPairs (id + 1) hs hrest
      obtain ⟨hplain, hweight⟩ := ih (.interior id none _ hs hpair) hjoined
      refine ⟨hplain, hweight.trans ?_⟩
      have hnode : node.head.dynamicPrecedence = weightAll [first, second] :=
        (dynamicPrecedence_interior ..).trans (Int32.zero_add _)
      rw [weightAll_cons, hnode, hjoinedWeight, ← weightAll_append]
      rfl

theorem balance (hbases : bases.KeepWeight table) (id : Nat) (h : t.Plain table) :
    (Subtree.balance table bases id t).1.Plain table ∧
      (Subtree.balance table bases id t).1.head.dynamicPrecedence = t.head.dynamicPrecedence := by
  rw [Subtree.balance]
  cases hbase : chainBase? bases t with
  | none => exact ⟨h, rfl⟩
  | some base =>
      obtain ⟨head, children⟩ := t
      cases children with
      | nil =>
          obtain ⟨_, _, hbase⟩ := Option.bind_eq_some_iff.1 hbase
          obtain ⟨_, _, hbase⟩ := Option.bind_eq_some_iff.1 hbase
          cases hbase
      | cons first rest =>
          obtain ⟨_, _, _, _, hne⟩ := symbol_of_chainBase? rfl hbase
          obtain ⟨hall, hweight⟩ := h.unchain hbases id fun _ hpart => absurd hpart List.not_mem_nil
          simp only
          split
          · exact ⟨h, rfl⟩
          · rename_i part parts next heq
            rw [heq] at hall hweight
            obtain ⟨hpart, hparts⟩ := List.forall_mem_cons.1 hall
            obtain ⟨hplain, hjoined⟩ := joinBalanced next hne hpart hparts
            refine ⟨hplain, hjoined.trans (hweight.trans ?_)⟩
            rw [weightAll_cons]
            exact Int32.add_zero _

/-- Balancing keeps what subtrees weigh. -/
theorem balanceWhere (hbases : bases.KeepWeight table) (condition : Subtree → Bool) (id : Nat)
    (h : ∀ t ∈ trees, t.Plain table) :
    (∀ t ∈ (Subtree.balanceWhere table bases condition id trees).1, t.Plain table) ∧
      weightAll (Subtree.balanceWhere table bases condition id trees).1 = weightAll trees := by
  induction trees generalizing id with
  | nil => exact ⟨h, rfl⟩
  | cons t rest ih =>
      obtain ⟨ht, hrest⟩ := List.forall_mem_cons.1 h
      rw [Subtree.balanceWhere]
      simp only
      by_cases hcondition : condition t = true
      · rw [if_pos hcondition, weightAll_cons, weightAll_cons]
        obtain ⟨hplain, hweight⟩ := ht.balance hbases id
        obtain ⟨hall, hrestWeight⟩ := ih (Subtree.balance table bases id t).2 hrest
        exact ⟨List.forall_mem_cons.2 ⟨hplain, hall⟩, by rw [hweight, hrestWeight]⟩
      · rw [if_neg hcondition, weightAll_cons, weightAll_cons]
        obtain ⟨hall, hrestWeight⟩ := ih id hrest
        exact ⟨List.forall_mem_cons.2 ⟨ht, hall⟩, by rw [hrestWeight]⟩

end Plain

end Subtree

end IncrementalLR
