import IncrementalLR.Proofs.Grammar.Derivation
import IncrementalLR.Proofs.Tree.Applied

/-!
# The tokens of a tree

What the leaves of a tree spell when extras are left out. A subtree without errors whose nodes are
applied productions spells what the grammar derives from its symbol: a node by its production, and two
joined parts of a repetition by the productions that join one part at a time.
-/

namespace IncrementalLR

open Subtree (nodesAt nodesAmong structuralSymbols IsLeafOf IsNodeOf IsMade)

/-- The symbols of the leaves that are no extras, in order. -/
def terminalsOf (nodes : List Placed) : List Symbol :=
  ((leavesOf nodes).filter fun p => !p.subtree.flags.extra).map (·.subtree.symbol)

variable {g : Grammar} {table : Table} {t : Subtree} {trees : List Subtree} {s : Symbol}

theorem terminalsOf_append (a b : List Placed) :
    terminalsOf (a ++ b) = terminalsOf a ++ terminalsOf b := by
  rw [terminalsOf, leavesOf, List.filter_append, List.filter_append, List.map_append]
  rfl

theorem terminalsOf_nodesAt_of_node (place : Length) (hleaf : t.isLeaf = false) :
    terminalsOf (nodesAt place t) = terminalsOf (nodesAmong place t.children) := by
  rw [terminalsOf, leavesOf_nodesAt_of_node place hleaf]
  rfl

theorem terminalsOf_nodesAt_of_leaf (place : Length) (hleaf : t.isLeaf = true)
    (hchildren : t.children = []) :
    terminalsOf (nodesAt place t) = if t.flags.extra then [] else [t.symbol] := by
  rw [nodesAt_eq, hchildren, nodesAmong]
  cases hextra : t.flags.extra <;> simp [terminalsOf, leavesOf, hleaf, hextra]

/-- What a subtree without errors spells. -/
structure Subtree.Spells (g : Grammar) (table : Table) (t : Subtree) (w : List Symbol) : Prop where
  yields : t.isStructural = true → g.Yields t.symbol w
  other : t.isStructural = false → w = []
  /-- behind what a repetition of the symbol yields it is one part more -/
  continues : ∀ s, t.Continues table s → ∀ u, g.Yields s u → g.Yields s (u ++ w)

/-- Subtrees of the symbols of a right-hand side spell what it yields. -/
theorem yieldsAll_nodesAmong (place : Length)
    (h : ∀ t ∈ trees, ∀ place, t.Spells g table (terminalsOf (nodesAt place t))) :
    g.YieldsAll (structuralSymbols trees) (terminalsOf (nodesAmong place trees)) := by
  induction trees generalizing place with
  | nil => exact .nil
  | cons t rest ih =>
      obtain ⟨ht, hrest⟩ := List.forall_mem_cons.1 h
      have hrest := ih (place + t.total) hrest
      rw [nodesAmong, terminalsOf_append]
      cases hstructural : t.isStructural with
      | true =>
          have hrole : t.role = (true, t.symbol) := by rw [Subtree.role, hstructural]
          rw [structuralSymbols_cons_of_role rest hrole]
          exact .cons _ _ _ _ ((ht place).yields hstructural) hrest
      | false =>
          rw [(ht place).other hstructural, List.nil_append, structuralSymbols,
            List.filter_cons_of_neg (by simp [hstructural])]
          exact hrest

/-- Parts that go on with a repetition go on with it one after the other. -/
theorem yields_append_nodesAmong (place : Length)
    (h : ∀ t ∈ trees, ∀ place, t.Spells g table (terminalsOf (nodesAt place t)))
    (hcontinues : ∀ t ∈ trees, t.Continues table s) {u : List Symbol} (hu : g.Yields s u) :
    g.Yields s (u ++ terminalsOf (nodesAmong place trees)) := by
  induction trees generalizing place u with
  | nil =>
      rw [nodesAmong, terminalsOf, leavesOf, List.filter_nil, List.filter_nil, List.map_nil,
        List.append_nil]
      exact hu
  | cons t rest ih =>
      obtain ⟨ht, hrest⟩ := List.forall_mem_cons.1 h
      obtain ⟨htContinues, hrestContinue⟩ := List.forall_mem_cons.1 hcontinues
      rw [nodesAmong, terminalsOf_append, ← List.append_assoc]
      exact ih _ hrest hrestContinue ((ht place).continues s htContinues u hu)

/-- The first of two joined parts counts: it is no token. -/
theorem Subtree.IsJoined.yields (h : t.IsJoined table)
    (happlied : ∀ child ∈ t.children, Applied table child)
    (hparts : ∀ part ∈ t.children.tail, part.Continues table t.symbol)
    (place : Length) (hchildren : ∀ child ∈ t.children, ∀ place,
      child.Spells g table (terminalsOf (nodesAt place child))) :
    g.Yields t.symbol (terminalsOf (nodesAmong place t.children)) := by
  have hsymbols := h.children
  cases hsplit : t.children with
  | nil =>
      rw [hsplit] at hsymbols
      cases hsymbols
  | cons left rest =>
      rw [hsplit] at hsymbols happlied hparts hchildren
      have hsymbol : left.symbol = t.symbol := (List.cons.inj hsymbols).1
      obtain ⟨hleft, hrest⟩ := List.forall_mem_cons.1 hchildren
      have hstructural : left.isStructural = true := by
        have hauxiliary := h.symbol
        rw [← hsymbol] at hauxiliary
        cases happlied left List.mem_cons_self with
        | leaf _ hleaf =>
            have hnonterminal := hauxiliary.nonterminal
            rw [(hleaf.symbol.resolve_left hauxiliary.ne_error).1] at hnonterminal
            cases hnonterminal
        | node _ hnode => simp [Subtree.isStructural, hnode.extra, hauxiliary.ne_error]
      have hyields := (hleft place).yields hstructural
      rw [hsymbol] at hyields
      rw [nodesAmong, terminalsOf_append]
      exact yields_append_nodesAmong _ hrest hparts hyields

section Compiled

variable (hfrom : table.CompiledFrom g)

include hfrom

/-- A node over the right-hand side of a production yields what its children spell. -/
theorem Subtree.Applies.yields {p : ProductionId} (h : t.Applies table p) (place : Length)
    (hchildren : ∀ child ∈ t.children, ∀ place,
      child.Spells g table (terminalsOf (nodesAt place child))) :
    g.Yields t.symbol (terminalsOf (nodesAmong place t.children)) := by
  obtain ⟨production, hproduction, hlhs, hrhs⟩ := Table.exists_production hfrom h.lt
  have hall := yieldsAll_nodesAmong place hchildren
  rw [h.children, hrhs] at hall
  rw [h.symbol, hlhs]
  exact .node _ production _ hproduction hall

theorem Subtree.IsLeafOf.spells (h : t.IsLeafOf table) (hok : t.flags.hasError = false)
    (place : Length) : t.Spells g table (terminalsOf (nodesAt place t)) := by
  have hne : t.symbol ≠ Symbol.error := by
    intro herror
    rw [h.error herror] at hok
    cases hok
  have hstructural : t.isStructural = !t.flags.extra := by simp [Subtree.isStructural, hne]
  rw [terminalsOf_nodesAt_of_leaf place h.isLeaf h.children]
  refine ⟨?_, ?_, ?_⟩
  · intro hcounts
    rw [hstructural, Bool.not_eq_true'] at hcounts
    rw [if_neg (by simp [hcounts])]
    refine .terminal t.symbol ?_
    have hterminal := (h.symbol.resolve_left hne).1
    rwa [Table.isTerminal, hfrom.terminalCount] at hterminal
  · intro hextra
    rw [hstructural, Bool.not_eq_false'] at hextra
    rw [if_pos hextra]
  · intro s hcontinues
    cases hcontinues with
    | rest _ p base hbase =>
        rw [h.production] at hbase
        cases hbase
    | joined _ _ hchildren => exact absurd h.children hchildren

theorem Applied.spells (h : Applied table t) (hok : t.flags.hasError = false) (place : Length) :
    t.Spells g table (terminalsOf (nodesAt place t)) := by
  induction h generalizing place with
  | leaf t h => exact h.spells hfrom hok place
  | node t h hmade happlied ih =>
      obtain ⟨hne, hok⟩ := h.of_hasError_eq_false hok
      have hchildren : ∀ child ∈ t.children, ∀ place,
          child.Spells g table (terminalsOf (nodesAt place child)) :=
        fun child hchild place => ih child hchild (hok child hchild) place
      rw [terminalsOf_nodesAt_of_node place h.isLeaf]
      refine ⟨fun _ => ?_, ?_, ?_⟩
      · rw [IsMade] at hmade
        split at hmade
        · exact hmade.yields hfrom place hchildren
        · obtain ⟨hjoined, hparts⟩ := hmade.resolve_left hne
          exact hjoined.yields happlied hparts place hchildren
      · intro hstructural
        simp [Subtree.isStructural, h.extra, hne] at hstructural
      · intro s hcontinues u hu
        cases hcontinues with
        | rest _ p base hbase hlt hlhs hrhs =>
            rw [IsMade, hbase] at hmade
            obtain ⟨production, hproduction, hlhs', hrhs'⟩ := Table.exists_production hfrom hlt
            have hall := yieldsAll_nodesAmong place hchildren
            rw [hmade.children] at hall
            have hlink : g.YieldsAll production.rhs
                (u ++ terminalsOf (nodesAmong place t.children)) := by
              rw [← hrhs', hrhs]
              exact .cons s _ u _ hu hall
            rw [← hlhs, hlhs']
            exact .node _ production _ hproduction hlink
        | joined _ _ _ hparts => exact yields_append_nodesAmong place hchildren hparts hu

/-- Without errors the leaves of a tree spell what the start symbol derives, or there are none but
extras. -/
theorem AppliedRoot.derives (h : AppliedRoot table t) (hok : t.flags.hasError = false) :
    (t.head.production ≠ none → g.Derives [g.start] (terminalsOf (nodesAt Length.zero t))) ∧
      (t.head.production = none → terminalsOf (nodesAt Length.zero t) = []) := by
  obtain ⟨_, hok⟩ := h.node.of_hasError_eq_false hok
  have hchildren : ∀ child ∈ t.children, ∀ place,
      child.Spells g table (terminalsOf (nodesAt place child)) :=
    fun child hchild place => (h.children child hchild).spells hfrom (hok child hchild) place
  rw [terminalsOf_nodesAt_of_node Length.zero h.node.isLeaf]
  constructor
  · intro hproduction
    obtain ⟨p, hp⟩ := Option.ne_none_iff_exists'.1 hproduction
    have hyields := (h.production p hp).yields hfrom Length.zero hchildren
    rw [h.symbol, hfrom.startSymbol] at hyields
    exact hyields.derives
  · intro hproduction
    have hall := yieldsAll_nodesAmong Length.zero hchildren
    rw [structuralSymbols_eq_nil (h.others hproduction)] at hall
    generalize terminalsOf (nodesAmong Length.zero t.children) = w at hall ⊢
    cases hall
    rfl

end Compiled

end IncrementalLR
