import Mathlib.Data.Set.Defs
import IncrementalLR.Proofs.Parse.Path
import IncrementalLR.Proofs.Parse.Root
import IncrementalLR.Proofs.Tree.Weight

/-!
# What runs and stacks weigh

Where an entry of a table has several actions a run may take any of them, and an extra for which there
is no action is passed over. A run collects the dynamic precedence of the productions by which it
reduces. On a stack every frame holds the weight of its subtree and of those below it. A reduction adds
the weight of its production, and without errors a root weighs what the subtrees under it weigh. Which
frames are extras can be told from the states, unless a state leads to itself.
-/

namespace IncrementalLR

/-! ### Runs that may take any action -/

namespace Table

/-- A run leads from states and what is left of the input to others, with a total of dynamic
precedence. The last state comes first. -/
inductive Runs (t : Table) :
    List StateId → List Symbol → Int → List StateId → List Symbol → Prop
  | refl (states : List StateId) (input : List Symbol) : Runs t states input 0 states input
  | shift (top next : StateId) (below states' : List StateId) (x : Symbol)
      (input input' : List Symbol) (total : Int) (haction : .shift next ∈ t.actionList top x)
      (h : Runs t (next :: top :: below) input total states' input') :
      Runs t (top :: below) (x :: input) total states' input'
  | reduce (top : StateId) (below after states' : List StateId) (x : Symbol)
      (input input' : List Symbol) (p : ProductionId) (total : Int)
      (haction : .reduce p ∈ t.actionList top x)
      (hafter : Recovery.reduceStates t p (top :: below) = some after)
      (h : Runs t after (x :: input) total states' input') :
      Runs t (top :: below) (x :: input) ((t.production p).dynamicPrecedence.toInt + total)
        states' input'
  | skip (top : StateId) (below states' : List StateId) (x : Symbol) (input input' : List Symbol)
      (total : Int) (hextra : (t.symbolInfo x).extra = true) (hnone : t.actionList top x = [])
      (h : Runs t (top :: below) input total states' input') :
      Runs t (top :: below) (x :: input) total states' input'

/-- A run from the states accepts on the last symbol of the input. -/
def Finishes (t : Table) (states : List StateId) (input : List Symbol) (total : Int) : Prop :=
  ∃ top below x, t.Runs states input total (top :: below) [x] ∧ .accept ∈ t.actionList top x

/-- What the runs that accept the input collect. -/
def acceptingTotals (t : Table) (input : List Symbol) : Set Int :=
  { total | t.Finishes [t.startState] input total }

/-- A state leads to another by a shift or a goto. -/
def Enters (t : Table) (state next : StateId) : Prop :=
  ∃ x, .shift next ∈ t.actionList state x ∨ t.goto? state x = some next

variable {t : Table} {states states' states'' : List StateId} {input input' input'' : List Symbol}
  {total total' : Int} {top : StateId} {below : List StateId} {x : Symbol}

/-- A run over a symbol that is no extra stands still, or it shifts or reduces first. -/
theorem Runs.first (hextra : (t.symbolInfo x).extra = false)
    (h : t.Runs (top :: below) (x :: input) total states input') :
    total = 0 ∨
      (∃ next, .shift next ∈ t.actionList top x ∧ t.Runs (next :: top :: below) input total states input') ∨
      ∃ p after left, .reduce p ∈ t.actionList top x ∧
        Recovery.reduceStates t p (top :: below) = some after ∧
        t.Runs after (x :: input) left states input' ∧
        total = (t.production p).dynamicPrecedence.toInt + left := by
  cases h with
  | refl => exact .inl rfl
  | shift _ next _ _ _ _ _ _ haction h => exact .inr (.inl ⟨next, haction, h⟩)
  | reduce _ _ after _ _ _ _ p left haction hafter h =>
      exact .inr (.inr ⟨p, after, left, haction, hafter, h, rfl⟩)
  | skip _ _ _ _ _ _ _ hyes =>
      rw [hextra] at hyes
      cases hyes

theorem Runs.trans (h : t.Runs states input total states' input')
    (h' : t.Runs states' input' total' states'' input'') :
    t.Runs states input (total + total') states'' input'' := by
  induction h with
  | refl =>
      rw [Int.zero_add]
      exact h'
  | shift top next below _ x input _ _ haction _ ih =>
      exact .shift top next below _ x input _ _ haction (ih h')
  | reduce top below after _ x input _ p _ haction hafter _ ih =>
      rw [Int.add_assoc]
      exact .reduce top below after _ x input _ p _ haction hafter (ih h')
  | skip top below _ x input _ _ hextra hnone _ ih =>
      exact .skip top below _ x input _ _ hextra hnone (ih h')

theorem Runs.tail_shift {next : StateId} (h : t.Runs states input total (top :: below) (x :: input'))
    (haction : .shift next ∈ t.actionList top x) :
    t.Runs states input total (next :: top :: below) input' := by
  rw [← Int.add_zero total]
  exact h.trans (.shift top next below _ x input' _ 0 haction (.refl _ _))

theorem Runs.tail_reduce {p : ProductionId} {after : List StateId}
    (h : t.Runs states input total (top :: below) (x :: input'))
    (haction : .reduce p ∈ t.actionList top x)
    (hafter : Recovery.reduceStates t p (top :: below) = some after) :
    t.Runs states input (total + (t.production p).dynamicPrecedence.toInt) after (x :: input') := by
  rw [← Int.add_zero (t.production p).dynamicPrecedence.toInt]
  exact h.trans (.reduce top below after _ x input' _ p 0 haction hafter (.refl _ _))

theorem Runs.tail_skip (h : t.Runs states input total (top :: below) (x :: input'))
    (hextra : (t.symbolInfo x).extra = true) (hnone : t.actionList top x = []) :
    t.Runs states input total (top :: below) input' := by
  rw [← Int.add_zero total]
  exact h.trans (.skip top below _ x input' _ 0 hextra hnone (.refl _ _))

/-- How a run that accepts goes on. -/
inductive Goes (t : Table) (top : StateId) (below : List StateId) (x : Symbol) (input : List Symbol)
    (total : Int) : Prop
  | accept (haction : .accept ∈ t.actionList top x) (hinput : input = []) (htotal : total = 0)
  | shift (next : StateId) (haction : .shift next ∈ t.actionList top x)
      (h : t.Finishes (next :: top :: below) input total)
  | reduce (p : ProductionId) (after : List StateId) (rest : Int)
      (haction : .reduce p ∈ t.actionList top x)
      (hafter : Recovery.reduceStates t p (top :: below) = some after)
      (htotal : total = (t.production p).dynamicPrecedence.toInt + rest)
      (h : t.Finishes after (x :: input) rest)
  | skip (hextra : (t.symbolInfo x).extra = true) (hnone : t.actionList top x = [])
      (h : t.Finishes (top :: below) input total)

theorem Finishes.goes (h : t.Finishes (top :: below) (x :: input) total) :
    t.Goes top below x input total := by
  obtain ⟨last, rest, y, hruns, haccept⟩ := h
  cases hruns with
  | refl => exact .accept haccept rfl rfl
  | shift _ next _ _ _ _ _ _ haction hruns => exact .shift next haction ⟨last, rest, y, hruns, haccept⟩
  | reduce _ _ after _ _ _ _ p total haction hafter hruns =>
      exact .reduce p after total haction hafter rfl ⟨last, rest, y, hruns, haccept⟩
  | skip _ _ _ _ _ _ _ hextra hnone hruns =>
      exact .skip hextra hnone ⟨last, rest, y, hruns, haccept⟩

end Table

/-! ### Stacks -/

open Subtree (weightAll interior balanceWhere structuralSymbols)

/-- Every frame was pushed onto those below it. -/
inductive Stack.IsPushed : Stack → Prop
  | base (state : StateId) : IsPushed (Stack.ofBase state)
  | push (s : Stack) (state : StateId) (tree : Subtree) (pending : Bool) (h : IsPushed s) :
      IsPushed (s.push state tree pending)

theorem Stack.IsPushed.dynamicPrecedence_eq {s : Stack} (h : s.IsPushed) :
    s.dynamicPrecedence = weightAll s.trees := by
  induction h with
  | base => rfl
  | push s state tree pending _ ih =>
      have hsum : (s.push state tree pending).dynamicPrecedence
          = s.dynamicPrecedence + tree.head.dynamicPrecedence := rfl
      rw [hsum, ih, trees_push, Subtree.weightAll_append, Subtree.weightAll_cons]
      exact congrArg _ (Int32.add_zero _).symm

/-- There are no errors on the stack, and the states lead from one to the next. -/
inductive Stack.Plain (table : Table) : Stack → Prop
  | base (state : StateId) : Plain table (Stack.ofBase state)
  | part (s : Stack) (next : StateId) (tree : Subtree) (h : Plain table s)
      (htree : tree.Plain table) (hpart : tree.isStructural = true)
      (henters : table.Enters s.state next) : Plain table (s.push next tree false)
  | extra (s : Stack) (tree : Subtree) (h : Plain table s) (htree : tree.Plain table)
      (hextra : tree.isStructural = false) : Plain table (s.push s.state tree false)

namespace Stack

variable {table : Table} {s a b : Stack} {trees : List Subtree} {state : StateId}

namespace Plain

theorem tree (h : s.Plain table) : ∀ t ∈ s.trees, t.Plain table := by
  induction h with
  | base => exact fun _ ht => absurd ht List.not_mem_nil
  | part s next tree _ htree _ _ ih =>
      rw [trees_push]
      exact List.forall_mem_append.2 ⟨ih, List.forall_mem_singleton.2 htree⟩
  | extra s tree _ htree _ ih =>
      rw [trees_push]
      exact List.forall_mem_append.2 ⟨ih, List.forall_mem_singleton.2 htree⟩

theorem errorCost (h : s.Plain table) : s.errorCost = 0 := by
  have hpush : ∀ (s : Stack) (state : StateId) (tree : Subtree), s.errorCost = 0 →
      tree.Plain table → (s.push state tree false).errorCost = 0 := by
    intro s state tree hs htree
    have hsum : (s.push state tree false).errorCost
        = Cost.ofNat (s.errorCost.toNat + tree.head.errorCost.toNat) := rfl
    rw [hsum, hs, htree.errorCost]
    rfl
  induction h with
  | base => rfl
  | part s next tree _ htree _ _ ih => exact hpush s next tree ih htree
  | extra s tree _ htree _ ih => exact hpush s _ tree ih htree

theorem isPushed (h : s.Plain table) : s.IsPushed := by
  induction h with
  | base state => exact .base state
  | part s next tree _ _ _ _ ih => exact .push s next tree false ih
  | extra s tree _ _ _ ih => exact .push s s.state tree false ih

theorem weight (h : s.Plain table) : s.dynamicPrecedence = weightAll s.trees :=
  h.isPushed.dynamicPrecedence_eq

theorem of_suffix (h : s.Plain table) {frames : List Frame} (hsuffix : frames <:+ s.frames) :
    { s with frames := frames }.Plain table := by
  induction h with
  | base =>
      have hnil : frames = [] := List.suffix_nil.1 hsuffix
      subst hnil
      exact .base _
  | part s next tree hs htree hpart henters ih =>
      rcases List.suffix_cons_iff.1 hsuffix with rfl | hsuffix
      · exact .part s next tree hs htree hpart henters
      · exact ih hsuffix
  | extra s tree hs htree hextra ih =>
      rcases List.suffix_cons_iff.1 hsuffix with rfl | hsuffix
      · exact .extra s tree hs htree hextra
      · exact ih hsuffix

theorem pushAll (h : s.Plain table) (hall : ∀ t ∈ trees, t.Plain table)
    (hextras : ∀ t ∈ trees, t.isStructural = false) :
    (s.pushAll s.state trees).Plain table := by
  induction trees generalizing s with
  | nil => exact h
  | cons t trees ih =>
      obtain ⟨ht, hall⟩ := List.forall_mem_cons.1 hall
      obtain ⟨hextra, hextras⟩ := List.forall_mem_cons.1 hextras
      exact ih (.extra s t h ht hextra) hall hextras

end Plain

/-! ### States and structure -/

theorem structuralStates_of_all (h : ∀ t ∈ s.trees, t.isStructural = true) :
    s.structuralStates = s.frames.map (·.state) ++ [s.base] := by
  rw [structuralStates, List.filter_eq_self.2]
  exact fun frame hframe => h frame.tree (List.mem_reverse.2 (List.mem_map_of_mem hframe))

/-- Where no state leads to itself the states tell which frames are extras. -/
theorem Plain.structuralStates_congr (henters : ∀ q, ¬ table.Enters q q) (ha : a.Plain table)
    (hb : b.Plain table) (hbase : a.base = b.base)
    (hframes : a.frames.map (·.state) = b.frames.map (·.state)) :
    a.structuralStates = b.structuralStates ∧ a.state = b.state := by
  induction ha generalizing b with
  | base state =>
      have hnil : b.frames = [] := List.map_eq_nil_iff.1 hframes.symm
      obtain ⟨base, frames⟩ := b
      cases hnil
      cases hbase
      exact ⟨rfl, rfl⟩
  | part a next tree ha htree hpart henter ih =>
      cases hb with
      | base => cases hframes
      | part b next' tree' hb htree' hpart' henter' =>
          obtain ⟨hnext, hframes⟩ := List.cons.inj hframes
          obtain ⟨hstates, _⟩ := ih hb hbase hframes
          simp only at hnext
          rw [structuralStates_push false hpart, structuralStates_push false hpart', hstates, hnext]
          exact ⟨rfl, rfl⟩
      | extra b tree' hb htree' hextra' =>
          obtain ⟨hnext, hframes⟩ := List.cons.inj hframes
          obtain ⟨_, hstate⟩ := ih hb hbase hframes
          simp only at hnext
          rw [hnext, hstate] at henter
          exact absurd henter (henters b.state)
  | extra a tree ha htree hother ih =>
      cases hb with
      | base => cases hframes
      | part b next' tree' hb htree' hpart' henter' =>
          obtain ⟨hnext, hframes⟩ := List.cons.inj hframes
          obtain ⟨_, hstate⟩ := ih hb hbase hframes
          simp only at hnext
          rw [← hnext, hstate] at henter'
          exact absurd henter' (henters b.state)
      | extra b tree' hb htree' hother' =>
          obtain ⟨hnext, hframes⟩ := List.cons.inj hframes
          obtain ⟨hstates, _⟩ := ih hb hbase hframes
          rw [structuralStates_push_other false hother, structuralStates_push_other false hother', hstates]
          exact ⟨rfl, hnext⟩

end Stack

namespace ParseSetting

variable {setting : ParseSetting} {s : Stack} {trees : List Subtree}

/-- A reduction adds the weight of its production. -/
theorem plain_reduceStack (hbases : setting.bases.KeepWeight setting.table)
    (h : s.Plain setting.table) {p : ProductionId} (hreduces : s.Reduces setting.table p)
    (hlhs : (setting.table.production p).lhs ≠ Symbol.error) (forked : Bool) (id : Nat) :
    (setting.reduceStack forked p id s).1.Plain setting.table ∧
      (setting.reduceStack forked p id s).1.dynamicPrecedence
        = s.dynamicPrecedence + (setting.table.production p).dynamicPrecedence := by
  obtain ⟨next, hgoto⟩ := hreduces.goto
  have hrest := h.of_suffix (List.dropWhile_suffix fun frame => !frame.tree.isStructural)
  have hbelow := hrest.of_suffix
    (Stack.suffix_popFrames (setting.table.production p).rhs.size _ [])
  have htrees := s.trees_popTrailing
  have hrestTrees := s.popTrailing.2.trees_popStructural (setting.table.production p).rhs.size
  have hall := h.tree
  rw [htrees, hrestTrees, List.forall_mem_append, List.forall_mem_append] at hall
  obtain ⟨⟨_, hchildren⟩, htrailing⟩ := hall
  obtain ⟨hbalanced, hweight⟩ := Subtree.Plain.balanceWhere hbases
    (·.symbol != (setting.table.production p).lhs) id hchildren
  have hplain : (setting.reduceStack forked p id s).1.Plain setting.table := by
    rw [reduceStack]
    simp only
    rw [hgoto]
    refine Stack.Plain.pushAll (.part _ next _ hbelow (.interior _ _ _ hlhs hbalanced) ?_
      ⟨_, .inr hgoto⟩) htrailing s.structural_popTrailing
    rw [Subtree.isStructural, Subtree.extra_interior, Subtree.symbol_interior]
    exact bne_iff_ne.2 hlhs
  refine ⟨hplain, ?_⟩
  rw [hplain.weight, h.weight, htrees, hrestTrees, reduceStack]
  simp only
  rw [hgoto]
  simp only
  rw [Stack.trees_pushAll, Stack.trees_push, Subtree.weightAll_append, Subtree.weightAll_append,
    Subtree.weightAll_append, Subtree.weightAll_append, Subtree.weightAll_cons,
    Subtree.dynamicPrecedence_interior, hweight]
  have hnone : weightAll [] = 0 := rfl
  rw [hnone, Table.weight, Option.map_some, Option.getD_some]
  ac_rfl

/-- Where there is no extra on a stack a reduction leaves none. -/
theorem structural_reduceStack {p : ProductionId} (hreduces : s.Reduces setting.table p)
    (hlhs : (setting.table.production p).lhs ≠ Symbol.error)
    (h : ∀ t ∈ s.trees, t.isStructural = true) (forked : Bool) (id : Nat) :
    ∀ t ∈ (setting.reduceStack forked p id s).1.trees, t.isStructural = true := by
  obtain ⟨next, hgoto⟩ := hreduces.goto
  rw [s.trees_popTrailing, s.popTrailing.2.trees_popStructural (setting.table.production p).rhs.size,
    List.forall_mem_append, List.forall_mem_append] at h
  obtain ⟨⟨hbelow, _⟩, htrailing⟩ := h
  rw [reduceStack]
  simp only
  rw [hgoto]
  simp only
  rw [Stack.trees_pushAll, Stack.trees_push, List.forall_mem_append, List.forall_mem_append,
    List.forall_mem_singleton]
  refine ⟨⟨hbelow, ?_⟩, htrailing⟩
  rw [Subtree.isStructural, Subtree.extra_interior, Subtree.symbol_interior]
  exact bne_iff_ne.2 hlhs

/-! ### Roots -/

/-- Subtrees of which the start symbol alone counts. -/
theorem exists_soleStart? {start : Symbol} (h : structuralSymbols trees = [start]) :
    ∃ found, soleStart? start trees = some found := by
  have hfound : ∃ t after, trees.dropWhile (!·.isStructural) = t :: after ∧ t.symbol = start ∧
      after.any (·.isStructural) = false := by
    induction trees with
    | nil => cases h
    | cons t trees ih =>
        cases hstructural : t.isStructural with
        | true =>
            rw [structuralSymbols_cons_of_role trees (s := t.symbol) (by rw [Subtree.role, hstructural])]
              at h
            obtain ⟨hsymbol, hnone⟩ := List.cons.inj h
            refine ⟨t, trees, ?_, hsymbol, ?_⟩
            · rw [List.dropWhile_cons, hstructural]
              rfl
            · rw [List.any_eq_false]
              exact List.filter_eq_nil_iff.1 (List.map_eq_nil_iff.1 hnone)
        | false =>
            rw [structuralSymbols, List.filter_cons_of_neg (by simp [hstructural])] at h
            rw [List.dropWhile_cons, hstructural]
            exact ih h
  obtain ⟨t, after, hdrop, hsymbol, hnone⟩ := hfound
  refine ⟨(trees.takeWhile (!·.isStructural), t, after), ?_⟩
  rw [soleStart?, hdrop]
  simp only
  rw [hsymbol, hnone, beq_self_eq_true]
  rfl

/-- A root over the whole of a start symbol weighs what is under it. -/
theorem plain_buildRoot (hbases : setting.bases.KeepWeight setting.table)
    (hfits : setting.bases.FitTable setting.table) (id : Nat) (trailing : Length)
    (hplain : ∀ t ∈ trees, t.Plain setting.table) (happlied : ∀ t ∈ trees, Applied setting.table t)
    (hsole : structuralSymbols trees = [setting.table.startSymbol]) :
    (setting.buildRoot id trees [] trailing).1.flags.hasError = false ∧
      (setting.buildRoot id trees [] trailing).1.head.dynamicPrecedence = weightAll trees := by
  obtain ⟨_, hroles⟩ := applied_balanceWhere hfits (fun _ => true) id happlied
  obtain ⟨hbalanced, hweight⟩ := Subtree.Plain.balanceWhere hbases (fun _ => true) id hplain
  rw [← structuralSymbols_eq_of_map_role hroles] at hsole
  rw [buildRoot]
  simp only
  generalize (balanceWhere setting.table setting.bases (fun _ => true) id trees).1 = trees'
    at hbalanced hweight hsole
  generalize (balanceWhere setting.table setting.bases (fun _ => true) id trees).2 = id'
  obtain ⟨⟨before, t, after⟩, hfound⟩ := exists_soleStart? hsole
  obtain ⟨rfl, hstructural, hsymbol⟩ := soleStart?_spec hfound
  have hne : setting.table.startSymbol ≠ Symbol.error := by
    rw [← hsymbol]
    intro herror
    simp [Subtree.isStructural, herror] at hstructural
  obtain ⟨hbefore, hrest⟩ := List.forall_mem_append.1 hbalanced
  obtain ⟨ht, hafter⟩ := List.forall_mem_cons.1 hrest
  have hchildren : ∀ child ∈ before ++ t.children ++ after ++ [], child.Plain setting.table := by
    simp only [List.append_nil, List.forall_mem_append]
    exact ⟨⟨hbefore, ht.child⟩, hafter⟩
  rw [hfound]
  refine ⟨(Subtree.Plain.interior id' t.head.production false hne hchildren).hasError, ?_⟩
  refine (Subtree.dynamicPrecedence_interior ..).trans ?_
  rw [← hweight, List.append_nil, Subtree.weightAll_append, Subtree.weightAll_append,
    Subtree.weightAll_append, Subtree.weightAll_cons, ht.weight]
  ac_rfl

end ParseSetting

end IncrementalLR
