import IncrementalLR.Proofs.Tree.Kept
import IncrementalLR.Proofs.Tree.Weight

/-!
# Built subtrees

A parse makes subtrees in four ways only: leaves of tokens, leaves of tokens that are not there, nodes
over subtrees, and a root, which has what is behind the last token in its size. Gathering skipped text
and balancing repetitions make nodes in the same way. An edit may leave any lengths behind, but it
marks what it touches, and no parse takes that over. So what these four ways have in common holds of
the tree of every parse, whatever was parsed and edited before. The same goes for any property that is
inherited: nodes have it if their children do, for the nodes that parses make.
-/

namespace IncrementalLR

open Subtree (ofToken ofMissing interior stretched totalAll chainBase?)

/-! ### Lengths -/

/-- The length is that of some text. -/
def Length.IsMeasured (len : Length) : Prop := ∃ text, len = Length.ofList text

namespace Length.IsMeasured

variable {a b : Length}

theorem zero : Length.zero.IsMeasured := ⟨[], rfl⟩

theorem ofBytes (text : ByteArray) : (Length.ofBytes text).IsMeasured := ⟨text.data.toList, rfl⟩

theorem add (ha : a.IsMeasured) (hb : b.IsMeasured) : (a + b).IsMeasured := by
  obtain ⟨u, rfl⟩ := ha
  obtain ⟨v, rfl⟩ := hb
  exact ⟨u ++ v, (Length.ofList_append u v).symm⟩

theorem monus_add_left (ha : a.IsMeasured) (hb : b.IsMeasured) : (a + b).monus a = b := by
  obtain ⟨u, rfl⟩ := ha
  obtain ⟨v, rfl⟩ := hb
  rw [← Length.ofList_append, Length.monus_ofList_append]

end Length.IsMeasured

/-! ### Ways to make subtrees -/

/-- The subtree was made by a parse. Productions of nodes fit their symbols. -/
inductive Subtree.Built (table : Table) (fits : Symbol → ProductionId → Prop) : Subtree → Prop
  | token (id : Nat) (token : Lexed) (hpadding : token.padding.IsMeasured)
      (hsize : token.size.IsMeasured) : Built table fits (ofToken table id token)
  | missing (id : Nat) (s : Symbol) (mode : LexMode) : Built table fits (ofMissing table id s mode)
  | node (id : Nat) (s : Symbol) (children : List Subtree) (production : Option ProductionId)
      (fragile : Bool) (hfits : ∀ p ∈ production, fits s p)
      (hchildren : ∀ child ∈ children, Built table fits child) :
      Built table fits (interior table id s children production fragile)
  | root (id : Nat) (children : List Subtree) (production : Option ProductionId) (trailing : Length)
      (hfits : ∀ p ∈ production, fits table.startSymbol p) (htrailing : trailing.IsMeasured)
      (hchildren : ∀ child ∈ children, Built table fits child) :
      Built table fits ((interior table id table.startSymbol children production false).stretched
        ((interior table id table.startSymbol children production false).total + trailing))

/-- The subtree has the property, or it is marked as changed and stands above such subtrees. -/
inductive Subtree.AgedFrom (P : Subtree → Prop) : Subtree → Prop
  | kept (t : Subtree) (h : P t) : AgedFrom P t
  | changed (t : Subtree) (hflag : t.flags.hasChanges = true)
      (hchildren : ∀ child ∈ t.children, AgedFrom P child) : AgedFrom P t

/-- The subtree was made by a parse, or it is marked as changed and stands above such subtrees. -/
def Subtree.Aged (table : Table) (fits : Symbol → ProductionId → Prop) : Subtree → Prop :=
  AgedFrom (Built table fits)

/-- What children have of their nodes, and nodes of their children if a parse makes them. -/
structure Subtree.Inherited (table : Table) (bases : RepetitionBases) (P : Subtree → Prop) : Prop where
  token : ∀ (id : Nat) (token : Lexed), token.padding.IsMeasured → token.size.IsMeasured →
    P (ofToken table id token)
  missing : ∀ (id : Nat) (s : Symbol) (mode : LexMode), P (ofMissing table id s mode)
  child : ∀ t, P t → ∀ child ∈ t.children, P child
  node : ∀ (id : Nat) (p : ProductionId) (children : List Subtree) (fragile : Bool),
    (∀ child ∈ children, P child) →
      P (interior table id (table.production p).lhs children (some p) fragile)
  skipped : ∀ (id : Nat) (trees : List Subtree), (∀ t ∈ trees, P t) →
    P (Subtree.ofSkipped table id trees)
  /-- a link of a chain without its first child -/
  rest : ∀ (id : Nat) (head : Head) (first : Subtree) (rest : List Subtree) (base : ProductionId)
    (fragile : Bool), chainBase? bases (.mk head (first :: rest)) = some base →
      P (.mk head (first :: rest)) → P (interior table id head.symbol rest (some base) fragile)
  /-- two neighbours in a repetition -/
  joined : ∀ (id : Nat) (s : Symbol) (left right : Subtree) (fragile : Bool), s ≠ Symbol.error →
    P left → P right → P (interior table id s [left, right] none fragile)

/-- Where a production fits a symbol, so does the production of the rest. -/
def RepetitionBases.Keep (bases : RepetitionBases) (fits : Symbol → ProductionId → Prop) : Prop :=
  ∀ s p base, bases.get? p = some base → fits s p → fits s base

namespace Subtree

variable {table : Table} {fits : Symbol → ProductionId → Prop} {bases : RepetitionBases} {t : Subtree}
  {trees rest : List Subtree} {s : Symbol}

/-! ### What is built -/

namespace Built

/-- A node without a production has nothing to fit. -/
theorem plain (id : Nat) (s : Symbol) (fragile : Bool) (h : ∀ t ∈ trees, t.Built table fits) :
    (interior table id s trees none fragile).Built table fits :=
  .node id s trees none fragile (fun p hp => absurd hp (Option.not_mem_none p)) h

theorem child (h : t.Built table fits) : ∀ child ∈ t.children, child.Built table fits := by
  cases h with
  | token => exact List.forall_mem_nil _
  | missing => exact List.forall_mem_nil _
  | node id s children production fragile hfits hchildren =>
      rw [children_interior]
      exact hchildren
  | root id children production trailing hfits htrailing hchildren =>
      rw [children_stretched, children_interior]
      exact hchildren

theorem fits_of_production (h : t.Built table fits) : ∀ p ∈ t.head.production, fits t.symbol p := by
  cases h with
  | token => exact nofun
  | missing => exact nofun
  | node id s children production fragile hfits =>
      rw [production_interior, symbol_interior]
      exact hfits
  | root id children production trailing hfits =>
      have hproduction := production_interior table id table.startSymbol children production false
      intro p hp
      rw [symbol_stretched, symbol_interior]
      exact hfits p (hproduction ▸ hp)

end Built

/-! ### Lengths of nodes -/

theorem isMeasured_totalAll (h : ∀ t ∈ trees, t.padding.IsMeasured ∧ t.size.IsMeasured) :
    (totalAll trees).IsMeasured := by
  induction trees with
  | nil => exact .zero
  | cons t rest ih =>
      obtain ⟨⟨hpadding, hsize⟩, hrest⟩ := List.forall_mem_cons.1 h
      exact (hpadding.add hsize).add (ih hrest)

/-- A node begins with the padding of its first subtree; the rest is its own. -/
theorem lengths_interior_cons {first : Subtree} (id : Nat) (production : Option ProductionId)
    (fragile : Bool)
    (h : ∀ child ∈ first :: rest, child.padding.IsMeasured ∧ child.size.IsMeasured) :
    (interior table id s (first :: rest) production fragile).padding = first.padding ∧
      (interior table id s (first :: rest) production fragile).size
        = first.size + totalAll rest := by
  obtain ⟨⟨hpadding, hsize⟩, hrest⟩ := List.forall_mem_cons.1 h
  refine ⟨rfl, ?_⟩
  rw [size_interior_cons, totalAll, total, Length.add_assoc,
    hpadding.monus_add_left (hsize.add (isMeasured_totalAll hrest))]

/-- A node is just as long as its subtrees together. -/
theorem total_interior (id : Nat) (production : Option ProductionId) (fragile : Bool)
    (h : ∀ child ∈ trees, child.padding.IsMeasured ∧ child.size.IsMeasured) :
    (interior table id s trees production fragile).total = totalAll trees := by
  cases trees with
  | nil => rfl
  | cons first rest =>
      obtain ⟨hpadding, hsize⟩ := lengths_interior_cons id production fragile h
      rw [total, hpadding, hsize, totalAll, total, Length.add_assoc]

theorem isMeasured_interior (id : Nat) (production : Option ProductionId) (fragile : Bool)
    (h : ∀ child ∈ trees, child.padding.IsMeasured ∧ child.size.IsMeasured) :
    (interior table id s trees production fragile).padding.IsMeasured ∧
      (interior table id s trees production fragile).size.IsMeasured := by
  cases trees with
  | nil => exact ⟨.zero, .zero⟩
  | cons first rest =>
      obtain ⟨hpadding, hsize⟩ := lengths_interior_cons id production fragile h
      obtain ⟨hfirst, hrest⟩ := List.forall_mem_cons.1 h
      rw [hpadding, hsize]
      exact ⟨hfirst.1, hfirst.2.add (isMeasured_totalAll hrest)⟩

theorem Built.isMeasured (h : t.Built table fits) :
    t.padding.IsMeasured ∧ t.size.IsMeasured := by
  induction h with
  | token id token hpadding hsize => exact ⟨hpadding, hsize⟩
  | missing => exact ⟨.zero, .zero⟩
  | node id s children production fragile _ _ ih => exact isMeasured_interior id production fragile ih
  | root id children production trailing _ htrailing _ ih =>
      obtain ⟨hpadding, hsize⟩ := isMeasured_interior id production false ih
      exact ⟨.zero, (hpadding.add hsize).add htrailing⟩

/-! ### Operations -/

theorem ne_error_of_chainBase? {base : ProductionId} (h : chainBase? bases t = some base) :
    t.symbol ≠ Symbol.error := by
  cases hchildren : t.children with
  | nil => simp [chainBase?, hchildren] at h
  | cons first rest => exact (Plain.symbol_of_chainBase? hchildren h).choose_spec.2.2.2

namespace Inherited

variable {P : Subtree → Prop}

theorem unchain (h : Inherited table bases P) (id : Nat) {parts : List Subtree} (ht : P t)
    (hparts : ∀ part ∈ parts, P part) :
    ∀ part ∈ (Subtree.unchain table bases id parts t).1, P part := by
  fun_induction Subtree.unchain table bases id parts t with
  | case1 id parts head => exact List.forall_mem_cons.2 ⟨ht, hparts⟩
  | case2 id parts head first rest _ => exact List.forall_mem_cons.2 ⟨ht, hparts⟩
  | case3 id parts head first rest base hbase part ih =>
      have hrest : P part := h.rest id head first rest base head.flags.fragile hbase ht
      exact ih (h.child _ ht first List.mem_cons_self) (List.forall_mem_cons.2 ⟨hrest, hparts⟩)

theorem joinPairs (h : Inherited table bases P) (hs : s ≠ Symbol.error) (id : Nat)
    (htrees : ∀ t ∈ trees, P t) :
    ∀ t ∈ (Subtree.joinPairs table s id trees).1, P t := by
  fun_induction Subtree.joinPairs table s id trees with
  | case1 id left right rest node joined next heq ih =>
      rw [heq] at ih
      obtain ⟨hleft, htrees⟩ := List.forall_mem_cons.1 htrees
      obtain ⟨hright, hrest⟩ := List.forall_mem_cons.1 htrees
      exact List.forall_mem_cons.2 ⟨h.joined id s left right _ hs hleft hright, ih hrest⟩
  | case2 => exact htrees
  | case3 => exact htrees

theorem joinBalanced (h : Inherited table bases P) (hs : s ≠ Symbol.error) (id : Nat) (ht : P t)
    (hrest : ∀ t ∈ rest, P t) : P (Subtree.joinBalanced table s id t rest).1 := by
  fun_induction Subtree.joinBalanced table s id t rest with
  | case1 => exact ht
  | case2 id first second rest node ih =>
      obtain ⟨hsecond, hrest⟩ := List.forall_mem_cons.1 hrest
      exact ih (h.joined id s first second _ hs ht hsecond) (h.joinPairs hs (id + 1) hrest)

theorem balance (h : Inherited table bases P) (id : Nat) (ht : P t) :
    P (Subtree.balance table bases id t).1 := by
  rw [Subtree.balance]
  cases hbase : chainBase? bases t with
  | none => exact ht
  | some base =>
      have hparts := h.unchain id ht fun _ hpart => absurd hpart List.not_mem_nil
      simp only
      split
      · exact ht
      · rename_i first rest next heq
        rw [heq] at hparts
        obtain ⟨hfirst, hrest⟩ := List.forall_mem_cons.1 hparts
        exact h.joinBalanced (ne_error_of_chainBase? hbase) next hfirst hrest

theorem balanceWhere (h : Inherited table bases P) (condition : Subtree → Bool) (id : Nat)
    (htrees : ∀ t ∈ trees, P t) :
    ∀ t ∈ (Subtree.balanceWhere table bases condition id trees).1, P t := by
  induction trees generalizing id with
  | nil => exact htrees
  | cons t rest ih =>
      obtain ⟨ht, hrest⟩ := List.forall_mem_cons.1 htrees
      rw [Subtree.balanceWhere]
      refine List.forall_mem_cons.2 ⟨?_, ih _ hrest⟩
      by_cases hcondition : condition t = true
      · rw [if_pos hcondition]
        exact h.balance id ht
      · rw [if_neg hcondition]
        exact ht

end Inherited

/-- What is left of skipped text in a node over it was under it, or is no skipped text over others. -/
theorem forall_mem_flattenError {P : Subtree → Prop} (h : ∀ t, P t → ∀ child ∈ t.children, P child)
    (htrees : ∀ t ∈ trees, P t) : ∀ child ∈ trees.flatMap flattenError, P child := by
  intro child hchild
  obtain ⟨t, ht, hchild⟩ := List.mem_flatMap.1 hchild
  rw [flattenError] at hchild
  split at hchild
  · exact h t (htrees t ht) child hchild
  · rw [List.mem_singleton.1 hchild]
    exact htrees t ht

/-- Subtrees that were made by parses are made of such subtrees. -/
theorem inherited_built (hlhs : ∀ p, fits (table.production p).lhs p) (hbases : bases.Keep fits) :
    Inherited table bases (Built table fits) where
  token := .token
  missing := .missing
  child _ h := h.child
  node id p children fragile hchildren :=
    .node id _ children (some p) fragile (fun _ hq => Option.mem_some_iff.1 hq ▸ hlhs p) hchildren
  skipped id _ htrees := .plain id _ _ (forall_mem_flattenError (fun _ h => h.child) htrees)
  rest id head first rest base fragile hbase h := by
    refine .node id _ rest _ fragile (fun p hp => ?_) (List.forall_mem_cons.1 h.child).2
    obtain ⟨q, hq, hget, _⟩ := Plain.symbol_of_chainBase? rfl hbase
    rw [← Option.mem_some_iff.1 hp]
    exact hbases _ q base hget (h.fits_of_production q hq)
  joined id s left right fragile _ hleft hright :=
    .plain id s fragile (by simpa using ⟨hleft, hright⟩)

/-! ### Edited subtrees -/

section Edit

variable {P : Subtree → Prop}

namespace AgedFrom

theorem child (hchild : ∀ t, P t → ∀ child ∈ t.children, P child) (h : t.AgedFrom P) :
    ∀ child ∈ t.children, child.AgedFrom P := by
  cases h with
  | kept _ h => exact fun child hmem => .kept child (hchild t h child hmem)
  | changed _ _ hchildren => exact hchildren

/-- What is not marked as changed still has the property. -/
theorem of_unchanged (h : t.AgedFrom P) (hflag : t.flags.hasChanges = false) : P t := by
  cases h with
  | kept _ h => exact h
  | changed _ hchanges =>
      rw [hflag] at hchanges
      cases hchanges

end AgedFrom

theorem agedFrom_edit (hP : ∀ t, P t → ∀ child ∈ t.children, P child) (change : RelativeEdit)
    (id : Nat) (t : Subtree) (h : t.AgedFrom P) : (t.edit change id).1.AgedFrom P := by
  have hall : t.Throughout (AgedFrom P) := throughout_of_child (fun _ h => h.child hP) t h
  -- what the edit leaves alone may be kept, so the induction is on the subtree
  induction hall generalizing change id with
  | mk t _ hchildren ih =>
      refine .changed _ (hasChanges_edit change id t) fun child hchild => ?_
      rw [children_edit] at hchild
      rcases mem_editAmong _ _ _ _ _ hchild with hmem | ⟨other, hother, change', id', rfl⟩
      · exact (hchildren child hmem).self
      · exact ih other hother change' id' (hchildren other hother).self

/-- An edit keeps or changes what is under a subtree. -/
theorem agedFrom_children_edit (hP : ∀ t, P t → ∀ child ∈ t.children, P child)
    (change : RelativeEdit) (id : Nat) (t : Subtree) (h : ∀ child ∈ t.children, child.AgedFrom P) :
    ∀ child ∈ (t.edit change id).1.children, child.AgedFrom P := by
  intro child hchild
  rw [children_edit] at hchild
  rcases mem_editAmong _ _ _ _ _ hchild with hmem | ⟨other, hother, change', id', rfl⟩
  · exact h child hmem
  · exact agedFrom_edit hP change' id' other (h other hother)

end Edit

end Subtree

end IncrementalLR
