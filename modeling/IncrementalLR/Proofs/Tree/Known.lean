import IncrementalLR.Proofs.Tree.Applied

/-!
# Known subtrees

The parser looks up what it finds in subtrees: their symbols, the symbols of their first leaves and
the production of the root. Building nodes, balancing repetitions and editing bring in none but those
of the table and of the subtrees that are there already.
-/

namespace IncrementalLR

open Subtree (flattenError chainBase?)

/-- The table has all symbols in a subtree, those of first leaves included, and all productions. -/
inductive Subtree.Known (table : Table) : Subtree → Prop
  | mk (head : Subtree.Head) (children : List Subtree) (hsymbol : table.Has head.symbol)
      (hfirst : table.Has head.firstLeaf.1)
      (hproduction : ∀ p ∈ head.production, p.toNat < table.productions.size)
      (hchildren : ∀ child ∈ children, Known table child) : Known table (.mk head children)

/-- The productions of rests are in the table. -/
def RepetitionBases.InRange (bases : RepetitionBases) (table : Table) : Prop :=
  ∀ p base, bases.get? p = some base → base.toNat < table.productions.size

theorem RepetitionBases.inRange_ofTable (table : Table) : (ofTable table).InRange table := by
  intro p base h
  rw [get?, ofTable, Array.getElem?_map] at h
  obtain ⟨info, _, hinfo⟩ := Option.map_eq_some_iff.1 (Option.join_eq_some_iff.1 h)
  rw [find?] at hinfo
  split at hinfo
  · cases hinfo
  · split at hinfo
    · obtain ⟨i, hi, rfl⟩ := Option.map_eq_some_iff.1 hinfo
      obtain ⟨hlt, _⟩ := Array.findIdx?_eq_some_iff_getElem.1 hi
      exact toNat_toUInt32_lt hlt
    · cases hinfo

namespace Subtree.Known

variable {table : Table} {bases : RepetitionBases} {t : Subtree} {trees rest : List Subtree}
  {s : Symbol}

theorem has (h : t.Known table) : table.Has t.symbol := by
  cases h with
  | mk _ _ hsymbol => exact hsymbol

theorem has_firstLeaf (h : t.Known table) : table.Has t.head.firstLeaf.1 := by
  cases h with
  | mk _ _ _ hfirst => exact hfirst

theorem production_lt (h : t.Known table) :
    ∀ p ∈ t.head.production, p.toNat < table.productions.size := by
  cases h with
  | mk _ _ _ _ hproduction => exact hproduction

theorem child (h : t.Known table) : ∀ child ∈ t.children, child.Known table := by
  cases h with
  | mk _ _ _ _ _ hchildren => exact hchildren

theorem ofToken (id : Nat) (token : Lexed) (hs : table.Has token.symbol) :
    (Subtree.ofToken table id token).Known table :=
  .mk _ _ hs hs (fun _ hp => absurd hp (Option.not_mem_none _))
    fun _ hchild => absurd hchild List.not_mem_nil

theorem ofMissing (id : Nat) (mode : LexMode) (hs : table.Has s) :
    (Subtree.ofMissing table id s mode).Known table :=
  .mk _ _ hs hs (fun _ hp => absurd hp (Option.not_mem_none _))
    fun _ hchild => absurd hchild List.not_mem_nil

theorem interior (id : Nat) {production : Option ProductionId} (fragile : Bool) (hs : table.Has s)
    (hproduction : ∀ p ∈ production, p.toNat < table.productions.size)
    (h : ∀ child ∈ trees, child.Known table) :
    (Subtree.interior table id s trees production fragile).Known table := by
  cases trees with
  | nil => exact .mk _ _ hs hs hproduction h
  | cons first rest =>
      exact .mk _ _ hs (h first List.mem_cons_self).has_firstLeaf hproduction h

/-- A node without a production. -/
theorem joined (id : Nat) (fragile : Bool) (hs : table.Has s) (h : ∀ child ∈ trees, child.Known table) :
    (Subtree.interior table id s trees none fragile).Known table :=
  .interior id fragile hs (fun _ hp => absurd hp (Option.not_mem_none _)) h

theorem ofSkipped (id : Nat) (h : ∀ t ∈ trees, t.Known table) :
    (Subtree.ofSkipped table id trees).Known table := by
  refine .joined id true (.inl rfl) fun child hchild => ?_
  obtain ⟨t, ht, hchild⟩ := List.mem_flatMap.1 hchild
  rw [flattenError] at hchild
  split at hchild
  · exact (h t ht).child child hchild
  · rw [List.mem_singleton.1 hchild]
    exact h t ht

theorem lt_of_chainBase? (hbases : bases.InRange table) {base : ProductionId}
    (h : chainBase? bases t = some base) : base.toNat < table.productions.size := by
  obtain ⟨p, _, h⟩ := Option.bind_eq_some_iff.1 h
  obtain ⟨base', hget, h⟩ := Option.bind_eq_some_iff.1 h
  obtain ⟨first, _, h⟩ := Option.bind_eq_some_iff.1 h
  split at h
  · cases h
    exact hbases p base hget
  · cases h

theorem unchain (hbases : bases.InRange table) (id : Nat) {parts : List Subtree} (h : t.Known table)
    (hparts : ∀ part ∈ parts, part.Known table) :
    ∀ part ∈ (Subtree.unchain table bases id parts t).1, part.Known table := by
  fun_induction Subtree.unchain table bases id parts t with
  | case1 id parts head => exact List.forall_mem_cons.2 ⟨h, hparts⟩
  | case2 id parts head first rest _ => exact List.forall_mem_cons.2 ⟨h, hparts⟩
  | case3 id parts head first rest base hbase part ih =>
      obtain ⟨hfirst, hrest⟩ := List.forall_mem_cons.1 h.child
      refine ih hfirst (List.forall_mem_cons.2 ⟨.interior id _ h.has (fun p hp => ?_) hrest, hparts⟩)
      rw [Option.mem_some_iff] at hp
      rw [← hp]
      exact lt_of_chainBase? hbases hbase

theorem joinPairs (id : Nat) (hs : table.Has s) (h : ∀ t ∈ trees, t.Known table) :
    ∀ t ∈ (Subtree.joinPairs table s id trees).1, t.Known table := by
  fun_induction Subtree.joinPairs table s id trees with
  | case1 id left right rest node joined next heq ih =>
      rw [heq] at ih
      obtain ⟨hleft, h⟩ := List.forall_mem_cons.1 h
      obtain ⟨hright, hrest⟩ := List.forall_mem_cons.1 h
      have hpair : ∀ t ∈ [left, right], t.Known table := by simpa using ⟨hleft, hright⟩
      exact List.forall_mem_cons.2 ⟨.joined id _ hs hpair, ih hrest⟩
  | case2 => exact h
  | case3 => exact h

theorem joinBalanced (id : Nat) (hs : table.Has s) (hfirst : t.Known table)
    (hrest : ∀ t ∈ rest, t.Known table) :
    (Subtree.joinBalanced table s id t rest).1.Known table := by
  fun_induction Subtree.joinBalanced table s id t rest with
  | case1 => exact hfirst
  | case2 id first second rest node ih =>
      obtain ⟨hsecond, hrest⟩ := List.forall_mem_cons.1 hrest
      have hpair : ∀ t ∈ [first, second], t.Known table := by simpa using ⟨hfirst, hsecond⟩
      exact ih (.joined id _ hs hpair) (joinPairs (id + 1) hs hrest)

theorem balance (hbases : bases.InRange table) (id : Nat) (h : t.Known table) :
    (Subtree.balance table bases id t).1.Known table := by
  rw [Subtree.balance]
  split
  · exact h
  · have hparts := h.unchain hbases id fun _ hpart => absurd hpart List.not_mem_nil
    split
    · exact h
    · rename_i first rest next heq
      rw [heq] at hparts
      obtain ⟨hfirst, hrest⟩ := List.forall_mem_cons.1 hparts
      exact joinBalanced next h.has hfirst hrest

theorem balanceWhere (hbases : bases.InRange table) (condition : Subtree → Bool) (id : Nat)
    (h : ∀ t ∈ trees, t.Known table) :
    ∀ t ∈ (Subtree.balanceWhere table bases condition id trees).1, t.Known table := by
  induction trees generalizing id with
  | nil => exact h
  | cons t rest ih =>
      obtain ⟨ht, hrest⟩ := List.forall_mem_cons.1 h
      rw [Subtree.balanceWhere]
      refine List.forall_mem_cons.2 ⟨?_, ih _ hrest⟩
      by_cases hcondition : condition t = true
      · rw [if_pos hcondition]
        exact ht.balance hbases id
      · rw [if_neg hcondition]
        exact ht

theorem edit (h : t.Known table) (change : RelativeEdit) (id : Nat) :
    (Subtree.edit change id t).1.Known table := by
  induction h generalizing change id with
  | mk head children hsymbol hfirst hproduction hchildren ih =>
      refine .mk _ _ hsymbol hfirst hproduction fun child hchild => ?_
      rcases Subtree.mem_editAmong _ _ _ _ _ hchild with hmem | ⟨other, hother, _, _, rfl⟩
      · exact hchildren child hmem
      · exact ih other hother _ _

end Subtree.Known

end IncrementalLR
