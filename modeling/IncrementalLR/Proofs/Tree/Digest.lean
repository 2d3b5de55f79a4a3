import IncrementalLR.Proofs.Tree.Built

/-!
# Digests of subtrees

What a node takes over from its children adds up along them: lengths, how far the text was looked at,
costs, errors and weights. Costs stop at the largest one, and weights are added in 32 bits, but
neither depends on how the sum is split. So a node may stand in the place of its children.
-/

namespace IncrementalLR

namespace Cost

theorem toNat_ofNat (n : Nat) : (ofNat n).toNat = min n 4294967295 := by
  have hsize : UInt32.size = 4294967296 := rfl
  rw [ofNat]
  split
  · rename_i hlt
    rw [UInt32.toNat_ofNat_of_lt' hlt]
    omega
  · have hmax : (4294967295 : UInt32).toNat = 4294967295 := rfl
    rw [hmax]
    omega

@[simp] theorem ofNat_toNat (c : Cost) : ofNat c.toNat = c := by
  rw [← UInt32.toNat_inj, toNat_ofNat]
  have := c.toNat_lt
  omega

/-- It does not matter whether a part of a sum was brought down to the largest cost before. -/
theorem ofNat_toNat_add (m n : Nat) : ofNat ((ofNat m).toNat + n) = ofNat (m + n) := by
  rw [← UInt32.toNat_inj, toNat_ofNat, toNat_ofNat, toNat_ofNat]
  omega

theorem ofNat_add_toNat (m n : Nat) : ofNat (m + (ofNat n).toNat) = ofNat (m + n) := by
  rw [Nat.add_comm, ofNat_toNat_add, Nat.add_comm]

end Cost

namespace Subtree

/-- What a node takes over from subtrees that stand one behind the other. -/
@[ext]
structure Digest where
  length : Length
  /-- how far the text was looked at -/
  reach : Nat
  cost : Cost
  hasError : Bool
  weight : Int32

namespace Digest

def empty : Digest := ⟨Length.zero, 0, 0, false, 0⟩

def append (a b : Digest) : Digest :=
  { length := a.length + b.length
    reach := max a.reach (a.length.bytes + b.reach)
    cost := Cost.ofNat (a.cost.toNat + b.cost.toNat)
    hasError := a.hasError || b.hasError
    weight := a.weight + b.weight }

@[simp] theorem empty_append (a : Digest) : empty.append a = a := by
  ext1
  · exact Length.zero_add _
  · simp [append, empty]
  · simp [append, empty]
  · rfl
  · exact Int32.zero_add _

theorem append_assoc (a b c : Digest) : (a.append b).append c = a.append (b.append c) := by
  ext1
  · exact Length.add_assoc _ _ _
  · simp only [append, Length.bytes_add]
    omega
  · simp only [append, Cost.ofNat_toNat_add, Cost.ofNat_add_toNat, Nat.add_assoc]
  · exact Bool.or_assoc _ _ _
  · exact Int32.add_assoc _ _ _

end Digest

def digest (t : Subtree) : Digest :=
  ⟨t.total, t.total.bytes + t.head.lookaheadBytes, t.head.errorCost, t.flags.hasError,
    t.head.dynamicPrecedence⟩

def digestAll : List Subtree → Digest
  | [] => .empty
  | t :: rest => t.digest.append (digestAll rest)

variable {table : Table} {trees : List Subtree} {s : Symbol}

@[simp] theorem digestAll_append (a b : List Subtree) :
    digestAll (a ++ b) = (digestAll a).append (digestAll b) := by
  induction a with
  | nil => exact (Digest.empty_append _).symm
  | cons t a ih => rw [List.cons_append, digestAll, ih, digestAll, Digest.append_assoc]

@[simp] theorem digestAll_singleton (t : Subtree) : digestAll [t] = t.digest := by
  ext1
  · exact Length.add_zero _
  · simp [digestAll, Digest.append, Digest.empty, digest]
  · simp [digestAll, Digest.append, Digest.empty]
  · exact Bool.or_false _
  · exact Int32.add_zero _

theorem length_digestAll (trees : List Subtree) : (digestAll trees).length = totalAll trees := by
  induction trees with
  | nil => rfl
  | cons t rest ih => rw [digestAll, totalAll, ← ih]; rfl

theorem weight_digestAll (trees : List Subtree) : (digestAll trees).weight = weightAll trees := by
  induction trees with
  | nil => rfl
  | cons t rest ih => rw [digestAll, weightAll_cons, ← ih]; rfl

theorem length_le_reach (trees : List Subtree) :
    (digestAll trees).length.bytes ≤ (digestAll trees).reach := by
  induction trees with
  | nil => exact Nat.le_refl _
  | cons t rest ih =>
      simp only [digestAll, Digest.append, Length.bytes_add, digest]
      omega

/-- A summary looks on as far as the subtrees do. -/
theorem lookaheadEnd_foldl_add (isError : Bool) (summary : Summary)
    (hle : summary.length.bytes ≤ summary.lookaheadEnd) (trees : List Subtree) :
    (trees.foldl (Summary.add isError) summary).lookaheadEnd
      = max summary.lookaheadEnd (summary.length.bytes + (digestAll trees).reach) := by
  induction trees generalizing summary with
  | nil =>
      change summary.lookaheadEnd = max summary.lookaheadEnd (summary.length.bytes + 0)
      omega
  | cons t rest ih =>
      have hbytes : (summary.add isError t).length.bytes = summary.length.bytes + t.total.bytes := rfl
      have hend : (summary.add isError t).lookaheadEnd = max summary.lookaheadEnd
          (summary.length.bytes + t.total.bytes + t.head.lookaheadBytes) := rfl
      rw [List.foldl_cons, ih (summary.add isError t) (by omega), hend, hbytes, digestAll]
      simp only [Digest.append, digest]
      omega

/-- Outside of skipped text a summary goes on with subtrees by their digest. -/
theorem foldl_add_digest (summary : Summary) (trees : List Subtree) :
    let result := trees.foldl (Summary.add false) summary
    Cost.ofNat result.errorCost
        = Cost.ofNat (summary.errorCost + (digestAll trees).cost.toNat) ∧
      result.hasError = (summary.hasError || (digestAll trees).hasError) := by
  induction trees generalizing summary with
  | nil => exact ⟨rfl, (Bool.or_false _).symm⟩
  | cons t rest ih =>
      have hcost : (summary.add false t).errorCost
          = summary.errorCost + t.head.errorCost.toNat := by
        simp [Summary.add, costWithin]
      obtain ⟨hcosts, herror⟩ := ih (summary.add false t)
      simp only [List.foldl_cons, digestAll]
      constructor
      · rw [hcosts, hcost]
        simp only [Digest.append, digest, Cost.ofNat_add_toNat, Nat.add_assoc]
      · rw [herror]
        exact Bool.or_assoc _ _ _

/-- A node keeps how far its children look, from their end on. -/
theorem reach_digestAll (table : Table) (id : Nat) (s : Symbol) (trees : List Subtree)
    (production : Option ProductionId) (fragile : Bool) :
    (digestAll trees).reach = (totalAll trees).bytes +
      (interior table id s trees production fragile).head.lookaheadBytes := by
  cases trees with
  | nil => rfl
  | cons first rest =>
      have hle := length_le_reach (first :: rest)
      rw [length_digestAll] at hle
      have hend := lookaheadEnd_foldl_add (s == Symbol.error)
        { errorCost := if s == Symbol.error then Cost.recovery else 0
          hasError := s == Symbol.error } (Nat.le_refl _) (first :: rest)
      simp only [Length.bytes_zero, Nat.zero_add, Nat.zero_max] at hend
      simp only [interior, head, hend, length_foldl_add, Length.zero_add]
      omega

/-- A node looks as far as its children do. -/
theorem reach_interior (id : Nat) (s : Symbol) (production : Option ProductionId) (fragile : Bool)
    (h : ∀ child ∈ trees, child.padding.IsMeasured ∧ child.size.IsMeasured) :
    (interior table id s trees production fragile).digest.reach = (digestAll trees).reach := by
  rw [digest, total_interior id production fragile h, reach_digestAll table id s]

/-- A node has the digest of its children, but for its own weight. -/
theorem digest_interior (id : Nat) (hs : s ≠ Symbol.error) (production : Option ProductionId)
    (fragile : Bool) (h : ∀ child ∈ trees, child.padding.IsMeasured ∧ child.size.IsMeasured) :
    (interior table id s trees production fragile).digest
      = { digestAll trees with weight := table.weight production + weightAll trees } := by
  have herror : (s == Symbol.error) = false := beq_false_of_ne hs
  have htotal : (interior table id s trees production fragile).total = totalAll trees :=
    total_interior id production fragile h
  cases trees with
  | nil =>
      ext1
      · exact htotal
      · rfl
      · rfl
      · exact herror
      · exact dynamicPrecedence_interior ..
  | cons first rest =>
      obtain ⟨hcost, hflag⟩ := foldl_add_digest {} (first :: rest)
      simp only [Nat.zero_add, Cost.ofNat_toNat, Bool.false_or] at hcost hflag
      ext1
      · exact htotal.trans (length_digestAll _).symm
      · exact reach_interior id s production fragile h
      · simp only [digest, interior, herror, Bool.false_eq_true, if_false, head, hcost]
      · simp only [digest, interior, herror, Bool.false_eq_true, if_false, head, flags, hflag]
      · exact dynamicPrecedence_interior ..

/-! ### What subtrees say of what is in them -/

/-- Skipped text, or the leaf of a token that is not there. -/
def IsErroneous (t : Subtree) : Prop :=
  t.symbol = Symbol.error ∨ t.isLeaf = true ∧ t.flags.missing = true

/-- The subtree is as long as its children together, if it is a node. -/
def IsFlush (t : Subtree) : Prop := t.isLeaf = false → t.total = totalAll t.children

/-- The subtree says of itself what its children say of themselves. -/
structure Summed (t : Subtree) : Prop where
  leaf : t.isLeaf = true → t.children = []
  hasError : t.flags.hasError = true ↔
    t.IsErroneous ∨ ∃ child ∈ t.children, child.flags.hasError = true
  childless : t.children = [] → t.head.firstLeaf = (t.symbol, t.head.lexMode)
  firstLeaf : ∀ first rest, t.children = first :: rest → t.head.firstLeaf = first.head.firstLeaf
  /-- how far the text was looked at counts from the end of the children -/
  reach : t.isLeaf = false →
    (digestAll t.children).reach = (totalAll t.children).bytes + t.head.lookaheadBytes

theorem summed_ofToken (table : Table) (id : Nat) (token : Lexed) : (ofToken table id token).Summed where
  leaf _ := rfl
  hasError := by simp [ofToken, flags, head, IsErroneous, symbol, children]
  childless _ := rfl
  firstLeaf := nofun
  reach := nofun

theorem summed_ofMissing (table : Table) (id : Nat) (s : Symbol) (mode : LexMode) :
    (ofMissing table id s mode).Summed where
  leaf _ := rfl
  hasError := by simp [ofMissing, flags, head, IsErroneous, isLeaf]
  childless _ := rfl
  firstLeaf := nofun
  reach := nofun

theorem summed_interior (table : Table) (id : Nat) (s : Symbol) (trees : List Subtree)
    (production : Option ProductionId) (fragile : Bool) :
    (interior table id s trees production fragile).Summed where
  leaf hleaf := by simp at hleaf
  hasError := by
    rw [hasError_interior, children_interior]
    simp [IsErroneous, anyError]
  childless hnil := by
    rw [children_interior] at hnil
    rw [hnil]
    rfl
  firstLeaf first rest hcons := by
    rw [children_interior] at hcons
    rw [hcons]
    rfl
  reach _ := by
    rw [children_interior]
    exact reach_digestAll ..

theorem Summed.stretched {t : Subtree} (h : t.Summed) (size : Length) : (t.stretched size).Summed :=
  ⟨h.leaf, h.hasError, h.childless, h.firstLeaf, h.reach⟩

theorem Built.summed {fits : Symbol → ProductionId → Prop} {t : Subtree} (h : t.Built table fits) :
    t.Summed := by
  cases h with
  | token id token => exact summed_ofToken table id token
  | missing id s mode => exact summed_ofMissing table id s mode
  | node id s children production fragile => exact summed_interior ..
  | root id children production trailing => exact (summed_interior ..).stretched _

theorem Built.throughout_summed {fits : Symbol → ProductionId → Prop} {t : Subtree}
    (h : t.Built table fits) : t.Throughout Summed :=
  (throughout_of_child (fun _ h => h.child) t h).imp fun _ h => h.summed

/-! ### Errors -/

variable {t : Subtree} {Q P : Subtree → Prop}

/-- Where subtrees are told by what is in them, so are their lists. -/
theorem exists_mem_iff_nodesAmong
    (h : ∀ t ∈ trees, ∀ place, Q t ↔ ∃ q ∈ nodesAt place t, P q.subtree) (place : Length) :
    (∃ t ∈ trees, Q t) ↔ ∃ q ∈ nodesAmong place trees, P q.subtree := by
  induction trees generalizing place with
  | nil => simp [nodesAmong]
  | cons t rest ih =>
      obtain ⟨ht, hrest⟩ := List.forall_mem_cons.1 h
      simp only [List.mem_cons, or_and_right, exists_or, exists_eq_left, nodesAmong, List.mem_append]
      rw [ht place, ih hrest]

/-- A subtree says that there are errors just if there are some in it. -/
theorem Throughout.hasError_iff (h : t.Throughout Summed) (place : Length) :
    t.flags.hasError = true ↔ ∃ q ∈ nodesAt place t, q.subtree.IsErroneous := by
  induction h generalizing place with
  | mk t h _ ih =>
      rw [h.hasError, exists_mem_iff_nodesAmong ih place, nodesAt_eq]
      simp only [List.mem_cons, or_and_right, exists_or, exists_eq_left]

/-! ### First leaves -/

/-- A subtree says which of those without children is the first one in it. -/
theorem Throughout.firstLeaf (h : t.Throughout Summed) (place : Length) :
    ∃ q, (nodesAt place t).find? (·.subtree.children.isEmpty) = some q ∧
      t.head.firstLeaf = (q.subtree.symbol, q.subtree.head.lexMode) := by
  induction h generalizing place with
  | mk t h _ ih =>
      cases hchildren : t.children with
      | nil => exact ⟨⟨t, place⟩, by simp [nodesAt_eq, hchildren], h.childless hchildren⟩
      | cons first rest =>
          obtain ⟨q, hfind, hfirst⟩ := ih first (hchildren ▸ List.mem_cons_self) place
          refine ⟨q, ?_, (h.firstLeaf first rest hchildren).trans hfirst⟩
          rw [nodesAt_eq, List.find?_cons_of_neg (by simp [hchildren]), hchildren, nodesAmong,
            List.find?_append, hfind, Option.some_or]

/-! ### How far leaves look -/

/-- From the place on, what was looked at is what was looked at for the leaves; without any it is nothing. -/
structure Digest.IsReachOf (d : Digest) (place : Length) (leaves : List Placed) : Prop where
  le : ∀ leaf ∈ leaves, leaf.reach ≤ place.bytes + d.reach
  attained : leaves = [] ∧ d.length.bytes = 0 ∧ d.reach = 0 ∨
    ∃ leaf ∈ leaves, leaf.reach = place.bytes + d.reach

namespace Digest.IsReachOf

variable {a b : Digest} {place : Length} {left right : List Placed}

theorem append (ha : a.IsReachOf place left) (hle : a.length.bytes ≤ a.reach)
    (hb : b.IsReachOf (place + a.length) right) : (a.append b).IsReachOf place (left ++ right) := by
  have hplace : (place + a.length).bytes = place.bytes + a.length.bytes := rfl
  have hlength : (a.append b).length.bytes = a.length.bytes + b.length.bytes := rfl
  have hreach : (a.append b).reach = max a.reach (a.length.bytes + b.reach) := rfl
  constructor
  · intro leaf hleaf
    rcases List.mem_append.1 hleaf with hleaf | hleaf
    · have := ha.le leaf hleaf
      omega
    · have := hb.le leaf hleaf
      omega
  · rcases hb.attained with ⟨rfl, hzero, hnone⟩ | ⟨last, hlast, hlasts⟩
    · rcases ha.attained with ⟨rfl, hzero', hnone'⟩ | ⟨first, hfirst, hfirsts⟩
      · exact .inl ⟨rfl, by omega, by omega⟩
      · exact .inr ⟨first, List.mem_append_left _ hfirst, by omega⟩
    · by_cases hfar : a.reach ≤ a.length.bytes + b.reach
      · exact .inr ⟨last, List.mem_append_right _ hlast, by omega⟩
      · rcases ha.attained with ⟨_, _, hnone'⟩ | ⟨first, hfirst, hfirsts⟩
        · omega
        · exact .inr ⟨first, List.mem_append_left _ hfirst, by omega⟩

theorem digestAll {trees : List Subtree}
    (h : ∀ t ∈ trees, ∀ place, t.digest.IsReachOf place (leavesOf (nodesAt place t)))
    (place : Length) :
    (digestAll trees).IsReachOf place (leavesOf (nodesAmong place trees)) := by
  induction trees generalizing place with
  | nil => exact ⟨List.forall_mem_nil _, .inl ⟨rfl, rfl, rfl⟩⟩
  | cons t rest ih =>
      obtain ⟨ht, hrest⟩ := List.forall_mem_cons.1 h
      rw [nodesAmong, leavesOf, List.filter_append]
      exact (ht place).append (Nat.le_add_right _ _) (ih hrest _)

end Digest.IsReachOf

/-- A subtree looks as far as its leaves, if it and the nodes in it are as long as their children. -/
theorem Throughout.isReachOf (h : t.Throughout fun u => u.Summed ∧ u.IsFlush) (place : Length) :
    t.digest.IsReachOf place (leavesOf (nodesAt place t)) := by
  induction h generalizing place with
  | mk t h _ ih =>
      obtain ⟨hsummed, hflush⟩ := h
      cases hleaf : t.isLeaf with
      | true =>
          have hself : leavesOf (nodesAt place t) = [⟨t, place⟩] := by
            rw [nodesAt_eq, hsummed.leaf hleaf, nodesAmong]
            simp [leavesOf, hleaf]
          have hreach : (⟨t, place⟩ : Placed).reach = place.bytes + t.digest.reach :=
            Nat.add_assoc _ _ _
          rw [hself]
          exact ⟨List.forall_mem_singleton.2 hreach.le, .inr ⟨_, List.mem_singleton_self _, hreach⟩⟩
      | false =>
          have hall := Digest.IsReachOf.digestAll ih place
          have hlength : t.digest.length = (digestAll t.children).length :=
            (hflush hleaf).trans (length_digestAll _).symm
          have hreach : t.digest.reach = (digestAll t.children).reach := by
            rw [hsummed.reach hleaf, digest, hflush hleaf]
          rw [leavesOf_nodesAt_of_node place hleaf]
          exact ⟨hreach ▸ hall.le, hlength ▸ hreach ▸ hall.attained⟩

/-- The farthest place that was looked at for a leaf is that of the subtree. -/
theorem Throughout.isGreatest_reach (h : t.Throughout fun u => u.Summed ∧ u.IsFlush) (place : Length)
    (hleaves : leavesOf (nodesAt place t) ≠ []) :
    IsGreatest {n | ∃ leaf ∈ leavesOf (nodesAt place t), leaf.reach = n}
      (⟨t, place⟩ : Placed).reach := by
  have hreach : (⟨t, place⟩ : Placed).reach = place.bytes + t.digest.reach := Nat.add_assoc _ _ _
  have hleavesOf := h.isReachOf place
  rw [hreach]
  refine ⟨?_, ?_⟩
  · rcases hleavesOf.attained with ⟨hnil, _⟩ | hattained
    · exact absurd hnil hleaves
    · exact hattained
  · rintro _ ⟨leaf, hleaf, rfl⟩
    exact hleavesOf.le leaf hleaf

end Subtree

end IncrementalLR
