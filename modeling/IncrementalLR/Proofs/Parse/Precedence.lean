import IncrementalLR.Proofs.Parse.Advancing
import IncrementalLR.Proofs.Parse.Balancing
import IncrementalLR.Proofs.Parse.Weight
import IncrementalLR.Proofs.Tree.Built

/-!
# Ranks of versions

Subtrees keep what their nodes weigh together in 32 bits: the sum of the integers up to multiples of 2³²,
and the sum itself in every tree that has few nodes for what the productions weigh. Whatever is done to a
stack, it keeps the sum of what its subtrees weigh, up to multiples of 2³². Versions whose errors cost the
same are compared by the negation of that sum. The comparison is that of the integers as long as these and
their negations have 32 bits; it may be any other once they do not.
-/

namespace IncrementalLR

/-! ### Weights without a limit -/

/-- No production weighs more than this, up or down. -/
def Table.WeighsWithin (table : Table) (bound : Nat) : Prop :=
  ∀ p, (table.production p).dynamicPrecedence.toInt.natAbs ≤ bound

theorem Table.weighsWithin_of_forall {table : Table} {bound : Nat}
    (h : ∀ info ∈ table.productions, info.dynamicPrecedence.toInt.natAbs ≤ bound) :
    table.WeighsWithin bound := by
  intro p
  rw [Table.production, Array.getD_eq_getD_getElem?]
  cases hinfo : table.productions[p.toNat]? with
  | none => exact Nat.zero_le bound
  | some info => exact h info (Array.mem_of_getElem? hinfo)

/-- The number and its negation have 32 bits. -/
def FitsBothWays (n : Int) : Prop := -2 ^ 31 < n ∧ n < 2 ^ 31

namespace Subtree

mutual

/-- What the nodes of a subtree weigh together. -/
def exactWeight (table : Table) : Subtree → Int
  | mk head children => (table.weight head.production).toInt + exactWeightAll table children

def exactWeightAll (table : Table) : List Subtree → Int
  | [] => 0
  | t :: rest => exactWeight table t + exactWeightAll table rest

end

variable {table : Table} {fits : Symbol → ProductionId → Prop} {t : Subtree} {trees : List Subtree}
  {bound : Nat}

theorem exactWeight_eq (table : Table) (t : Subtree) : t.exactWeight table =
    (table.weight t.head.production).toInt + exactWeightAll table t.children := by
  cases t
  rw [exactWeight]
  rfl

theorem weightAll_eq_ofInt
    (h : ∀ t ∈ trees, t.head.dynamicPrecedence = Int32.ofInt (t.exactWeight table)) :
    weightAll trees = Int32.ofInt (exactWeightAll table trees) := by
  induction trees with
  | nil => rfl
  | cons t rest ih =>
      obtain ⟨ht, hrest⟩ := List.forall_mem_cons.1 h
      rw [weightAll_cons, exactWeightAll, ht, ih hrest, Int32.ofInt_add]

/-- A subtree keeps the sum up to multiples of 2³². -/
theorem Built.dynamicPrecedence_eq (h : t.Built table fits) :
    t.head.dynamicPrecedence = Int32.ofInt (t.exactWeight table) := by
  have hnode : ∀ (id : Nat) (s : Symbol) (children : List Subtree) (production : Option ProductionId)
      (fragile : Bool),
      (∀ child ∈ children, child.head.dynamicPrecedence = Int32.ofInt (child.exactWeight table)) →
      (interior table id s children production fragile).head.dynamicPrecedence =
        Int32.ofInt ((table.weight production).toInt + exactWeightAll table children) := by
    intro id s children production fragile hchildren
    rw [dynamicPrecedence_interior, weightAll_eq_ofInt hchildren, Int32.ofInt_add, Int32.ofInt_toInt]
  induction h with
  | token => rfl
  | missing => rfl
  | node id s children production fragile _ _ ih =>
      rw [hnode id s children production fragile ih, exactWeight_eq, production_interior,
        children_interior]
  | root id children production trailing _ _ _ ih =>
      rw [exactWeight_eq, children_stretched, children_interior]
      change (interior ..).head.dynamicPrecedence =
        Int32.ofInt ((table.weight (interior ..).head.production).toInt + _)
      rw [hnode id table.startSymbol children production false ih, production_interior]

/-! ### Sums that fit -/

theorem natAbs_weight_le (h : table.WeighsWithin bound) (production : Option ProductionId) :
    (table.weight production).toInt.natAbs ≤ bound := by
  cases production with
  | none => exact Nat.zero_le bound
  | some p => exact h p

mutual

theorem natAbs_exactWeight_le (h : table.WeighsWithin bound) (t : Subtree) :
    (t.exactWeight table).natAbs ≤ bound * t.nodeCount := by
  cases t with
  | mk head children =>
      have hown := natAbs_weight_le h head.production
      have hchildren := natAbs_exactWeightAll_le h children
      rw [exactWeight, nodeCount, Nat.mul_add, Nat.mul_one]
      omega

theorem natAbs_exactWeightAll_le (h : table.WeighsWithin bound) (trees : List Subtree) :
    (exactWeightAll table trees).natAbs ≤ bound * nodeCountAll trees := by
  cases trees with
  | nil => exact Nat.zero_le _
  | cons t rest =>
      have hfirst := natAbs_exactWeight_le h t
      have hrest := natAbs_exactWeightAll_le h rest
      rw [exactWeightAll, nodeCountAll, Nat.mul_add]
      omega

end

theorem nodeCount_le_of_mem (ht : t ∈ trees) : t.nodeCount ≤ nodeCountAll trees := by
  obtain ⟨front, back, rfl⟩ := List.append_of_mem ht
  rw [nodeCountAll_append, nodeCountAll]
  omega

theorem nodeCount_le_of_mem_nodesAmong (place : Length) :
    ∀ q ∈ nodesAmong place trees, q.subtree.nodeCount ≤ nodeCountAll trees := by
  refine forall_mem_nodesAmong (fun t ht child hchild => ?_) place trees
    (fun t ht => nodeCount_le_of_mem ht)
  have hle := nodeCount_le_of_mem hchild
  rw [nodeCount_eq] at ht
  omega

/-- Few nodes for what productions weigh weigh a number of 32 bits. -/
theorem fits_exactWeightAll (h : table.WeighsWithin bound)
    (hfew : bound * nodeCountAll trees < 2 ^ 31) : FitsBothWays (exactWeightAll table trees) := by
  have hle := natAbs_exactWeightAll_le h trees
  constructor <;> omega

/-- Among so few nodes every subtree keeps the sum itself. -/
theorem toInt_dynamicPrecedence (hbuilt : ∀ t ∈ trees, t.Built table fits)
    (h : table.WeighsWithin bound) (hfew : bound * nodeCountAll trees < 2 ^ 31) (place : Length) :
    ∀ q ∈ nodesAmong place trees,
      q.subtree.head.dynamicPrecedence.toInt = q.subtree.exactWeight table := by
  intro q hq
  have hle := natAbs_exactWeight_le h q.subtree
  have hcount : bound * q.subtree.nodeCount ≤ bound * nodeCountAll trees :=
    Nat.mul_le_mul_left bound (nodeCount_le_of_mem_nodesAmong place q hq)
  have hq := forall_mem_nodesAmong (fun _ ht => Built.child ht) place trees hbuilt q hq
  rw [hq.dynamicPrecedence_eq, Int32.toInt_ofInt_of_le (by omega) (by omega)]

end Subtree

/-! ### Stacks -/

open KernelFollows (states)
open Subtree (weightAll exactWeightAll nodeCountAll nodesAmong)

/-- The subtrees of lower frames are the first ones. -/
theorem Stack.exists_trees_of_suffix {s : Stack} {frames : List Frame} (h : frames <:+ s.frames) :
    ∃ above, s.trees = { s with frames := frames }.trees ++ above := by
  obtain ⟨taken, htaken⟩ := h
  refine ⟨(taken.map (·.tree)).reverse, ?_⟩
  rw [trees, trees, ← htaken, List.map_append, List.reverse_append]

namespace Stack.IsPushed

variable {s : Stack} {trees : List Subtree}

theorem of_suffix (h : s.IsPushed) {frames : List Frame} (hsuffix : frames <:+ s.frames) :
    { s with frames := frames }.IsPushed := by
  induction h with
  | base state =>
      obtain rfl : frames = [] := List.suffix_nil.1 hsuffix
      exact .base state
  | push s state tree pending hs ih =>
      rcases List.suffix_cons_iff.1 hsuffix with rfl | hsuffix
      · exact .push s state tree pending hs
      · exact ih hsuffix

theorem pushAll (h : s.IsPushed) (state : StateId) : (s.pushAll state trees).IsPushed := by
  induction trees generalizing s with
  | nil => exact h
  | cons t rest ih => exact ih (h.push _ state t false)

theorem pushPending (h : s.IsPushed) (pushes : List (StateId × Subtree)) :
    (ParseSetting.pushPending s pushes).IsPushed := by
  induction pushes generalizing s with
  | nil => exact h
  | cons push pushes ih => exact ih (h.push _ push.1 push.2 _)

theorem breakPending (h : s.IsPushed) (table : Table) :
    (ParseSetting.breakPending table s).2.IsPushed := by
  have hbelow : ∀ {s : Stack} {top : Frame} {below : List Frame}, s.frames = top :: below →
      s.IsPushed → { s with frames := below }.IsPushed :=
    fun hframes h => h.of_suffix (hframes ▸ List.suffix_cons _ _)
  fun_induction ParseSetting.breakPending table s with
  | case1 => exact h
  | case2 s top below hframes => exact (hbelow hframes h).push _ _ _ _
  | case3 s top below hframes _ rest pushes _ ih => exact ih ((hbelow hframes h).pushPending pushes)
  | case4 => exact h

end Stack.IsPushed

namespace ParseSetting

variable {setting : ParseSetting} {old : Option ReuseCursor} {v v' w : Version} {s : Stack}

theorem isPushed_reduceStack (h : s.IsPushed) (forked : Bool) (p : ProductionId) (id : Nat) :
    (setting.reduceStack forked p id s).1.IsPushed := by
  have hrest : s.popTrailing.2.IsPushed := h.of_suffix (List.dropWhile_suffix _)
  have hbelow := hrest.of_suffix (Stack.suffix_popFrames (setting.table.production p).rhs.size _ [])
  rw [reduceStack]
  simp only
  split
  · exact (hbelow.push _ _ _ _).pushAll _
  · exact hbelow.push _ _ _ _

theorem isPushed_skipVersion (h : v.stack.IsPushed) (tokens : List Subtree) (popped skipped id : Nat)
    (relexed : Subtree) :
    (setting.skipVersion v tokens popped skipped id relexed).stack.IsPushed := by
  have hresumed := h.of_suffix (List.drop_suffix popped v.stack.frames)
  rw [skipVersion]
  simp only
  split
  · exact hresumed
  · exact hresumed.push _ _ _ _

/-- No operation writes into a stack: it takes frames off the top and pushes others. -/
theorem isPushed_of_moves (h : v.stack.IsPushed) (hmove : setting.Moves old v v') :
    v'.stack.IsPushed := by
  cases hmove with
  | lex => exact h
  | reuse => exact h
  | enter => exact h
  | reduce s p forked id => exact isPushed_reduceStack h forked p id
  | shift => exact h.push _ _ _ _
  | shiftExtra => exact h.push _ _ _ _
  | shiftReused => exact h.push _ _ _ _
  | breakPending => exact h.breakPending setting.table
  | missing => exact h.push _ _ _ _
  | skip => exact isPushed_skipVersion h _ _ _ _ _
  | skipLookahead => exact h.push _ _ _ _

theorem isPushed_of_reached (h : setting.Reached old v) : v.stack.IsPushed := by
  induction h with
  | start => exact .base _
  | move v v' _ hmove ih => exact isPushed_of_moves ih hmove

end ParseSetting

/-! ### What versions weigh -/

/-- Every frame keeps the sum over it and those below, and every node what it weighs, up to multiples
of 2³². -/
structure Version.Weighs (table : Table) (v : Version) : Prop where
  frame : ∀ frames, frames <:+ v.stack.frames → { v.stack with frames := frames }.dynamicPrecedence =
    Int32.ofInt (exactWeightAll table { v.stack with frames := frames }.trees)
  node : ∀ q ∈ nodesAmong Length.zero v.stack.trees,
    q.subtree.head.dynamicPrecedence = Int32.ofInt (q.subtree.exactWeight table)

/-- Every frame and every node keeps exactly that, and the whole sum can be negated. -/
structure Version.WeighsExactly (table : Table) (v : Version) : Prop where
  frame : ∀ frames, frames <:+ v.stack.frames →
    { v.stack with frames := frames }.dynamicPrecedence.toInt =
      exactWeightAll table { v.stack with frames := frames }.trees
  node : ∀ q ∈ nodesAmong Length.zero v.stack.trees,
    q.subtree.head.dynamicPrecedence.toInt = q.subtree.exactWeight table
  fits : FitsBothWays (exactWeightAll table v.stack.trees)

/-- The negation of what has 32 bits is compared like its integer. -/
theorem neg_ofInt_lt_neg_ofInt {m n : Int} :
    -Int32.ofInt m < -Int32.ofInt n ↔ (-m).bmod (2 ^ 32) < (-n).bmod (2 ^ 32) := by
  rw [Int32.lt_iff_toInt_lt, ← Int32.ofInt_neg, ← Int32.ofInt_neg, Int32.toInt_ofInt,
    Int32.toInt_ofInt]
  rfl

/-- Two productions that weigh as much as there is room for outweigh nothing together. -/
example : ¬ -Int32.ofInt (2 * (2 ^ 31 - 1)) < -Int32.ofInt 0 := by decide

theorem FitsBothWays.bmod_neg {n : Int} (h : FitsBothWays n) : (-n).bmod (2 ^ 32) = -n := by
  obtain ⟨hlow, hhigh⟩ := h
  exact Int.bmod_eq_of_le (by omega) (by omega)

namespace Version.Weighs

variable {table : Table} {v w : Version}

theorem stack (h : v.Weighs table) :
    v.stack.dynamicPrecedence = Int32.ofInt (exactWeightAll table v.stack.trees) :=
  h.frame v.stack.frames (List.suffix_refl _)

/-- Versions whose errors cost the same are compared by what the negations of their weights leave. -/
theorem better_iff (hv : v.Weighs table) (hw : w.Weighs table)
    (hcost : v.stack.errorCost = w.stack.errorCost) :
    w.better v = true ↔ (-exactWeightAll table w.stack.trees).bmod (2 ^ 32)
      < (-exactWeightAll table v.stack.trees).bmod (2 ^ 32) := by
  rw [Version.better, hcost, hv.stack, hw.stack, ← neg_ofInt_lt_neg_ofInt]
  simp only [beq_self_eq_true, Bool.true_and, Bool.or_eq_true, decide_eq_true_eq]
  exact or_iff_right (UInt32.lt_irrefl _)

/-- Where the weights can be negated the heavier one is better. -/
theorem better_iff_of_fits (hv : v.Weighs table) (hw : w.Weighs table)
    (hcost : v.stack.errorCost = w.stack.errorCost)
    (hvfits : FitsBothWays (exactWeightAll table v.stack.trees))
    (hwfits : FitsBothWays (exactWeightAll table w.stack.trees)) :
    w.better v = true ↔
      exactWeightAll table v.stack.trees < exactWeightAll table w.stack.trees := by
  rw [hv.better_iff hw hcost, hvfits.bmod_neg, hwfits.bmod_neg]
  omega

end Version.Weighs

namespace ParseSetting

variable {setting : ParseSetting} {old : Option ReuseCursor} {v : Version} {s : ParseState} {i : Nat}
  {t : Subtree}

/-- Whatever productions the nodes on a stack have, this parse or an earlier one built them. -/
theorem builtTrees_of_reached
    (hold : ∀ start ∈ old, ∀ t ∈ start.rest, t.Aged setting.table fun _ _ => True)
    (h : setting.Reached old v) :
    ∀ t ∈ v.stack.trees, t.Built setting.table fun _ _ => True := by
  have hfits : setting.ProductionsFit fun _ _ => True :=
    ⟨fun _ => trivial, fun _ _ _ _ _ => trivial⟩
  exact (built_of_reached hfits hold h).stack

theorem weighs_of_reached
    (hold : ∀ start ∈ old, ∀ t ∈ start.rest, t.Aged setting.table fun _ _ => True)
    (h : setting.Reached old v) : v.Weighs setting.table := by
  have hbuilt := builtTrees_of_reached hold h
  refine ⟨fun frames hframes => ?_, fun q hq => ?_⟩
  · obtain ⟨above, htrees⟩ := Stack.exists_trees_of_suffix hframes
    rw [((isPushed_of_reached h).of_suffix hframes).dynamicPrecedence_eq]
    refine Subtree.weightAll_eq_ofInt fun t ht => (hbuilt t ?_).dynamicPrecedence_eq
    rw [htrees]
    exact List.mem_append_left above ht
  · exact (Subtree.forall_mem_nodesAmong (fun _ ht => Subtree.Built.child ht) Length.zero _ hbuilt q
      hq).dynamicPrecedence_eq

/-- A stack of few nodes for what productions weigh keeps all sums. -/
theorem weighsExactly_of_reached
    (hold : ∀ start ∈ old, ∀ t ∈ start.rest, t.Aged setting.table fun _ _ => True)
    (h : setting.Reached old v) {bound : Nat} (hbound : setting.table.WeighsWithin bound)
    (hfew : bound * nodeCountAll v.stack.trees < 2 ^ 31) : v.WeighsExactly setting.table := by
  refine ⟨fun frames hframes => ?_,
    Subtree.toInt_dynamicPrecedence (builtTrees_of_reached hold h) hbound hfew Length.zero,
    Subtree.fits_exactWeightAll hbound hfew⟩
  obtain ⟨above, htrees⟩ := Stack.exists_trees_of_suffix hframes
  have hcount : nodeCountAll { v.stack with frames := frames }.trees ≤ nodeCountAll v.stack.trees := by
    rw [htrees, Subtree.nodeCountAll_append]
    exact Nat.le_add_right _ _
  obtain ⟨hlow, hhigh⟩ := Subtree.fits_exactWeightAll hbound
    (Nat.lt_of_le_of_lt (Nat.mul_le_mul_left bound hcount) hfew)
  rw [(weighs_of_reached hold h).frame frames hframes,
    Int32.toInt_ofInt_of_le (by omega) (by omega)]

/-! ### What is accepted -/

/-- What is kept of a version that moves lead to. -/
def Leaves (setting : ParseSetting) (old : Option ReuseCursor) (a : Accepted) : Prop :=
  ∃ v, setting.Reached old v ∧ a = v.accepted

theorem leaves_accept (hv : ∀ v, s.versions[i]? = some v → setting.Reached old v)
    (hs : ∀ a ∈ s.accepted, setting.Leaves old a) :
    ∀ a ∈ (accept s i).accepted, setting.Leaves old a := by
  rw [accept]
  split
  · exact hs
  · rename_i v hget
    exact List.forall_mem_append.2 ⟨hs, List.forall_mem_singleton.2 ⟨v, hv v hget, rfl⟩⟩

theorem leaves_apply (hv : ∀ v, s.versions[i]? = some v → setting.Reached old v)
    (hs : ∀ a ∈ s.accepted, setting.Leaves old a) (t : Subtree) (action : Action) :
    ∀ a ∈ (setting.apply s i t action).accepted, setting.Leaves old a := by
  cases action with
  | shift next =>
      rw [apply, accepted_shift]
      exact hs
  | reduce p =>
      rw [apply, accepted_reduce]
      exact hs
  | accept => exact leaves_accept hv hs
  | error => exact hs
  | goto => exact hs
  | ambig => exact hs

theorem leaves_fork (hv : setting.Reached old v) (hs : ∀ a ∈ s.accepted, setting.Leaves old a)
    (t : Subtree) (actions : List Action) :
    ∀ a ∈ (setting.fork v t s actions).accepted, setting.Leaves old a := by
  induction actions generalizing s with
  | nil => exact hs
  | cons action actions ih =>
      rw [fork]
      split
      · exact hs
      · have hlast : ∀ w, (s.versions ++ [v])[s.versions.length]? = some w →
            setting.Reached old w := by
          intro w hw
          rw [List.getElem?_concat_length] at hw
          exact Option.some.inj hw ▸ hv
        exact ih (leaves_apply (s := { s with versions := s.versions ++ [v] }) hlast hs t action)

theorem leaves_recover (hsound : s.Sound (setting.reaching old)) (hv : s.versions[i]? = some v)
    (ht : v.lookahead = some t) (hleaf : t.isLeaf = true)
    (hs : ∀ a ∈ s.accepted, setting.Leaves old a) :
    ∀ a ∈ (setting.recover s i v t).accepted, setting.Leaves old a := by
  obtain ⟨hmore, hlexed, hversions⟩ := upcoming_spec hsound (v.position + t.total) t
    setting.options.maxSkippedTokens
  have hlooked : (setting.upcoming s (v.position + t.total) t
      setting.options.maxSkippedTokens).2.accepted = s.accepted := accepted_upcoming ..
  rw [← hlooked] at hs
  rw [recover]
  simp only
  generalize setting.upcoming s (v.position + t.total) t setting.options.maxSkippedTokens = looked at *
  obtain ⟨more, s'⟩ := looked
  generalize hplans : (setting.insertPlans v.stack t ++ _).mergeSort _ = plans
  have hinsertable : ∀ symbols state, .insert symbols state ∈ plans.map (·.2) →
      symbols ⊆ Recovery.insertable setting.table := by
    intro symbols state hplan
    obtain ⟨⟨cost, _⟩, hmem, rfl⟩ := List.mem_map.1 hplan
    rw [← hplans] at hmem
    exact (resumes_of_mem_plans hmem).1
  obtain ⟨hcarried, _⟩ := carryOut_spec hlexed (hversions ▸ hv) ht hleaf hmore hinsertable
  have hs' : ∀ a ∈ (setting.carryOut i v t (t :: more) s' (plans.map (·.2))).2.accepted,
      setting.Leaves old a := by
    rw [accepted_carryOut]
    exact hs
  split
  · exact hs'
  · split
    · exact leaves_accept (fun w hw => hcarried.of_getElem? hw) hs'
    · exact hs'

theorem leaves_handleError (hsound : s.Sound (setting.reaching old)) (hv : s.versions[i]? = some v)
    (ht : v.lookahead = some t) (hleaf : t.isLeaf = true)
    (hnone : setting.table.actionList v.stack.state t.symbol = [])
    (hs : ∀ a ∈ s.accepted, setting.Leaves old a) :
    ∀ a ∈ (setting.handleError s i v t).1.accepted, setting.Leaves old a := by
  rw [handleError]
  simp only
  split
  · exact hs
  · have hbroken := hsound.setVersion (i := i)
      ((setting.reaching old).moves (hsound.of_getElem? hv) (.breakPending v t ht hleaf hnone))
    split
    · exact hs
    · split
      · exact hs
      · refine leaves_recover ?_ (ParseState.getElem?_setVersion hv _) ht hleaf hs
        exact ⟨hbroken.versions, hbroken.accepted, hbroken.cache, hbroken.reuse, hbroken.input,
          hbroken.alive⟩

theorem accepted_advanceReused (v : Version) (t : Subtree) :
    (setting.advanceReused s i v t).accepted = s.accepted := by
  rw [advanceReused]
  split
  · exact accepted_reduce _
  · split
    · rfl
    · rfl
  · rfl

/-- What an operation accepts was a version. -/
theorem leaves_advance (hsound : s.Sound (setting.reaching old))
    (hs : ∀ a ∈ s.accepted, setting.Leaves old a) (i : Nat) :
    ∀ a ∈ (setting.advance s i).1.accepted, setting.Leaves old a := by
  cases hv : s.versions[i]? with
  | none =>
      rw [advance, hv]
      exact hs
  | some v =>
      obtain ⟨hlooking, hset⟩ := sound_looking hsound hv
      have hs : ∀ a ∈ (setting.looking s i v).accepted, setting.Leaves old a := by
        have hkept : (setting.looking s i v).accepted = s.accepted := accepted_fetch v
        rw [hkept]
        exact hs
      have hoperation := operation_advance setting hv
      generalize setting.advance s i = result at hoperation ⊢
      cases hoperation with
      | reused =>
          rw [accepted_advanceReused]
          exact hs
      | extra =>
          rw [accepted_shift]
          exact hs
      | error hleaf hnone => exact leaves_handleError hlooking hset rfl hleaf hnone hs
      | actions ambigs action others hleaf hactions =>
          have hmem : ∀ other ∈ others,
              other ∈ setting.table.actionList v.stack.state (setting.fetch s v).1.symbol := by
            rw [hactions]
            exact fun _ => List.mem_cons_of_mem action
          obtain ⟨hlt, _⟩ := List.getElem?_eq_some_iff.1 hset
          obtain ⟨hforked, _⟩ :=
            fork_spec (hlooking.count _) (hlooking.of_getElem? hset) rfl hleaf hmem hlt
          refine leaves_apply (fun w hw => hforked.of_getElem? hw) ?_ _ action
          exact leaves_fork (hlooking.of_getElem? hset)
            (s := (setting.looking s i v).count fun c => { c with ambigs := ambigs }) hs _ others

theorem leaves_of_passes {start : ParseState} (hsound : start.Sound (setting.reaching old))
    (hs : ∀ a ∈ start.accepted, setting.Leaves old a) (h : setting.Passes start s) :
    ∀ a ∈ s.accepted, setting.Leaves old a := by
  induction h with
  | start => exact hs
  | next s i hpasses _ _ ih => exact leaves_advance (sound_of_passes hsound hpasses) ih i

end ParseSetting

/-! ### Choosing -/

/-- One number by which a lower cost outweighs any weight that can be negated. -/
def Accepted.rank (table : Table) (a : Accepted) : Int :=
  exactWeightAll table a.trees - 2 ^ 32 * a.errorCost.toNat

theorem Version.Weighs.better_iff_rank {table : Table} {v w : Version} (hv : v.Weighs table)
    (hw : w.Weighs table) (hvfits : FitsBothWays (exactWeightAll table v.stack.trees))
    (hwfits : FitsBothWays (exactWeightAll table w.stack.trees)) :
    w.better v = true ↔ v.accepted.rank table < w.accepted.rank table := by
  have hvrank : v.accepted.rank table
      = exactWeightAll table v.stack.trees - 2 ^ 32 * v.stack.errorCost.toNat := rfl
  have hwrank : w.accepted.rank table
      = exactWeightAll table w.stack.trees - 2 ^ 32 * w.stack.errorCost.toNat := rfl
  rw [hvrank, hwrank]
  by_cases hcost : v.stack.errorCost = w.stack.errorCost
  · rw [hv.better_iff_of_fits hw hcost hvfits hwfits, hcost]
    omega
  · have hne : v.stack.errorCost.toNat ≠ w.stack.errorCost.toNat := mt UInt32.toNat_inj.1 hcost
    have hlower : w.better v = true ↔ w.stack.errorCost.toNat < v.stack.errorCost.toNat := by
      simp [Version.better, Ne.symm hcost, UInt32.lt_iff_toNat_lt]
    obtain ⟨hvlow, hvhigh⟩ := hvfits
    obtain ⟨hwlow, hwhigh⟩ := hwfits
    rw [hlower]
    omega

/-- Where all that is accepted weighs what can be negated, the heaviest of the cheapest is chosen. -/
theorem Accepted.best?_spec_of_fits {table : Table} {accepted : List Accepted} {best : Accepted}
    (hweighs : ∀ a ∈ accepted, ∃ v : Version, v.Weighs table ∧ a = v.accepted)
    (hfits : ∀ a ∈ accepted, FitsBothWays (exactWeightAll table a.trees))
    (hbest : best? accepted = some best) :
    ∀ a ∈ accepted, best.errorCost ≤ a.errorCost ∧ (best.errorCost = a.errorCost →
      exactWeightAll table a.trees ≤ exactWeightAll table best.trees) := by
  have hbetter : ∀ a ∈ accepted, ∀ b ∈ accepted,
      b.better a = true ↔ a.rank table < b.rank table := by
    intro a ha b hb
    have hafits := hfits a ha
    have hbfits := hfits b hb
    obtain ⟨v, hv, rfl⟩ := hweighs a ha
    obtain ⟨w, hw, rfl⟩ := hweighs b hb
    exact hv.better_iff_rank hw hafits hbfits
  intro a ha
  have hrank : a.rank table ≤ best.rank table := by
    cases accepted with
    | nil => cases ha
    | cons first rest =>
        rw [← Option.some.inj hbest]
        exact le_foldl_choose hbetter a ha
  have hmem : best ∈ accepted := by
    cases accepted with
    | nil => cases ha
    | cons first rest =>
        rw [← Option.some.inj hbest]
        exact mem_foldl_choose better first rest
  obtain ⟨halow, hahigh⟩ := hfits a ha
  obtain ⟨hlow, hhigh⟩ := hfits best hmem
  rw [rank, rank] at hrank
  constructor
  · rw [UInt32.le_iff_toNat_le]
    omega
  · intro hcost
    rw [hcost] at hrank
    omega

/-! ### Parsers -/

/-- Versions whose errors cost the same are compared by their weights up to multiples of 2³². Where these
can be negated the heavier one is better, and so the heaviest of the cheapest is chosen in the end. They
can be negated on every stack of few nodes for what productions weigh. -/
theorem Parser.ranks_of_reached {p : Parser} {old : Option Tree}
    (hold : ∀ tree ∈ old, tree.language.isSame p.language = true → tree.Made p.language)
    (text : ByteArray) :
    (∀ v, (p.setting text).Reached (p.cursor? old) v → v.Weighs p.language.table ∧
      ∀ bound, p.language.table.WeighsWithin bound →
        bound * nodeCountAll v.stack.trees < 2 ^ 31 → v.WeighsExactly p.language.table) ∧
    (∀ v w, (p.setting text).Reached (p.cursor? old) v → (p.setting text).Reached (p.cursor? old) w →
      v.stack.errorCost = w.stack.errorCost →
      (w.better v = true ↔ (-exactWeightAll p.language.table w.stack.trees).bmod (2 ^ 32)
        < (-exactWeightAll p.language.table v.stack.trees).bmod (2 ^ 32)) ∧
      (FitsBothWays (exactWeightAll p.language.table v.stack.trees) →
        FitsBothWays (exactWeightAll p.language.table w.stack.trees) →
        (w.better v = true ↔ exactWeightAll p.language.table v.stack.trees
          < exactWeightAll p.language.table w.stack.trees))) ∧
    ∀ id s, (p.setting text).Passes (.start p.language.table.startState (p.cursor? old) id) s →
      (∀ a ∈ s.accepted, FitsBothWays (exactWeightAll p.language.table a.trees)) →
      ∀ best ∈ Accepted.best? s.accepted, ∀ a ∈ s.accepted, best.errorCost ≤ a.errorCost ∧
        (best.errorCost = a.errorCost → exactWeightAll p.language.table a.trees
          ≤ exactWeightAll p.language.table best.trees) := by
  have hfits : p.language.ProductionsFit fun _ _ => True :=
    p.language.productionsFit_of_forall fun _ _ => trivial
  have hcursor : ∀ start ∈ p.cursor? old, ∀ t ∈ start.rest,
      t.Aged (p.setting text).table fun _ _ => True :=
    Parser.aged_cursor? fun tree htree hsame => Tree.Made.aged hfits (hold tree htree hsame)
  have hweighs := fun v (hv : (p.setting text).Reached (p.cursor? old) v) =>
    ParseSetting.weighs_of_reached hcursor hv
  refine ⟨fun v hv => ⟨hweighs v hv, fun bound => ?_⟩, fun v w hv hw hcost => ⟨?_, ?_⟩, ?_⟩
  · exact ParseSetting.weighsExactly_of_reached hcursor hv
  · exact (hweighs v hv).better_iff (hweighs w hw) hcost
  · exact (hweighs v hv).better_iff_of_fits (hweighs w hw) hcost
  · intro id s hs hfits best hbest
    refine Accepted.best?_spec_of_fits (fun a ha => ?_) hfits hbest
    obtain ⟨v, hv, rfl⟩ := ParseSetting.leaves_of_passes (ParseSetting.sound_start _ id)
      (fun _ ha => absurd ha List.not_mem_nil) hs a ha
    exact ⟨v, hweighs v hv, rfl⟩

/-! ### Two heavy parts -/

/-- Two parts, each of which weighs as much as a production can. -/
def GrammarDef.heavy : GrammarDef :=
  { name := "heavy"
    rules := [("s", .seq [.symbol "x", .symbol "x", .literal "u"]),
      ("x", .weighted (2 ^ 31 - 1) (.literal "t"))]
    extras := some [] }

def Grammar.heavy : Grammar :=
  { name := "heavy"
    symbols := #[⟨"end", .terminal, false, false, false⟩, ⟨"u", .terminal, true, false, false⟩,
      ⟨"t", .terminal, true, false, false⟩, ⟨"start'", .auxiliary, false, false, false⟩,
      ⟨"s", .nonterminal, true, true, false⟩, ⟨"x", .nonterminal, true, true, false⟩]
    terminalCount := 3
    start := ⟨4⟩
    productions := #[⟨⟨3⟩, #[{ symbol := ⟨4⟩ }], none, 0⟩,
      ⟨⟨4⟩, #[{ symbol := ⟨5⟩ }, { symbol := ⟨5⟩ }, { symbol := ⟨1⟩ }], none, 0⟩,
      ⟨⟨5⟩, #[{ symbol := ⟨2⟩ }], none, 2 ^ 31 - 1⟩]
    fields := #[]
    tokens := #[⟨⟨1⟩, "u", true⟩, ⟨⟨2⟩, "t", true⟩]
    skips := []
    extras := []
    externals := #[]
    word := none
    keywords := []
    conflicts := []
    tokenPrecedence := []
    auxOrigin := []
    warnings := [] }

theorem load_heavy : Grammar.load .heavy = .ok .heavy := by
  cbv

theorem states_heavy : states Grammar.heavy
    = ⟨#[[⟨0, 0⟩], [⟨2, 1⟩], [⟨0, 1⟩], [⟨1, 1⟩], [⟨1, 2⟩], [⟨1, 3⟩]],
      #[[(⟨2⟩, 1), (⟨4⟩, 2), (⟨5⟩, 3)], [], [], [(⟨2⟩, 1), (⟨5⟩, 4)], [(⟨1⟩, 5)], []]⟩ := by
  have hmoves₀ : Lr0.moves .heavy Grammar.heavy.productionsByLhs [⟨0, 0⟩]
      = [(⟨2⟩, [⟨2, 1⟩]), (⟨4⟩, [⟨0, 1⟩]), (⟨5⟩, [⟨1, 1⟩])] := by decide
  have hmoves₃ : Lr0.moves .heavy Grammar.heavy.productionsByLhs [⟨1, 1⟩]
      = [(⟨2⟩, [⟨2, 1⟩]), (⟨5⟩, [⟨1, 2⟩])] := by decide
  have hmoves₄ : Lr0.moves .heavy Grammar.heavy.productionsByLhs [⟨1, 2⟩]
      = [(⟨1⟩, [⟨1, 3⟩])] := by decide
  have hends : ∀ item ∈ [(⟨2, 1⟩ : Item), ⟨0, 1⟩, ⟨1, 3⟩],
      Lr0.moves .heavy Grammar.heavy.productionsByLhs [item] = [] := by decide
  have hcount : Lr0.itemCount .heavy = 8 := by decide
  simp [states, Lr0.ofGrammar, hmoves₀, hmoves₃, hmoves₄, hends, hcount, Lr0.Builder.run,
    Lr0.startKernel, Lr0.Builder.addTransitions, Lr0.Builder.addState, Std.HashMap.getElem_insert]

def Table.heavy : Table :=
  { name := "heavy"
    symbols := Grammar.heavy.symbols
    terminalCount := 3
    startSymbol := ⟨4⟩
    fields := #[]
    productions := Grammar.heavy.productions.map Compile.productionInfo
    stateCount := 6
    actions := #[.error, .error, .shift 1, .error, .goto 2, .goto 3,
      .error, .reduce 2, .reduce 2, .error, .error, .error,
      .accept, .error, .error, .error, .error, .error,
      .error, .error, .shift 1, .error, .error, .goto 4,
      .error, .shift 5, .error, .error, .error, .error,
      .reduce 1, .error, .error, .error, .error, .error]
    ambigs := #[]
    fragile := []
    breakdown := []
    lexModes := #[#[⟨0⟩, ⟨1⟩, ⟨2⟩], #[⟨2⟩], #[⟨1⟩, ⟨2⟩], #[⟨0⟩], #[⟨1⟩]]
    stateModes := #[1, 2, 3, 1, 4, 3]
    lexical := { tokens := #[⟨⟨1⟩, "u", true⟩, ⟨⟨2⟩, "t", true⟩] }
    extras := #[]
    externals := #[]
    resolutions := #[]
    kernels := #[#[⟨0, 0⟩], #[⟨2, 1⟩], #[⟨0, 1⟩], #[⟨1, 1⟩], #[⟨1, 2⟩], #[⟨1, 3⟩]]
    startState := 0 }

theorem compile_heavy : Table.compile .heavy .strict = .ok .heavy := by
  have hbuilt : (match Compile.buildRows (LookaheadTables.ofGrammar .heavy) (states .heavy) .strict with
    | .ok rows => rows.actions == Table.heavy.actions && rows.ambigs == #[] &&
        rows.fragile == [] && rows.breakdown == [] && rows.resolutions == []
    | .error _ => false) = true := by
    rw [states_heavy]
    decide +kernel
  have hmodes : Compile.lexModes .heavy Table.heavy.actions 6
      = (Table.heavy.lexModes, Table.heavy.stateModes) := by
    simp +decide [Compile.lexModes, Grammar.heavy, List.range_succ, Table.heavy,
      SymbolSet.ofList, Symbol.ofIndex, Symbol.index, Std.HashMap.getElem_insert]
  split at hbuilt
  · rename_i rows hrows
    simp only [Bool.and_eq_true, beq_iff_eq] at hbuilt
    obtain ⟨⟨⟨⟨hactions, hambigs⟩, hfragile⟩, hbreakdown⟩, hresolutions⟩ := hbuilt
    have hstates : Lr0.ofGrammar .heavy = _ := states_heavy
    rw [Table.compile]
    simp only [hrows, bind, Except.bind, hactions, hambigs, hfragile, hbreakdown, hresolutions]
    rw [hstates, show Array.size #[[(⟨0, 0⟩ : Item)], [⟨2, 1⟩], [⟨0, 1⟩], [⟨1, 1⟩], [⟨1, 2⟩], [⟨1, 3⟩]] = 6
      from rfl, hmodes]
    refine congrArg Except.ok ?_
    decide +kernel
  · cases hbuilt

/-- A token that is missing weighs what it should. Two parts that are missing outweigh one of them and a
token, but the sum of their weights does not fit: the version with both is no better. -/
theorem ranks_of_reached_heavy :
    ∃ l, Language.load .heavy .strict = .ok l ∧
      let p := Parser.ofLanguage { l with scanner := none, id := 1 }
      let away := InputEdit.replace "t".toUTF8 0 1 "u".toUTF8
      let edited := ((p.parse "t".toUTF8 none 0).tree.edit away 8).1
      ∃ u v w, (p.setting "u".toUTF8).Reached (p.cursor? (some edited)) u ∧
        (p.setting "u".toUTF8).Reached (p.cursor? (some edited)) v ∧
        (p.setting "u".toUTF8).Reached (p.cursor? (some edited)) w ∧
        u.WeighsExactly p.language.table ∧ v.stack.errorCost = w.stack.errorCost ∧
        exactWeightAll p.language.table v.stack.trees = 2 ^ 31 - 1 ∧
        exactWeightAll p.language.table w.stack.trees = 2 * (2 ^ 31 - 1) ∧ ¬ w.better v = true := by
  obtain ⟨⟨table, _, _, _, _⟩, hl, rfl⟩ :=
    Language.exists_load load_heavy compile_heavy (by decide +kernel)
  refine ⟨_, hl, ?_⟩
  intro p away edited
  have hold : ∀ tree ∈ some edited, tree.language.isSame p.language = true → tree.Made p.language := by
    intro tree htree _
    cases htree
    exact .edit _ _ 8 (.parse _ _ none 0 rfl rfl nofun)
  have hinsertable : (⟨2⟩ : Symbol) ∈ Recovery.insertable (p.setting "u".toUTF8).table :=
    show ⟨2⟩ ∈ Recovery.insertable Table.heavy by decide +kernel
  have hbound : p.language.table.WeighsWithin (2 ^ 31 - 1) := by
    refine Table.weighsWithin_of_forall ?_
    change ∀ info ∈ Grammar.heavy.productions.map Compile.productionInfo, _
    decide +kernel
  obtain ⟨hweighs, hranks, _⟩ := Parser.ranks_of_reached hold "u".toUTF8
  have hstart : (p.setting "u".toUTF8).Reached (p.cursor? (some edited)) _ := .start
  obtain ⟨u, hu, hcount⟩ : ∃ u, (p.setting "u".toUTF8).Reached (p.cursor? (some edited)) u ∧
      nodeCountAll u.stack.trees = 1 :=
    ⟨_, hstart.move _ _ (.missing _ _ 1 0 hinsertable rfl), by cbv⟩
  have hfirst := ParseSetting.reached_putIn 1 2 hinsertable rfl List.mem_cons_self hstart
  obtain ⟨v, hv, hvcost, hvweight⟩ : ∃ v, (p.setting "u".toUTF8).Reached (p.cursor? (some edited)) v ∧
      v.stack.errorCost = 220 ∧ exactWeightAll p.language.table v.stack.trees = 2 ^ 31 - 1 :=
    ⟨_, hfirst.move _ _ (.missing _ _ 1 0 hinsertable (by cbv)), by cbv, by cbv⟩
  obtain ⟨w, hw, hwcost, hwweight⟩ : ∃ w, (p.setting "u".toUTF8).Reached (p.cursor? (some edited)) w ∧
      w.stack.errorCost = 220 ∧ exactWeightAll p.language.table w.stack.trees = 2 * (2 ^ 31 - 1) :=
    ⟨_, ParseSetting.reached_putIn 1 2 hinsertable (by cbv) List.mem_cons_self hfirst, by cbv, by cbv⟩
  have hcost := hvcost.trans hwcost.symm
  refine ⟨u, v, w, hu, hv, hw, ?_, hcost, hvweight, hwweight, ?_⟩
  · refine (hweighs u hu).2 _ hbound ?_
    rw [hcount]
    decide
  · rw [(hranks v w hv hw hcost).1, hvweight, hwweight]
    decide

end IncrementalLR
