import IncrementalLR.Proofs.Parse.Balancing
import IncrementalLR.Proofs.Tree.Runs

/-!
# Repetitions in parses

A repetition grows on the stack as a chain and is balanced when it becomes part of a node. Below the
chain may stand a node of the repetition from the old tree, which is taken over as it is. So the runs of
a tree are flat over those of the old tree, and those of a fresh parse over nothing. Nodes that are
pending come from the old tree whole, so breaking them up uncovers no other runs.
-/

namespace IncrementalLR

open Subtree (interior ofSkipped balance balanceWhere chainBase? chainEnd structuralSymbols runLength
  itemCount deepestRun nodesAt holdsFlat_of_isLeaf holdsFlat_ofSkipped)

/-- A subtree that holds flat repetitions and ends a chain, if it is one, with a known run. -/
structure Subtree.Flattened (table : Table) (bases : RepetitionBases) (deep : Symbol → Nat)
    (t : Subtree) : Prop where
  holds : t.HoldsFlat table deep
  ends : t.EndsFlat table bases deep

/-- The subtrees of the stack are flattened, and what is pending was known. -/
def Stack.Flattened (table : Table) (bases : RepetitionBases) (deep : Symbol → Nat) (s : Stack) : Prop :=
  ∀ frame ∈ s.frames, frame.tree.Flattened table bases deep ∧
    (frame.pending = true → frame.tree.IsKnown deep)

structure Version.Flattened (table : Table) (bases : RepetitionBases) (deep : Symbol → Nat)
    (v : Version) : Prop where
  stack : v.stack.Flattened table bases deep
  lookahead : ∀ t ∈ v.lookahead, t.Flattened table bases deep ∧ (t.isLeaf = false → t.IsKnown deep)

/-- Wherever a repetition begins in the tree, outside of skipped text, the longest run of it has no more
nodes than the logarithm of the number of its items and those of the deepest run before. -/
def Tree.IsFlatOver (tree : Tree) (deep : Symbol → Nat) : Prop :=
  ∀ q ∈ nodesAt Length.zero tree.root, q.subtree.symbol ≠ Symbol.error →
    ∀ t ∈ q.subtree.children, tree.language.table.IsAuxiliary t.symbol →
      t.symbol ≠ q.subtree.symbol →
        runLength t.symbol t ≤ Nat.clog 2 (itemCount t.symbol t) + max 1 (deep t.symbol)

variable {table : Table} {bases : RepetitionBases} {deep : Symbol → Nat} {t : Subtree}
  {trees tail : List Subtree}

namespace Subtree

theorem IsKnown.flattened (h : t.IsKnown deep) : t.Flattened table bases deep :=
  ⟨IsKnown.holdsFlat t h, h.endsFlat table bases⟩

/-- A leaf is a run of its own at most. -/
theorem flattened_of_children_eq_nil (h : t.children = []) : t.Flattened table bases deep := by
  refine ⟨holdsFlat_of_isLeaf h, fun _ => ?_⟩
  refine (runLength_chainEnd_le bases t).trans ?_
  rw [runLength_eq, if_pos rfl, h]
  exact Nat.le_max_left _ _

theorem flattened_ofSkipped (id : Nat) (h : ∀ t ∈ trees, t.HoldsFlat table deep) :
    (ofSkipped table id trees).Flattened table bases deep := by
  refine ⟨holdsFlat_ofSkipped id h, fun haux => ?_⟩
  rw [symbol_ofSkipped] at haux
  exact absurd rfl haux.ne_error

/-- What comes out of balancing some subtrees was balanced or is as it was. -/
theorem exists_of_mem_balanceWhere {condition : Subtree → Bool} {id : Nat}
    (h : t ∈ (balanceWhere table bases condition id trees).1) : ∃ source ∈ trees,
      (condition source = true ∧ ∃ id, t = (balance table bases id source).1) ∨
        (condition source = false ∧ t = source) := by
  induction trees generalizing id with
  | nil => cases h
  | cons first rest ih =>
      rw [balanceWhere] at h
      rcases List.mem_cons.1 h with rfl | h
      · refine ⟨first, List.mem_cons_self, ?_⟩
        cases hcondition : condition first with
        | true => exact .inl ⟨rfl, id, by rw [if_pos rfl]⟩
        | false => exact .inr ⟨rfl, by rw [if_neg Bool.false_ne_true]⟩
      · obtain ⟨source, hsource, hcases⟩ := ih h
        exact ⟨source, List.mem_cons_of_mem first hsource, hcases⟩

theorem symbol_balance (hbases : bases.Splits table) (id : Nat) (h : Applied table t) :
    (balance table bases id t).1.symbol = t.symbol :=
  (Prod.mk.inj (applied_balance hbases.toFitTable id h).2).2

/-- Over balanced subtrees a node holds flat repetitions. -/
theorem flat_of_mem_balanceWhere (hbases : bases.Splits table) {s : Symbol} {condition : Subtree → Bool}
    (hcondition : ∀ t ∈ trees, t.symbol ≠ s → condition t = true) {id : Nat}
    (happlied : ∀ t ∈ trees, Applied table t) (h : ∀ t ∈ trees, t.Flattened table bases deep)
    (ht : t ∈ (balanceWhere table bases condition id trees).1) :
    t.HoldsFlat table deep ∧
      (table.IsAuxiliary t.symbol → t.symbol ≠ s → t.IsFlat deep) := by
  obtain ⟨source, hsource, ⟨_, id, rfl⟩ | ⟨hfalse, rfl⟩⟩ := exists_of_mem_balanceWhere ht
  · have hsymbol := symbol_balance hbases id (happlied source hsource)
    refine ⟨holdsFlat_balance hbases id (happlied source hsource) (h source hsource).holds,
      fun haux _ => ?_⟩
    exact isFlat_balance hbases id (happlied source hsource) (hsymbol ▸ haux) (h source hsource).ends
  · refine ⟨(h t hsource).holds, fun _ hne => ?_⟩
    rw [hcondition t hsource hne] at hfalse
    cases hfalse

theorem chainEnd_of_children {base : ProductionId} {first : Subtree} {rest : List Subtree}
    (hchildren : t.children = first :: rest) (h : chainBase? bases t = some base) :
    chainEnd bases t = chainEnd bases first := by
  obtain ⟨head, children⟩ := t
  obtain rfl : children = first :: rest := hchildren
  simp only [chainEnd, h]

theorem chainBase?_eq_some {p base : ProductionId} {first : Subtree} {rest : List Subtree}
    (hp : t.head.production = some p) (hget : bases.get? p = some base)
    (hchildren : t.children = first :: rest) (hsymbol : first.symbol = t.symbol)
    (hstructural : first.isStructural = true) : chainBase? bases t = some base := by
  rw [chainBase?, hp, hchildren]
  simp [hget, hsymbol, hstructural]

end Subtree

namespace Stack

variable {s : Stack}

theorem Flattened.push (h : s.Flattened table bases deep) (ht : t.Flattened table bases deep)
    (state : StateId) {pending : Bool} (hpending : pending = true → t.IsKnown deep) :
    (s.push state t pending).Flattened table bases deep :=
  List.forall_mem_cons.2 ⟨⟨ht, hpending⟩, h⟩

theorem Flattened.pushAll (h : s.Flattened table bases deep) (state : StateId)
    (htrees : ∀ t ∈ trees, t.Flattened table bases deep) :
    (s.pushAll state trees).Flattened table bases deep := by
  induction trees generalizing s with
  | nil => exact h
  | cons t rest ih =>
      obtain ⟨ht, hrest⟩ := List.forall_mem_cons.1 htrees
      exact ih (h.push ht state fun hpending => absurd hpending Bool.false_ne_true) hrest

theorem Flattened.of_suffix (h : s.Flattened table bases deep) {frames : List Frame}
    (hsuffix : frames <:+ s.frames) : { s with frames := frames }.Flattened table bases deep :=
  fun frame hframe => h frame (hsuffix.subset hframe)

/-- The lowest subtree that is taken off counts. -/
theorem exists_cons_of_popStructural {count : Nat} (hcount : count ≠ 0)
    (henough : count ≤ s.parts.length) : ∃ first rest,
      (s.popStructural count).1 = first :: rest ∧ first.isStructural = true := by
  have hpop : ∀ (count : Nat) (frames : List Frame) (taken : List Subtree), count ≠ 0 →
      count ≤ (frames.filter (·.tree.isStructural)).length → ∃ first rest,
        (popFrames count frames taken).1 = first :: rest ∧ first.isStructural = true := by
    intro count frames taken hcount henough
    fun_induction popFrames count frames taken with
    | case1 => exact absurd rfl hcount
    | case2 => exact absurd henough (Nat.not_succ_le_zero _)
    | case3 count top below taken ih =>
        cases hstructural : top.tree.isStructural with
        | false =>
            rw [List.filter_cons_of_neg (by simp [hstructural])] at henough
            simpa [hstructural] using ih (by simp [hstructural]) (by simpa [hstructural] using henough)
        | true =>
            simp only [List.filter_cons, hstructural, if_true, List.length_cons] at henough
            cases count with
            | zero => exact ⟨top.tree, taken, by rw [if_pos rfl, popFrames], hstructural⟩
            | succ count =>
                simpa [hstructural] using ih (by simp [hstructural]) (by simp [hstructural]; omega)
  exact hpop count s.frames [] hcount henough

end Stack

namespace ParseSetting

variable {g : Grammar} {policy : ConflictPolicy} {setting : ParseSetting} {old : Option ReuseCursor}
  {v v' : Version} {s : Stack}

theorem flattened_of_lexes {position : Nat} {mode : LexMode} (hlex : setting.Lexes position mode t) :
    t.Flattened table bases deep ∧ (t.isLeaf = false → t.IsKnown deep) := by
  obtain ⟨id, rfl⟩ := hlex
  exact ⟨Subtree.flattened_of_children_eq_nil rfl, nofun⟩

theorem flattened_of_lexesAll {position : Length} (hlex : setting.LexesAll position trees) :
    ∀ t ∈ trees, t.Flattened table bases deep := by
  induction hlex with
  | nil => exact List.forall_mem_nil _
  | cons position tree rest htree _ ih =>
      exact List.forall_mem_cons.2 ⟨(flattened_of_lexes htree).1, ih⟩

/-! ### Stacks -/

/-- A reduction goes on with a chain or begins one. -/
theorem flattened_interior (hbases : bases.Splits table) {p : ProductionId}
    (hlt : p.toNat < table.productions.size) (hs : table.Has (table.production p).lhs)
    (happlied : ∀ t ∈ trees, Applied table t) (h : ∀ t ∈ trees, t.Flattened table bases deep)
    (hrhs : structuralSymbols trees = (table.production p).rhs.toList)
    (hfirst : trees = [] ∨ ∃ first rest, trees = first :: rest ∧ first.isStructural = true)
    (id number : Nat) (fragile : Bool) :
    (interior table number (table.production p).lhs
      (balanceWhere table bases (·.symbol != (table.production p).lhs) id trees).1 (some p)
      fragile).Flattened table bases deep := by
  obtain ⟨hbalanced, hroles⟩ := applied_balanceWhere hbases.toFitTable
    (·.symbol != (table.production p).lhs) id happlied
  have hnode := applied_interior number fragile hlt hs hbalanced
    ((structuralSymbols_eq_of_map_role hroles).trans hrhs)
  have hflat : ∀ t ∈ (balanceWhere table bases (·.symbol != (table.production p).lhs) id trees).1,
      t.HoldsFlat table deep ∧ (table.IsAuxiliary t.symbol → t.symbol ≠ (table.production p).lhs →
        t.IsFlat deep) :=
    fun t ht => Subtree.flat_of_mem_balanceWhere hbases (fun _ _ hne => bne_iff_ne.2 hne) happlied h ht
  refine ⟨.mk _ ?_ ?_, ?_⟩
  · rw [Subtree.symbol_interior, Subtree.children_interior]
    exact fun _ child hchild => (hflat child hchild).2
  · rw [Subtree.children_interior]
    exact fun child hchild => (hflat child hchild).1
  · intro haux
    rw [Subtree.symbol_interior] at haux ⊢
    by_cases hmem : (table.production p).lhs ∈ (table.production p).rhs.toList
    · obtain ⟨base, hget⟩ := hbases.all p hlt haux hmem
      obtain ⟨_, _, _, _, hsplit⟩ := hbases.get?_eq_some hget
      rcases hfirst with rfl | ⟨first, rest, rfl, hstructural⟩
      · rw [hsplit] at hrhs
        cases hrhs
      · have hsymbol : first.symbol = (table.production p).lhs := by
          rw [structuralSymbols_cons_of_role (s := first.symbol) rest
            (by rw [Subtree.role, hstructural]), hsplit] at hrhs
          exact (List.cons.inj hrhs).1
        have hkept : (balanceWhere table bases (·.symbol != (table.production p).lhs) id
            (first :: rest)).1 = first :: (balanceWhere table bases
              (·.symbol != (table.production p).lhs) id rest).1 := by
          rw [balanceWhere]
          simp [hsymbol]
        have hchildren := (Subtree.children_interior table number (table.production p).lhs _ (some p)
          fragile).trans hkept
        rw [Subtree.chainEnd_of_children hchildren (Subtree.chainBase?_eq_some
          (Subtree.production_interior ..) hget hchildren
          (hsymbol.trans (Subtree.symbol_interior ..).symm) hstructural)]
        have hends := (h first List.mem_cons_self).ends
        rw [Subtree.EndsFlat, hsymbol] at hends
        exact hends haux
    · have hone := Subtree.runLength_eq_one hnode (Subtree.production_interior ..)
        (by rwa [Subtree.symbol_interior]) (by rwa [Subtree.symbol_interior])
      have hle := Subtree.runLength_chainEnd_le bases (interior table number
        (table.production p).lhs (balanceWhere table bases (·.symbol != (table.production p).lhs) id
          trees).1 (some p) fragile)
      rw [hone, Subtree.symbol_interior] at hle
      exact hle.trans (Nat.le_max_left _ _)

theorem CompiledFrom.flattened_reduceStack (h : setting.CompiledFrom g policy)
    (hbases : setting.bases.Splits setting.table) (hpath : s.Path g setting.table) {p : ProductionId}
    (hreduces : s.Reduces setting.table p) (hs : s.Flattened setting.table setting.bases deep)
    (forked : Bool) (id : Nat) :
    (setting.reduceStack forked p id s).1.Flattened setting.table setting.bases deep := by
  obtain ⟨hlt, henough, hchildren, next, hgoto⟩ := hreduces
  obtain ⟨hfrom, _⟩ := Table.compile_eq_ok h.table
  have hlhs := Table.index_lhs_lt h.grammar hfrom hlt
  have hrest : s.popTrailing.2.Flattened setting.table setting.bases deep :=
    hs.of_suffix (List.dropWhile_suffix _)
  have hbelow := hrest.of_suffix (Stack.suffix_popFrames (setting.table.production p).rhs.size _ [])
  have htrailing : ∀ t ∈ s.popTrailing.1, t.Flattened setting.table setting.bases deep := by
    intro t ht
    obtain ⟨frame, hframe, rfl⟩ := s.exists_frame_of_mem_popTrailing ht
    exact (hs frame hframe).1
  have htaken : ∀ t ∈ (s.popTrailing.2.popStructural (setting.table.production p).rhs.size).1,
      t.Flattened setting.table setting.bases deep := by
    intro t ht
    obtain ⟨frame, hframe, rfl⟩ := Stack.exists_frame_of_mem_popStructural ht
    exact (hrest frame hframe).1
  have hrestPath : s.popTrailing.2.Path g setting.table := hpath.of_suffix (List.dropWhile_suffix _)
  have happlied := hrestPath.applied_popStructural (setting.table.production p).rhs.size
  have hfirst : (s.popTrailing.2.popStructural (setting.table.production p).rhs.size).1 = [] ∨
      ∃ first rest, (s.popTrailing.2.popStructural (setting.table.production p).rhs.size).1
        = first :: rest ∧ first.isStructural = true := by
    by_cases hcount : (setting.table.production p).rhs.size = 0
    · left
      rw [hcount, Stack.popStructural, Stack.popFrames]
    · right
      refine Stack.exists_cons_of_popStructural hcount ?_
      rwa [Stack.parts_popTrailing]
  have hnode := flattened_interior hbases hlt (.inr hlhs) happlied htaken hchildren hfirst id
  rw [reduceStack]
  simp only
  rw [hgoto]
  exact Stack.Flattened.pushAll (Stack.Flattened.push hbelow (hnode _ _) next Bool.noConfusion) next
    htrailing

theorem flattened_breakPending (hs : s.Flattened table bases deep) :
    (breakPending table s).2.Flattened table bases deep := by
  have hpushPending : ∀ {pushes : List (StateId × Subtree)} {s : Stack},
      s.Flattened table bases deep → (∀ push ∈ pushes, push.2.IsKnown deep) →
      (pushPending s pushes).Flattened table bases deep := by
    intro pushes
    induction pushes with
    | nil => exact fun hs _ => hs
    | cons push rest ih =>
        intro s hs hknown
        obtain ⟨hpush, hrest⟩ := List.forall_mem_cons.1 hknown
        exact ih (hs.push hpush.flattened push.1 fun _ => hpush) hrest
  fun_induction breakPending table s with
  | case1 => exact hs
  | case2 s top below hframes _ rest _ state =>
      rw [Stack.Flattened, hframes, List.forall_mem_cons] at hs
      exact Stack.Flattened.push (s := rest) hs.2 hs.1.1 _
        fun hpending => absurd hpending Bool.false_ne_true
  | case3 s top below hframes hpending rest pushes hpushes ih =>
      rw [Stack.Flattened, hframes, List.forall_mem_cons] at hs
      refine ih (hpushPending (s := rest) hs.2 fun push hpush => ?_)
      refine (hs.1.2 hpending).child push.2 ?_
      rw [← map_snd_of_childStates? hpushes]
      exact List.mem_map_of_mem hpush
  | case4 => exact hs

theorem flattened_skipVersion (hs : v.stack.Flattened setting.table bases deep)
    {tokens : List Subtree} (htokens : ∀ t ∈ tokens, t.Flattened setting.table bases deep)
    (popped skipped id : Nat) (relexed : Subtree) :
    (setting.skipVersion v tokens popped skipped id relexed).stack.Flattened setting.table bases
      deep := by
  have hresumed : Stack.Flattened setting.table bases deep
      { v.stack with frames := v.stack.frames.drop popped } := hs.of_suffix (List.drop_suffix _ _)
  rw [skipVersion]
  simp only
  split
  · exact hresumed
  · refine hresumed.push (Subtree.flattened_ofSkipped id (List.forall_mem_append.2 ⟨?_, ?_⟩)) _
      fun hpending => absurd hpending Bool.false_ne_true
    · intro t ht
      obtain ⟨frame, hframe, rfl⟩ := List.mem_map.1 (List.mem_reverse.1 ht)
      exact (hs frame (List.mem_of_mem_take hframe)).1.holds
    · exact fun t ht => (htokens t (List.mem_of_mem_take ht)).holds

/-! ### Moves -/

theorem CompiledFrom.flattened_of_moves (h : setting.CompiledFrom g policy)
    (hbases : setting.bases.Splits setting.table)
    (hold : ∀ start ∈ old, ∀ t ∈ start.rest, t.IsKnown deep) (hpath : v.OnPath g setting.table)
    (hv : v.Flattened setting.table setting.bases deep) (hmove : setting.Moves old v v') :
    v'.Flattened setting.table setting.bases deep := by
  cases hmove with
  | lex mode tree hlex =>
      refine ⟨hv.stack, ?_⟩
      rintro _ ⟨⟩
      exact flattened_of_lexes hlex
  | reuse start cursor tree hstart hcursor htree =>
      refine ⟨hv.stack, ?_⟩
      rintro _ ⟨⟩
      have hknown := hcursor.forall_mem (fun _ ht => ht.child) (hold start hstart) tree
        (List.mem_of_mem_head? htree)
      exact ⟨hknown.flattened, fun _ => hknown⟩
  | enter => exact ⟨hv.stack, nofun⟩
  | reduce s p forked id hs haction =>
      exact ⟨h.flattened_reduceStack hbases hpath.stack (h.reduces hpath hs haction) hv.stack forked id,
        hv.lookahead⟩
  | shift lookahead next hlookahead =>
      exact ⟨hv.stack.push (hv.lookahead _ hlookahead).1 _ nofun, nofun⟩
  | shiftExtra lookahead hlookahead =>
      exact ⟨hv.stack.push (hv.lookahead _ hlookahead).1 _ nofun, nofun⟩
  | shiftReused lookahead target next hlookahead hnode =>
      obtain ⟨hflattened, hknown⟩ := hv.lookahead _ hlookahead
      exact ⟨hv.stack.push hflattened _ fun _ => hknown hnode, nofun⟩
  | breakPending => exact ⟨flattened_breakPending hv.stack, hv.lookahead⟩
  | missing s next id =>
      exact ⟨hv.stack.push (Subtree.flattened_of_children_eq_nil rfl) _ nofun, hv.lookahead⟩
  | skip lookahead relexed more popped skipped id mode hlookahead _ hmore hrelexed =>
      refine ⟨flattened_skipVersion hv.stack (List.forall_mem_cons.2
        ⟨(hv.lookahead _ hlookahead).1, flattened_of_lexesAll hmore⟩) popped skipped id relexed, ?_⟩
      rintro _ ⟨⟩
      exact flattened_of_lexes hrelexed
  | skipLookahead lookahead id hlookahead =>
      refine ⟨hv.stack.push (Subtree.flattened_ofSkipped id ?_) _ nofun, nofun⟩
      exact List.forall_mem_singleton.2 (hv.lookahead _ hlookahead).1.holds

theorem CompiledFrom.flattened_of_reached (h : setting.CompiledFrom g policy)
    (hbases : setting.bases.Splits setting.table)
    (hold : ∀ start ∈ old, ∃ root, start = ReuseCursor.ofRoot root ∧ AppliedRoot setting.table root)
    (hknown : ∀ start ∈ old, ∀ t ∈ start.rest, t.IsKnown deep) (hreached : setting.Reached old v) :
    v.Flattened setting.table setting.bases deep := by
  induction hreached with
  | start => exact ⟨nofun, nofun⟩
  | move v v' hv hmove ih =>
      exact h.flattened_of_moves hbases hknown (h.onPath_of_reached hold hv) ih hmove

/-! ### Roots -/

theorem CompiledFrom.holdsFlat_buildRoot (h : setting.CompiledFrom g policy)
    (hbases : setting.bases.Splits setting.table) (happlied : ∀ t ∈ trees, Applied setting.table t)
    (htrees : ∀ t ∈ trees, t.Flattened setting.table setting.bases deep)
    (htail : ∀ t ∈ tail, t.HoldsFlat setting.table deep ∧ t.symbol = Symbol.error) (id : Nat)
    (trailing : Length) :
    (setting.buildRoot id trees tail trailing).1.HoldsFlat setting.table deep := by
  obtain ⟨_, hauxiliary⟩ := h.start
  have hne : ∀ {t : Subtree}, setting.table.IsAuxiliary t.symbol →
      t.symbol ≠ setting.table.startSymbol := fun haux heq => hauxiliary (heq ▸ haux)
  have hbalanced : ∀ t ∈ (balanceWhere setting.table setting.bases (fun _ => true) id trees).1,
      t.HoldsFlat setting.table deep ∧ (setting.table.IsAuxiliary t.symbol → t.IsFlat deep) := by
    intro t ht
    obtain ⟨hholds, hflat⟩ := Subtree.flat_of_mem_balanceWhere hbases
      (s := setting.table.startSymbol) (fun _ _ _ => rfl) happlied htrees ht
    exact ⟨hholds, fun haux => hflat haux (hne haux)⟩
  have hroot : ∀ (id : Nat) (children : List Subtree) (production : Option ProductionId)
      (size : Length), (∀ t ∈ children, t.HoldsFlat setting.table deep ∧
        (setting.table.IsAuxiliary t.symbol → t.IsFlat deep)) →
      ((interior setting.table id setting.table.startSymbol (children ++ tail) production
        false).stretched size).HoldsFlat setting.table deep := by
    intro id children production size hchildren
    have hall : ∀ t ∈ children ++ tail, t.HoldsFlat setting.table deep ∧
        (setting.table.IsAuxiliary t.symbol → t.IsFlat deep) := by
      refine List.forall_mem_append.2 ⟨hchildren, fun t ht => ?_⟩
      obtain ⟨hholds, herror⟩ := htail t ht
      exact ⟨hholds, fun haux => absurd herror haux.ne_error⟩
    refine .mk _ ?_ ?_
    · rw [Subtree.children_stretched, Subtree.children_interior]
      exact fun _ child hchild haux _ => (hall child hchild).2 haux
    · rw [Subtree.children_stretched, Subtree.children_interior]
      exact fun child hchild => (hall child hchild).1
  rw [buildRoot]
  simp only
  generalize (balanceWhere setting.table setting.bases (fun _ => true) id trees).1 = balanced
    at hbalanced ⊢
  cases hsole : soleStart? setting.table.startSymbol balanced with
  | some found =>
      obtain ⟨before, t, after⟩ := found
      obtain ⟨rfl, hstructural, hsymbol⟩ := soleStart?_spec hsole
      obtain ⟨hbefore, hrest⟩ := List.forall_mem_append.1 hbalanced
      obtain ⟨ht, hafter⟩ := List.forall_mem_cons.1 hrest
      refine hroot _ _ _ _ (List.forall_mem_append.2
        ⟨List.forall_mem_append.2 ⟨hbefore, fun child hchild => ?_⟩, hafter⟩)
      have hnoError : t.symbol ≠ Symbol.error := by
        intro herror
        simp [Subtree.isStructural, herror] at hstructural
      exact ⟨ht.1.child child hchild, fun haux =>
        ht.1.flat hnoError child hchild haux (hsymbol ▸ hne haux)⟩
  | none =>
      simp only
      split
      · refine hroot _ _ none _ (List.forall_mem_singleton.2 ⟨holdsFlat_ofSkipped _ fun t ht =>
          (hbalanced t ht).1, fun haux => ?_⟩)
        rw [Subtree.symbol_ofSkipped] at haux
        exact absurd rfl haux.ne_error
      · exact hroot _ _ none _ hbalanced

theorem CompiledFrom.holdsFlat_of_ends (h : setting.CompiledFrom g policy)
    (hbases : setting.bases.Splits setting.table)
    (hold : ∀ start ∈ old, ∃ root, start = ReuseCursor.ofRoot root ∧ AppliedRoot setting.table root)
    (hknown : ∀ start ∈ old, ∀ t ∈ start.rest, t.IsKnown deep) {tree : Tree}
    (hends : setting.Ends old tree) : tree.root.HoldsFlat setting.table deep := by
  have hstack : ∀ v, setting.Reached old v → (∀ t ∈ v.stack.trees, Applied setting.table t) ∧
      ∀ t ∈ v.stack.trees, t.Flattened setting.table setting.bases deep := by
    intro v hv
    constructor
    · intro t ht
      obtain ⟨frame, hframe, rfl⟩ := List.mem_map.1 (List.mem_reverse.1 ht)
      exact (h.onPath_of_reached hold hv).stack.applied frame hframe
    · intro t ht
      obtain ⟨frame, hframe, rfl⟩ := List.mem_map.1 (List.mem_reverse.1 ht)
      exact ((h.flattened_of_reached hbases hold hknown hv).stack frame hframe).1
  cases hends with
  | accepted v a id hreached haccepted =>
      obtain ⟨happlied, hflattened⟩ := hstack v hreached
      rw [← haccepted.trees] at happlied hflattened
      exact h.holdsFlat_buildRoot hbases happlied hflattened
        (fun _ ht => absurd ht List.not_mem_nil) id a.trailing
  | stopped v id status hreached =>
      obtain ⟨happlied, hflattened⟩ := hstack v hreached
      refine h.holdsFlat_buildRoot hbases happlied hflattened ?_ (id + 1) Length.zero
      intro t ht
      rw [remainder] at ht
      split at ht
      · rw [List.mem_singleton.1 ht]
        exact ⟨Subtree.holdsFlat_of_isLeaf rfl, rfl⟩
      · cases ht
  | nothing id =>
      exact h.holdsFlat_buildRoot hbases (fun _ ht => absurd ht List.not_mem_nil)
        (fun _ ht => absurd ht List.not_mem_nil) (fun _ ht => absurd ht List.not_mem_nil) id _

end ParseSetting

theorem Subtree.HoldsFlat.of_mem_nodesAt (h : t.HoldsFlat table deep) {place : Length} {q : Placed}
    (hq : q ∈ nodesAt place t) : q.subtree.HoldsFlat table deep :=
  forall_mem_nodesAt (fun _ ht => ht.child) place t h q hq

/-! ### Parsers -/

variable {d : GrammarDef} {policy : ConflictPolicy} {l : Language} {scanner : Option ExternalScanner}
  {number : Nat} {p : Parser} {old : Option Tree}

/-- Wherever a repetition begins in the tree of a parse, outside of skipped text, its runs are flat over
the longest run that the old tree had of it. Without an old tree they are flat over nothing. -/
theorem Parser.isFlatOver_parse (hl : Language.load d policy = .ok l)
    (hfit : l.table.EntriesFit) (hapart : l.table.ExtrasApart)
    (hp : p.language = { l with scanner := scanner, id := number })
    (hbases : p.bases = RepetitionBases.ofTable l.table)
    (hold : ∀ tree ∈ old, tree.language.isSame p.language = true → tree.Made p.language)
    (text : ByteArray) (id : Nat) :
    (p.parse text old id).tree.IsFlatOver fun s =>
      old.elim 0 fun tree => deepestRun s tree.root := by
  obtain ⟨g, hg, hcompiled⟩ := Language.exists_compiledFrom_of_load hl
  obtain ⟨hfrom, _⟩ := Table.compile_eq_ok hcompiled.table
  have hsetting := Parser.setting_compiledFrom_of_load hl hfit hapart hp hbases hg text
  have htable := Parser.table_setting hp text
  have hcursor := Parser.appliedRoot_cursor?_of_made hl hfit hapart hp hold
  have hknown : ∀ start ∈ p.cursor? old, ∀ t ∈ start.rest,
      t.IsKnown fun s => old.elim 0 fun tree => deepestRun s tree.root := by
    refine Parser.forall_cursor? fun tree htree _ => List.forall_mem_singleton.2 fun s => ?_
    cases htree
    exact Nat.le_refl _
  rw [← htable] at hcursor hfrom
  have hholds := hsetting.holdsFlat_of_ends (hsetting.fitTable.splits hfrom hg) hcursor hknown
    (p.ends_parse text old id)
  obtain ⟨hlanguage, _⟩ := hsetting.appliedRoot_of_ends hcursor (p.ends_parse text old id)
  intro q hq hne t ht haux hbegins
  rw [hlanguage] at haux
  exact (hholds.of_mem_nodesAt hq).flat hne t ht haux hbegins

/-- Another token is put behind one, and the list that was parsed is taken over. -/
theorem isFlatOver_repeatedToken : ∃ l, Language.load .repeatedToken .strict = .ok l ∧
    let p := Parser.ofLanguage { l with scanner := none, id := 1 }
    let change := InputEdit.replace "xx".toUTF8 2 2 "x".toUTF8
    let edited := ((p.parse "xx".toUTF8 none 0).tree.edit change 8).1
    (p.parse (change.applyTo "xx".toUTF8 "x".toUTF8) (some edited) 16).tree.IsFlatOver fun s =>
      deepestRun s edited.root := by
  obtain ⟨l, hl, htable⟩ :=
    Language.exists_load load_repeatedToken compile_repeatedToken (by decide +kernel)
  have hapart : Table.repeatedToken.ExtrasApart := by
    have hall : ∀ p ∈ Table.repeatedToken.productions, ∀ s ∈ p.rhs,
        (Table.repeatedToken.symbolInfo s).extra = false := by
      decide +kernel
    exact hall
  refine ⟨l, hl, Parser.isFlatOver_parse hl (htable ▸ entriesFit_repeatedToken) (htable ▸ hapart) rfl
    rfl ?_ _ 16⟩
  intro tree htree _
  cases htree
  exact .edit _ _ 8 (.parse _ _ none 0 rfl rfl nofun)

end IncrementalLR
