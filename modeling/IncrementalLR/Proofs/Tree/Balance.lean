import IncrementalLR.Proofs.Grammar.Repetition
import IncrementalLR.Proofs.Tree.Digest
import IncrementalLR.Proofs.Tree.Leaves
import Mathlib.Data.Nat.Log

/-!
# Balancing repetitions

A link of a chain may be split into its first child and a node over the rest, since the production of
the rest weighs and labels what the one of the link does. Neighbours may be joined by a node without a
production. In either case lists of hidden nodes of one symbol stay alike: they begin alike, add up to
the same digest and show the same subtrees. Level by level, joining halves the number of parts.
-/

namespace IncrementalLR

/-- The symbol is the left-hand side of the production. -/
def Table.HasLhs (t : Table) (s : Symbol) (p : ProductionId) : Prop := (t.production p).lhs = s

/-- Why chains may be rebuilt: the production of a rest has the weight, the labels and the left-hand side
of the whole one and is no link itself, and repetitions are hidden and no roots. -/
structure RepetitionBases.Balance (bases : RepetitionBases) (table : Table) : Prop where
  weight : bases.KeepWeight table
  fields : ∀ p base, bases.get? p = some base →
    table.fieldsOf (some p) = none :: table.fieldsOf (some base)
  lhs : ∀ p base, bases.get? p = some base → (table.production base).lhs = (table.production p).lhs
  rest : ∀ p base, bases.get? p = some base → bases.get? base = none
  hidden : ∀ p base, bases.get? p = some base →
    (table.symbolInfo (table.production p).lhs).visible = false
  start : ∀ p base, bases.get? p = some base → (table.production p).lhs ≠ table.startSymbol

/-- Behind the symbol of a repetition its production has the labels of the rest, which does not have the
symbol again. -/
theorem RepetitionBases.FitTable.rest_spec {bases : RepetitionBases} {table : Table} {g : Grammar}
    {d : GrammarDef} (hbases : bases.FitTable table) (hfrom : table.CompiledFrom g)
    (hg : Grammar.load d = .ok g) {p base : ProductionId} (hget : bases.get? p = some base) :
    table.fieldsOf (some p) = none :: table.fieldsOf (some base) ∧
      (table.production p).lhs ∉ (table.production base).rhs.toList := by
  obtain ⟨production, rest, hproduction, hrest, hkind, hlhs, hrhs⟩ :=
    hbases.exists_productions hfrom hget
  have hsame := Grammar.repeatsAlike_of_load hg production (Array.mem_of_getElem? hproduction) rest
    (Array.mem_of_getElem? hrest) hkind hlhs hrhs
  simpa [Table.fieldsOf, hfrom.production_eq hproduction, hfrom.production_eq hrest,
    Compile.productionInfo, Production.rhs] using hsame

theorem RepetitionBases.FitTable.balance {bases : RepetitionBases} {table : Table} {g : Grammar}
    {d : GrammarDef} (hbases : bases.FitTable table) (hfrom : table.CompiledFrom g)
    (hg : Grammar.load d = .ok g) : bases.Balance table := by
  refine ⟨hbases.keepWeight hfrom (Grammar.repeatsEvenly_of_load hg), fun p base hget =>
    (hbases.rest_spec hfrom hg hget).1, fun p base hget => (hbases.get?_eq_some hget).2.2.1, ?_, ?_, ?_⟩
  · intro p base hget
    refine Option.eq_none_iff_forall_ne_some.2 fun base' hget' => ?_
    obtain ⟨_, _, hlhs, _⟩ := hbases.get?_eq_some hget
    obtain ⟨_, _, _, _, hrhs⟩ := hbases.get?_eq_some hget'
    refine (hbases.rest_spec hfrom hg hget).2 ?_
    rw [hrhs, hlhs]
    exact List.mem_cons_self
  · intro p base hget
    have haux := (hbases.get?_eq_some hget).2.2.2.1.kind
    rw [Table.symbolInfo, hfrom.symbols] at haux ⊢
    exact Grammar.visible_of_isAuxiliary hg haux
  · intro p base hget hstart
    refine Table.not_isAuxiliary_startSymbol (Grammar.load_wellFormed hg) hfrom ?_
    rw [← hstart]
    exact (hbases.get?_eq_some hget).2.2.2.1

theorem RepetitionBases.Balance.keep {bases : RepetitionBases} {table : Table}
    (h : bases.Balance table) : bases.Keep table.HasLhs :=
  fun _ p base hget hfits => (h.lhs p base hget).trans hfits

namespace Subtree

/-! ### Chains -/

/-- The last node of a chain, which is no link. -/
def chainEnd (bases : RepetitionBases) : Subtree → Subtree
  | mk head [] => mk head []
  | mk head (first :: rest) =>
    match chainBase? bases (mk head (first :: rest)) with
    | none => mk head (first :: rest)
    | some _ => chainEnd bases first

/-- The number of links of a chain. -/
def links (bases : RepetitionBases) : Subtree → Nat
  | mk _ [] => 0
  | mk head (first :: rest) =>
    match chainBase? bases (mk head (first :: rest)) with
    | none => 0
    | some _ => links bases first + 1

mutual

/-- How deep the nodes of a repetition nest: a link goes on in its first child, and a node that joins
parts in all of its children. -/
def nesting (bases : RepetitionBases) : Subtree → Nat
  | mk _ [] => 1
  | mk head (first :: rest) =>
    match head.production with
    | none => max (nesting bases first) (nestingAll bases rest) + 1
    | some _ =>
      if (chainBase? bases (mk head (first :: rest))).isSome then nesting bases first + 1 else 1

def nestingAll (bases : RepetitionBases) : List Subtree → Nat
  | [] => 0
  | t :: rest => max (nesting bases t) (nestingAll bases rest)

end

/-- What a node begins with. -/
def front (t : Subtree) : Length × (Symbol × LexMode) × LexMode :=
  (t.padding, t.head.firstLeaf, t.head.lexMode)

/-- Two lists of nodes of a repetition can not be told apart from above. -/
structure Alike (table : Table) (trees others : List Subtree) : Prop where
  front : trees.head?.map front = others.head?.map front
  digest : digestAll trees = digestAll others
  visible : ∀ inherited offset, visibleAmong table inherited [] offset trees
    = visibleAmong table inherited [] offset others

/-- A node of a repetition as a parse makes it. -/
structure IsPart (table : Table) (s : Symbol) (t : Subtree) : Prop where
  built : t.Built table table.HasLhs
  symbol : t.symbol = s

variable {table : Table} {bases : RepetitionBases} {t : Subtree} {trees others more rest : List Subtree}
  {s : Symbol} {inherited : Option FieldId} {offset : Length}

/-! ### What is visible -/

theorem Built.isVisible_eq {fits : Symbol → ProductionId → Prop} (h : t.Built table fits) :
    t.isVisible = (table.symbolInfo t.symbol).visible := by
  cases h with
  | token => rfl
  | missing => rfl
  | node id s children => cases children <;> rfl
  | root id children => cases children <;> rfl

theorem visibleUnder_interior (id : Nat) (s : Symbol) (children : List Subtree)
    (production : Option ProductionId) (fragile : Bool) :
    visibleUnder table inherited offset (interior table id s children production fragile)
      = visibleAmong table inherited (table.fieldsOf production) offset children := by
  cases children <;> rfl

/-- A hidden subtree that has no label shows what is under it. -/
theorem visibleAmong_cons_hidden (h : t.isVisible = false) :
    visibleAmong table inherited [] offset (t :: rest)
      = visibleUnder table inherited offset t
        ++ visibleAmong table inherited [] (offset + t.total) rest := by
  rw [visibleAmong]
  simp [h]

theorem visibleAmong_append (a b : List Subtree) :
    visibleAmong table inherited [] offset (a ++ b)
      = visibleAmong table inherited [] offset a
        ++ visibleAmong table inherited [] (offset + totalAll a) b := by
  induction a generalizing offset with
  | nil => simp [visibleAmong, totalAll]
  | cons t a ih =>
      rw [List.cons_append, visibleAmong, visibleAmong]
      simp only [List.tail_nil, ite_self, ih, totalAll, Length.add_assoc, List.append_assoc]

/-! ### Lists that are alike -/

namespace Alike

theorem refl (table : Table) (trees : List Subtree) : Alike table trees trees :=
  ⟨rfl, rfl, fun _ _ => rfl⟩

theorem trans (h : Alike table trees others) (h' : Alike table others more) :
    Alike table trees more :=
  ⟨h.front.trans h'.front, h.digest.trans h'.digest,
    fun inherited offset => (h.visible inherited offset).trans (h'.visible inherited offset)⟩

theorem append {c d : List Subtree} (h : Alike table trees others) (h' : Alike table c d) :
    Alike table (trees ++ c) (others ++ d) := by
  have htotal : totalAll trees = totalAll others := by
    rw [← length_digestAll, h.digest, length_digestAll]
  refine ⟨?_, ?_, fun inherited offset => ?_⟩
  · have hfront := h.front
    cases trees with
    | nil =>
        cases others with
        | nil => exact h'.front
        | cons => cases hfront
    | cons =>
        cases others with
        | nil => cases hfront
        | cons => exact hfront
  · rw [digestAll_append, digestAll_append, h.digest, h'.digest]
  · rw [visibleAmong_append, visibleAmong_append, h.visible, h'.visible, htotal]

end Alike

theorem IsPart.isVisible (h : IsPart table s t) (hs : (table.symbolInfo s).visible = false) :
    t.isVisible = false := by
  rw [h.built.isVisible_eq, h.symbol, hs]

theorem isStructural_of_chainBase? {head : Head} {first : Subtree} {base : ProductionId}
    (h : chainBase? bases (mk head (first :: rest)) = some base) : first.isStructural = true := by
  obtain ⟨_, _, h⟩ := Option.bind_eq_some_iff.1 h
  obtain ⟨_, _, h⟩ := Option.bind_eq_some_iff.1 h
  obtain ⟨first', hfirst, h⟩ := Option.bind_eq_some_iff.1 h
  obtain rfl : first = first' := Option.some.inj hfirst
  simp only [Option.ite_none_right_eq_some, Bool.and_eq_true] at h
  exact h.1.2

/-- The links of a chain are hidden and no skipped text. -/
theorem hidden_of_chainBase? (hbases : bases.Balance table) (h : t.Built table table.HasLhs)
    {base : ProductionId} (hbase : chainBase? bases t = some base) :
    (table.symbolInfo t.symbol).visible = false ∧ t.symbol ≠ Symbol.error := by
  obtain ⟨head, _ | ⟨first, rest⟩⟩ := t
  · obtain ⟨_, _, hbase⟩ := Option.bind_eq_some_iff.1 hbase
    obtain ⟨_, _, hbase⟩ := Option.bind_eq_some_iff.1 hbase
    cases hbase
  · obtain ⟨p, hproduction, hget, _, hne⟩ := Plain.symbol_of_chainBase? rfl hbase
    have hlhs : (table.production p).lhs = _ := h.fits_of_production p hproduction
    exact ⟨hlhs ▸ hbases.hidden p base hget, hne⟩

/-- A node without a production may stand in the place of the nodes of a repetition that it joins. -/
theorem alike_joined (hs : (table.symbolInfo s).visible = false) (hne : s ≠ Symbol.error) (id : Nat)
    (fragile : Bool) {left right : Subtree} (hleft : IsPart table s left)
    (hright : IsPart table s right) :
    IsPart table s (interior table id s [left, right] none fragile) ∧
      Alike table [interior table id s [left, right] none fragile] [left, right] := by
  have hchildren : ∀ child ∈ [left, right], child.Built table table.HasLhs := by
    simpa using ⟨hleft.built, hright.built⟩
  have hpart : IsPart table s (interior table id s [left, right] none fragile) :=
    ⟨.plain id s fragile hchildren, symbol_interior ..⟩
  refine ⟨hpart, rfl, ?_, fun inherited offset => ?_⟩
  · rw [digestAll_singleton, digest_interior id hne none fragile fun child hchild =>
      (hchildren child hchild).isMeasured, ← weight_digestAll]
    have hzero : table.weight none + (digestAll [left, right]).weight
        = (digestAll [left, right]).weight := Int32.zero_add _
    rw [hzero]
  · rw [visibleAmong_cons_hidden (hpart.isVisible hs), visibleUnder_interior]
    exact List.append_nil _

/-- A link is a node over its first child and the rest. -/
theorem exists_eq_interior_of_chainBase? (hbases : bases.Balance table) {head : Head}
    {first : Subtree} {base : ProductionId} (h : (mk head (first :: rest)).Built table table.HasLhs)
    (hbase : chainBase? bases (mk head (first :: rest)) = some base) :
    ∃ p id fragile, bases.get? p = some base ∧ (table.production p).lhs = head.symbol ∧
      mk head (first :: rest) = interior table id head.symbol (first :: rest) (some p) fragile := by
  obtain ⟨p, hproduction, hget, _⟩ := Plain.symbol_of_chainBase? rfl hbase
  have hlhs : (table.production p).lhs = head.symbol := h.fits_of_production p hproduction
  refine ⟨p, head.id, head.flags.fragile, hget, hlhs, ?_⟩
  generalize ht : mk head (first :: rest) = t at h
  have hhead : t.head = head := by rw [← ht]; rfl
  have hchildren : t.children = first :: rest := by rw [← ht]; rfl
  cases h with
  | token => cases hchildren
  | missing => cases hchildren
  | node id s children production fragile =>
      rw [children_interior] at hchildren
      subst hchildren
      obtain rfl : production = some p := by
        rw [← production_interior table id s (first :: rest) production fragile, hhead]
        exact hproduction
      rw [← hhead]
      rfl
  | root id children production =>
      refine absurd ?_ (hbases.start p base hget)
      rw [hlhs, ← hhead]
      exact symbol_interior ..

/-- A link of a chain may be split into its first child and the rest. -/
theorem alike_split (hbases : bases.Balance table) {head : Head} {first : Subtree}
    {base : ProductionId} (h : (mk head (first :: rest)).Built table table.HasLhs)
    (hbase : chainBase? bases (mk head (first :: rest)) = some base) (id : Nat) (fragile : Bool) :
    IsPart table head.symbol first ∧
      IsPart table head.symbol (interior table id head.symbol rest (some base) fragile) ∧
      Alike table [first, interior table id head.symbol rest (some base) fragile]
        [mk head (first :: rest)] := by
  obtain ⟨_, _, _, hsymbol, hne⟩ := Plain.symbol_of_chainBase? rfl hbase
  have hne : head.symbol ≠ Symbol.error := hne
  have hstructural := isStructural_of_chainBase? hbase
  obtain ⟨p, id', fragile', hget, hlhs, heq⟩ := exists_eq_interior_of_chainBase? hbases h hbase
  obtain ⟨hfirst, hrest⟩ := List.forall_mem_cons.1 h.child
  have hhidden : (table.symbolInfo head.symbol).visible = false := hlhs ▸ hbases.hidden p base hget
  have hbasefits : ∀ q ∈ some base, table.HasLhs head.symbol q := by
    rintro _ ⟨⟩
    exact (hbases.lhs p base hget).trans hlhs
  have hfirstPart : IsPart table head.symbol first := ⟨hfirst, hsymbol⟩
  have hpart : IsPart table head.symbol (interior table id head.symbol rest (some base) fragile) :=
    ⟨.node id _ rest _ fragile hbasefits hrest, symbol_interior ..⟩
  have ht : IsPart table head.symbol (mk head (first :: rest)) := ⟨h, rfl⟩
  refine ⟨hfirstPart, hpart, ?_, ?_, fun inherited offset => ?_⟩
  · rw [heq]
    rfl
  · have hmeasured : ∀ child ∈ first :: rest, child.padding.IsMeasured ∧ child.size.IsMeasured :=
      fun child hchild => (h.child child hchild).isMeasured
    rw [digestAll, digestAll_singleton, digestAll_singleton, heq,
      digest_interior id' hne (some p) fragile' hmeasured,
      digest_interior id hne (some base) fragile (List.forall_mem_cons.1 hmeasured).2,
      hbases.weight p base hget]
    ext1
    · rfl
    · rfl
    · rfl
    · rfl
    · rw [weightAll_cons]
      change first.head.dynamicPrecedence + (table.weight (some base) + weightAll rest) = _
      ac_rfl
  · have hlink : visibleUnder table inherited offset (mk head (first :: rest))
        = visibleUnder table inherited offset first ++ visibleAmong table inherited
          (table.fieldsOf (some base)) (offset + first.total) rest := by
      rw [heq, visibleUnder_interior, hbases.fields p base hget, visibleAmong]
      simp [hstructural, hfirstPart.isVisible hhidden]
    rw [visibleAmong_cons_hidden (ht.isVisible hhidden),
      visibleAmong_cons_hidden (hfirstPart.isVisible hhidden),
      visibleAmong_cons_hidden (hpart.isVisible hhidden), visibleUnder_interior, hlink,
      List.append_assoc]
    rfl

/-! ### Taking apart and joining -/

theorem chainEnd_of_chainBase? (h : chainBase? bases t = none) : chainEnd bases t = t := by
  obtain ⟨head, _ | ⟨first, rest⟩⟩ := t
  · rfl
  · simp only [chainEnd, h]

/-- Taking a chain apart gives its last node and one part for each link. -/
theorem unchain_spec (hbases : bases.Balance table) (id : Nat) {parts : List Subtree}
    (h : IsPart table s t) (hparts : ∀ part ∈ parts, IsPart table s part) :
    (∀ part ∈ (unchain table bases id parts t).1, IsPart table s part) ∧
      Alike table (unchain table bases id parts t).1 (t :: parts) := by
  fun_induction unchain table bases id parts t with
  | case1 id parts head => exact ⟨List.forall_mem_cons.2 ⟨h, hparts⟩, .refl table _⟩
  | case2 id parts head first rest _ => exact ⟨List.forall_mem_cons.2 ⟨h, hparts⟩, .refl table _⟩
  | case3 id parts head first rest base hbase part ih =>
      obtain ⟨hbuilt, rfl⟩ := h
      obtain ⟨hfirst, hpart, halike⟩ := alike_split hbases hbuilt hbase id head.flags.fragile
      obtain ⟨hall, hrest⟩ := ih hfirst (List.forall_mem_cons.2 ⟨hpart, hparts⟩)
      exact ⟨hall, hrest.trans (halike.append (.refl table parts))⟩

theorem joinPairs_spec (hs : (table.symbolInfo s).visible = false) (hne : s ≠ Symbol.error) (id : Nat)
    (h : ∀ t ∈ trees, IsPart table s t) :
    (∀ t ∈ (joinPairs table s id trees).1, IsPart table s t) ∧
      Alike table (joinPairs table s id trees).1 trees := by
  fun_induction joinPairs table s id trees with
  | case1 id left right rest node joined next heq ih =>
      rw [heq] at ih
      obtain ⟨hleft, h⟩ := List.forall_mem_cons.1 h
      obtain ⟨hright, hrest⟩ := List.forall_mem_cons.1 h
      obtain ⟨hnode, halike⟩ := alike_joined hs hne id (left.flags.fragile || right.flags.fragile)
        hleft hright
      obtain ⟨hall, hjoined⟩ := ih hrest
      exact ⟨List.forall_mem_cons.2 ⟨hnode, hall⟩, halike.append hjoined⟩
  | case2 => exact ⟨h, .refl table _⟩
  | case3 => exact ⟨h, .refl table _⟩

theorem joinBalanced_spec (hs : (table.symbolInfo s).visible = false) (hne : s ≠ Symbol.error)
    (id : Nat) (hfirst : IsPart table s t) (hrest : ∀ t ∈ rest, IsPart table s t) :
    IsPart table s (joinBalanced table s id t rest).1 ∧
      Alike table [(joinBalanced table s id t rest).1] (t :: rest) := by
  fun_induction joinBalanced table s id t rest with
  | case1 id first => exact ⟨hfirst, .refl table _⟩
  | case2 id first second rest node ih =>
      obtain ⟨hsecond, hrest⟩ := List.forall_mem_cons.1 hrest
      obtain ⟨hnode, halike⟩ := alike_joined hs hne id
        (first.flags.fragile || second.flags.fragile) hfirst hsecond
      obtain ⟨hall, hjoined⟩ := joinPairs_spec hs hne (id + 1) hrest
      obtain ⟨hresult, hbalanced⟩ := ih hnode hall
      exact ⟨hresult, hbalanced.trans (halike.append hjoined)⟩

/-! ### Nesting -/

theorem one_le_nesting (bases : RepetitionBases) (t : Subtree) : 1 ≤ nesting bases t := by
  obtain ⟨head, _ | ⟨first, rest⟩⟩ := t
  · exact Nat.le_refl 1
  · rw [nesting]
    split
    · exact Nat.le_add_left _ _
    · split
      · exact Nat.le_add_left _ _
      · exact Nat.le_refl 1

/-- The rest of a link is no link. -/
theorem nesting_rest (hbases : bases.Balance table) {p base : ProductionId}
    (hget : bases.get? p = some base) (id : Nat) (fragile : Bool) :
    nesting bases (interior table id s rest (some base) fragile) = 1 := by
  have hproduction := production_interior table id s rest (some base) fragile
  have hchildren := children_interior table id s rest (some base) fragile
  generalize interior table id s rest (some base) fragile = part at hproduction hchildren
  obtain ⟨head, _ | ⟨first, others⟩⟩ := part
  · rfl
  · have hhead : head.production = some base := hproduction
    have hnone : chainBase? bases (mk head (first :: others)) = none := by
      rw [chainBase?]
      simp [Subtree.head, hhead, hbases.rest p base hget]
    rw [nesting, hhead, hnone]
    rfl

theorem nesting_unchain_le (hbases : bases.Balance table) (id : Nat) {parts : List Subtree} {m : Nat}
    (ht : nesting bases (chainEnd bases t) ≤ m) (hparts : ∀ part ∈ parts, nesting bases part ≤ m) :
    (∀ part ∈ (unchain table bases id parts t).1, nesting bases part ≤ m) ∧
      (unchain table bases id parts t).1.length = links bases t + 1 + parts.length := by
  fun_induction unchain table bases id parts t with
  | case1 id parts head =>
      refine ⟨List.forall_mem_cons.2 ⟨ht, hparts⟩, ?_⟩
      rw [List.length_cons, links]
      omega
  | case2 id parts head first rest hnone =>
      simp only [chainEnd, hnone] at ht
      simp only [links, hnone]
      refine ⟨List.forall_mem_cons.2 ⟨ht, hparts⟩, ?_⟩
      rw [List.length_cons]
      omega
  | case3 id parts head first rest base hbase part ih =>
      obtain ⟨p, _, hget, _⟩ := Plain.symbol_of_chainBase? rfl hbase
      simp only [chainEnd, hbase] at ht
      simp only [links, hbase]
      have hpart : nesting bases part = 1 := nesting_rest hbases hget id head.flags.fragile
      obtain ⟨hall, hlength⟩ := ih ht (List.forall_mem_cons.2
        ⟨hpart ▸ Nat.le_trans (one_le_nesting bases _) ht, hparts⟩)
      refine ⟨hall, hlength.trans ?_⟩
      rw [List.length_cons]
      omega

theorem nesting_joined (id : Nat) (fragile : Bool) (left right : Subtree) :
    nesting bases (interior table id s [left, right] none fragile)
      = max (nesting bases left) (nesting bases right) + 1 := by
  have hproduction := production_interior table id s [left, right] none fragile
  have hchildren := children_interior table id s [left, right] none fragile
  generalize interior table id s [left, right] none fragile = node at hproduction hchildren
  obtain ⟨head, children⟩ := node
  have hhead : head.production = none := hproduction
  obtain rfl : children = [left, right] := hchildren
  simp [nesting, nestingAll, hhead]

/-- Whatever grows by one at most where two parts are joined grows by one at most on a level. -/
theorem measure_joinPairs_le {measure : Subtree → Nat}
    (hjoin : ∀ id fragile left right, measure (interior table id s [left, right] none fragile)
      ≤ max (measure left) (measure right) + 1)
    (id : Nat) {m : Nat} (h : ∀ t ∈ trees, measure t ≤ m) :
    ∀ t ∈ (joinPairs table s id trees).1, measure t ≤ m + 1 := by
  fun_induction joinPairs table s id trees with
  | case1 id left right rest node joined next heq ih =>
      rw [heq] at ih
      obtain ⟨hleft, h⟩ := List.forall_mem_cons.1 h
      obtain ⟨hright, hrest⟩ := List.forall_mem_cons.1 h
      refine List.forall_mem_cons.2 ⟨?_, ih hrest⟩
      have hnode : measure node ≤ _ := hjoin id _ left right
      omega
  | case2 id single => exact fun t ht => Nat.le_succ_of_le (h t ht)
  | case3 => exact List.forall_mem_nil _

/-- Every level halves the number of parts. -/
theorem measure_joinBalanced_le (table : Table) (s : Symbol) (measure : Subtree → Nat)
    (hjoin : ∀ id fragile left right, measure (interior table id s [left, right] none fragile)
      ≤ max (measure left) (measure right) + 1)
    (id : Nat) {m : Nat} (hfirst : measure t ≤ m) (hrest : ∀ t ∈ rest, measure t ≤ m) :
    measure (joinBalanced table s id t rest).1 ≤ Nat.clog 2 (rest.length + 1) + m := by
  fun_induction joinBalanced table s id t rest generalizing m with
  | case1 => exact Nat.le_trans hfirst (Nat.le_add_left _ _)
  | case2 =>
      rename_i id first second rest node ih
      obtain ⟨hsecond, hrest⟩ := List.forall_mem_cons.1 hrest
      have hnode : measure node ≤ _ := hjoin id _ first second
      have hle := ih (m := m + 1) (by omega) (measure_joinPairs_le hjoin (id + 1) hrest)
      rw [length_joinPairs] at hle
      have hclog := Nat.clog_of_two_le (Nat.le_refl 2)
        (show 2 ≤ (second :: rest).length + 1 by rw [List.length_cons]; omega)
      rw [hclog, List.length_cons]
      have hhalf : (rest.length + 1 + 1 + 2 - 1) / 2 = (rest.length + 1) / 2 + 1 := by omega
      rw [hhalf]
      omega

/-! ### Balancing -/

/-- Two subtrees look the same from outside, apart from the nesting of their hidden nodes. -/
structure LooksLike (table : Table) (t u : Subtree) : Prop where
  symbol : t.symbol = u.symbol
  padding : t.padding = u.padding
  size : t.size = u.size
  lookaheadBytes : t.head.lookaheadBytes = u.head.lookaheadBytes
  firstLeaf : t.head.firstLeaf = u.head.firstLeaf
  lexMode : t.head.lexMode = u.head.lexMode
  hasError : t.flags.hasError = u.flags.hasError
  errorCost : t.head.errorCost = u.head.errorCost
  dynamicPrecedence : t.head.dynamicPrecedence = u.head.dynamicPrecedence
  leaves : t.leaves = u.leaves
  /-- the children that are seen of it, with their places and labels -/
  visible : ∀ inherited offset,
    visibleUnder table inherited offset t = visibleUnder table inherited offset u

theorem LooksLike.refl (table : Table) (t : Subtree) : LooksLike table t t :=
  ⟨rfl, rfl, rfl, rfl, rfl, rfl, rfl, rfl, rfl, rfl, fun _ _ => rfl⟩

theorem looksLike_of_alike (hs : (table.symbolInfo s).visible = false) {u : Subtree}
    (ht : IsPart table s t) (hu : IsPart table s u) (hleaves : t.leaves = u.leaves)
    (h : Alike table [t] [u]) : LooksLike table t u := by
  obtain ⟨hfront, hdigest, hvisible⟩ := h
  rw [digestAll_singleton, digestAll_singleton] at hdigest
  have hfront : front t = front u := Option.some.inj hfront
  simp only [front, Prod.mk.injEq] at hfront
  obtain ⟨hpadding, hleaf, hmode⟩ := hfront
  simp only [digest, Digest.mk.injEq] at hdigest
  obtain ⟨htotal, hreach, hcost, herror, hweight⟩ := hdigest
  refine ⟨ht.symbol.trans hu.symbol.symm, hpadding, ?_, ?_, hleaf, hmode, herror, hcost, hweight,
    hleaves, fun inherited offset => ?_⟩
  · rw [← Length.add_sub_cancel_left t.padding t.size, ← Length.add_sub_cancel_left u.padding u.size,
      ← hpadding]
    rw [total, total, ← hpadding] at htotal
    rw [htotal]
  · rw [htotal] at hreach
    omega
  · have hsame := hvisible inherited offset
    rw [visibleAmong_cons_hidden (ht.isVisible hs), visibleAmong_cons_hidden (hu.isVisible hs)]
      at hsame
    simpa [visibleAmong] using hsame

/-- A balanced chain looks like the chain, and its nodes nest no deeper than the logarithm of the number
of parts, apart from those of its last node. -/
theorem balance_spec (hbases : bases.Balance table) (id : Nat) (h : t.Built table table.HasLhs) :
    LooksLike table (balance table bases id t).1 t ∧
      nesting bases (balance table bases id t).1
        ≤ Nat.clog 2 (links bases t + 1) + nesting bases (chainEnd bases t) := by
  rw [balance]
  cases hbase : chainBase? bases t with
  | none =>
      rw [chainEnd_of_chainBase? hbase]
      exact ⟨.refl table t, Nat.le_add_left _ _⟩
  | some base =>
      obtain ⟨hs, hne⟩ := hidden_of_chainBase? hbases h hbase
      have ht : IsPart table t.symbol t := ⟨h, rfl⟩
      have hnil : ∀ part ∈ ([] : List Subtree), IsPart table t.symbol part :=
        List.forall_mem_nil _
      have hleaves := @leaves_balance table bases id t
      obtain ⟨hall, halike⟩ := unchain_spec hbases id ht hnil
      obtain ⟨hnesting, hlength⟩ :=
        @nesting_unchain_le table bases t hbases id [] _ (Nat.le_refl _) (List.forall_mem_nil _)
      rw [balance, hbase] at hleaves
      simp only at hleaves ⊢
      generalize unchain table bases id [] t = parts at hall halike hnesting hlength hleaves ⊢
      obtain ⟨_ | ⟨first, rest⟩, next⟩ := parts
      · cases hlength.trans (Nat.add_right_comm _ 1 0)
      · obtain ⟨hfirst, hrest⟩ := List.forall_mem_cons.1 hall
        obtain ⟨hfirstNesting, hrestNesting⟩ := List.forall_mem_cons.1 hnesting
        obtain ⟨hresult, hbalanced⟩ := joinBalanced_spec hs hne next hfirst hrest
        refine ⟨looksLike_of_alike hs hresult ht hleaves (hbalanced.trans halike), ?_⟩
        have hle := measure_joinBalanced_le table t.symbol (nesting bases)
          (fun id fragile left right => (nesting_joined id fragile left right).le) next hfirstNesting
          hrestNesting
        have hcount : rest.length + 1 = links bases t + 1 := hlength
        rwa [hcount] at hle

end Subtree

end IncrementalLR
