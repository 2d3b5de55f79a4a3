import IncrementalLR.Proofs.Table.Entries
import IncrementalLR.Proofs.Tree.Spans
import IncrementalLR.Tree.Edit

/-!
# Applied productions

A node with a production was made over the right-hand side of it: the children that count are of its
symbols, in order. A node without one is skipped text or joins two parts of a repetition. Balancing
repetitions, gathering skipped text and edits make no other nodes.
-/

namespace IncrementalLR

/-- The symbol is that of a token, or that of errors. -/
def Table.HasToken (t : Table) (s : Symbol) : Prop :=
  s = Symbol.error ∨ t.isTerminal s = true ∧ s.index < t.symbols.size

/-- The symbol was made for a repetition. -/
structure Table.IsAuxiliary (t : Table) (s : Symbol) : Prop where
  nonterminal : t.isTerminal s = false
  kind : (t.symbolInfo s).kind = .auxiliary

namespace Subtree

/-- The symbols of the subtrees that count towards a right-hand side. -/
def structuralSymbols (trees : List Subtree) : List Symbol :=
  (trees.filter (·.isStructural)).map (·.symbol)

/-- One of the subtrees is or contains skipped text or a missing token. -/
def anyError (trees : List Subtree) : Bool := trees.any (·.flags.hasError)

/-- The node was made over the right-hand side of the production. -/
structure Applies (table : Table) (p : ProductionId) (t : Subtree) : Prop where
  lt : p.toNat < table.productions.size
  symbol : t.symbol = (table.production p).lhs
  children : structuralSymbols t.children = (table.production p).rhs.toList

/-- The node joins two parts of a repetition. -/
structure IsJoined (table : Table) (t : Subtree) : Prop where
  symbol : table.IsAuxiliary t.symbol
  children : t.children.map (·.symbol) = [t.symbol, t.symbol]

/-- The subtree goes on with a repetition of the symbol: it is over the rest of a production that
starts with the symbol itself, or it joins such parts. -/
inductive Continues (table : Table) (s : Symbol) : Subtree → Prop
  | rest (t : Subtree) (p base : ProductionId) (hbase : t.head.production = some base)
      (hlt : p.toNat < table.productions.size) (hlhs : (table.production p).lhs = s)
      (hrhs : (table.production p).rhs.toList = s :: (table.production base).rhs.toList) :
      Continues table s t
  | joined (t : Subtree) (hnone : t.head.production = none) (hne : t.children ≠ [])
      (hchildren : ∀ child ∈ t.children, Continues table s child) : Continues table s t

/-- The node has its production or needs none. -/
def IsMade (table : Table) (t : Subtree) : Prop :=
  match t.head.production with
  | some p => t.Applies table p
  | none => t.symbol = Symbol.error ∨
      t.IsJoined table ∧ ∀ part ∈ t.children.tail, part.Continues table t.symbol

/-- What a leaf says of itself. -/
structure IsLeafOf (table : Table) (t : Subtree) : Prop where
  isLeaf : t.isLeaf = true
  children : t.children = []
  production : t.head.production = none
  symbol : table.HasToken t.symbol
  firstLeaf : t.head.firstLeaf.1 = t.symbol
  extra : t.flags.extra = true → (table.symbolInfo t.symbol).extra = true
  error : t.symbol = Symbol.error → t.flags.hasError = true

/-- What a node says of itself, apart from its production. -/
structure IsNodeOf (table : Table) (t : Subtree) : Prop where
  isLeaf : t.isLeaf = false
  extra : t.flags.extra = false
  symbol : table.Has t.symbol
  firstLeaf : table.Has t.head.firstLeaf.1
  errors : t.flags.hasError = (t.symbol == Symbol.error || anyError t.children)

/-- What a subtree counts as in a node over it. -/
def role (t : Subtree) : Bool × Symbol := (t.isStructural, t.symbol)

end Subtree

open Subtree (nodesAt nodesAmong totalAll ofToken ofMissing interior stretched flattenError ofSkipped
  unchain joinPairs joinBalanced balance balanceWhere chainBase? edit editAmong structuralSymbols
  anyError role Applies IsJoined IsMade IsLeafOf IsNodeOf)

/-- Every node of the subtree has its production or needs none. -/
inductive Applied (table : Table) : Subtree → Prop
  | leaf (t : Subtree) (h : t.IsLeafOf table) : Applied table t
  | node (t : Subtree) (h : t.IsNodeOf table) (hmade : t.IsMade table)
      (hchildren : ∀ child ∈ t.children, Applied table child) : Applied table t

variable {table : Table} {t : Subtree} {trees : List Subtree} {s : Symbol}

/-! ### What counts -/

theorem structuralSymbols_eq_of_map_role {others : List Subtree}
    (h : trees.map role = others.map role) : structuralSymbols trees = structuralSymbols others := by
  have hroles : ∀ trees : List Subtree, structuralSymbols trees
      = ((trees.map role).filter (·.1)).map (·.2) := by
    intro trees
    rw [List.filter_map, List.map_map]
    rfl
  rw [hroles, hroles, h]

theorem structuralSymbols_append (a b : List Subtree) :
    structuralSymbols (a ++ b) = structuralSymbols a ++ structuralSymbols b := by
  rw [structuralSymbols, List.filter_append, List.map_append]
  rfl

theorem structuralSymbols_eq_nil (h : ∀ t ∈ trees, t.isStructural = false) :
    structuralSymbols trees = [] := by
  have hnone : trees.filter (·.isStructural) = [] :=
    List.filter_eq_nil_iff.2 fun t ht => by simp [h t ht]
  rw [structuralSymbols, hnone]
  rfl

theorem structuralSymbols_cons_of_role (rest : List Subtree) (h : t.role = (true, s)) :
    structuralSymbols (t :: rest) = s :: structuralSymbols rest := by
  obtain ⟨hstructural, hsymbol⟩ := Prod.mk.inj h
  rw [structuralSymbols, List.filter_cons_of_pos hstructural, List.map_cons, hsymbol]
  rfl

/-! ### Leaves and nodes -/

theorem Table.HasToken.has (h : table.HasToken s) : table.Has s := h.imp_right And.right

theorem Applied.has (h : Applied table t) : table.Has t.symbol := by
  cases h with
  | leaf _ h => exact h.symbol.has
  | node _ h => exact h.symbol

theorem Applied.has_firstLeaf (h : Applied table t) : table.Has t.head.firstLeaf.1 := by
  cases h with
  | leaf _ h =>
      rw [h.firstLeaf]
      exact h.symbol.has
  | node _ h => exact h.firstLeaf

theorem Applied.hasError (h : Applied table t) (hsymbol : t.symbol = Symbol.error) :
    t.flags.hasError = true := by
  cases h with
  | leaf _ h => exact h.error hsymbol
  | node _ h =>
      rw [h.errors, hsymbol]
      rfl

/-- A node without errors is no skipped text and has children without errors. -/
theorem Subtree.IsNodeOf.of_hasError_eq_false (h : t.IsNodeOf table)
    (hok : t.flags.hasError = false) :
    t.symbol ≠ Symbol.error ∧ ∀ child ∈ t.children, child.flags.hasError = false := by
  rw [h.errors, Bool.or_eq_false_iff, anyError, List.any_eq_false] at hok
  exact ⟨ne_of_beq_false hok.1, fun child hchild => Bool.eq_false_iff.2 (hok.2 child hchild)⟩

theorem Applied.child (h : Applied table t) : ∀ child ∈ t.children, Applied table child := by
  cases h with
  | leaf _ h =>
      rw [h.children]
      exact nofun
  | node _ _ _ hchildren => exact hchildren

/-- Only leaves of extra tokens and skipped text do not count. -/
theorem Applied.of_not_structural (h : Applied table t) (hstructural : t.isStructural = false) :
    t.symbol = Symbol.error ∨
      t.head.firstLeaf.1 = t.symbol ∧ (table.symbolInfo t.symbol).extra = true := by
  by_cases herror : t.symbol = Symbol.error
  · exact .inl herror
  · have hextra : t.flags.extra = true := by
      simpa [Subtree.isStructural, herror] using hstructural
    cases h with
    | leaf _ h => exact .inr ⟨h.firstLeaf, h.extra hextra⟩
    | node _ h =>
        rw [h.extra] at hextra
        cases hextra

theorem Applied.error_of_node (h : Applied table t) (hleaf : t.isLeaf = false)
    (hstructural : t.isStructural = false) : t.symbol = Symbol.error := by
  cases h with
  | leaf _ h =>
      rw [h.isLeaf] at hleaf
      cases hleaf
  | node _ h => simpa [Subtree.isStructural, h.extra] using hstructural

theorem applied_ofToken (id : Nat) (token : Lexed) (hs : table.HasToken token.symbol) :
    Applied table (ofToken table id token) :=
  .leaf _ ⟨rfl, rfl, rfl, hs, rfl, fun hextra => hextra, fun herror => beq_iff_eq.2 herror⟩

theorem applied_ofMissing (id : Nat) (mode : LexMode) (hs : table.HasToken s) :
    Applied table (ofMissing table id s mode) :=
  .leaf _ ⟨rfl, rfl, rfl, hs, rfl, nofun, fun _ => rfl⟩

theorem Subtree.hasError_interior (table : Table) (id : Nat) (s : Symbol) (children : List Subtree)
    (production : Option ProductionId) (fragile : Bool) :
    (interior table id s children production fragile).flags.hasError
      = (s == Symbol.error || anyError children) := by
  have hfold : ∀ (isError : Bool) (children : List Subtree) (summary : Summary),
      (children.foldl (Summary.add isError) summary).hasError
        = (summary.hasError || anyError children) := by
    intro isError children
    induction children with
    | nil => simp [anyError]
    | cons child children ih =>
        intro summary
        rw [List.foldl_cons, ih, Summary.add, anyError, anyError, List.any_cons, Bool.or_assoc]
  cases children with
  | nil => simp [interior, flags, head, anyError]
  | cons first rest => exact hfold _ (first :: rest) _

@[simp] theorem Subtree.production_interior (table : Table) (id : Nat) (s : Symbol)
    (children : List Subtree) (production : Option ProductionId) (fragile : Bool) :
    (interior table id s children production fragile).head.production = production := by
  cases children <;> rfl

@[simp] theorem Subtree.extra_interior (table : Table) (id : Nat) (s : Symbol)
    (children : List Subtree) (production : Option ProductionId) (fragile : Bool) :
    (interior table id s children production fragile).flags.extra = false := by
  cases children <;> rfl

theorem isNodeOf_interior (id : Nat) (production : Option ProductionId) (fragile : Bool)
    (hs : table.Has s) (hchildren : ∀ child ∈ trees, Applied table child) :
    (interior table id s trees production fragile).IsNodeOf table := by
  refine ⟨Subtree.isLeaf_interior .., Subtree.extra_interior .., ?_, ?_, ?_⟩
  · rw [Subtree.symbol_interior]
    exact hs
  · cases trees with
    | nil => exact hs
    | cons first rest => exact (hchildren first List.mem_cons_self).has_firstLeaf
  · rw [Subtree.symbol_interior, Subtree.children_interior]
    exact Subtree.hasError_interior ..

/-- A node over the right-hand side of a production. -/
theorem applied_interior {p : ProductionId} (id : Nat) (fragile : Bool)
    (hlt : p.toNat < table.productions.size) (hs : table.Has (table.production p).lhs)
    (hchildren : ∀ child ∈ trees, Applied table child)
    (hrhs : structuralSymbols trees = (table.production p).rhs.toList) :
    Applied table (interior table id (table.production p).lhs trees (some p) fragile) := by
  refine .node _ (isNodeOf_interior id _ fragile hs hchildren) ?_ ?_
  · rw [IsMade, Subtree.production_interior]
    refine ⟨hlt, Subtree.symbol_interior .., ?_⟩
    rw [Subtree.children_interior]
    exact hrhs
  · rw [Subtree.children_interior]
    exact hchildren

theorem applied_ofSkipped (id : Nat) (h : ∀ t ∈ trees, Applied table t) :
    Applied table (ofSkipped table id trees) := by
  have hall : ∀ child ∈ trees.flatMap flattenError, Applied table child := by
    intro child hchild
    obtain ⟨t, ht, hchild⟩ := List.mem_flatMap.1 hchild
    rw [flattenError] at hchild
    split at hchild
    · exact (h t ht).child child hchild
    · rw [List.mem_singleton.1 hchild]
      exact h t ht
  refine .node _ (isNodeOf_interior id none true (.inl rfl) hall) ?_ ?_
  · rw [IsMade, ofSkipped, Subtree.production_interior, Subtree.symbol_interior]
    exact .inl rfl
  · rw [ofSkipped, Subtree.children_interior]
    exact hall

@[simp] theorem Subtree.symbol_ofSkipped (table : Table) (id : Nat) (trees : List Subtree) :
    (ofSkipped table id trees).symbol = Symbol.error :=
  Subtree.symbol_interior ..

/-- A node over two parts of a repetition. -/
theorem applied_joined {left right : Subtree} (id : Nat) (fragile : Bool) (hs : table.Has s)
    (hauxiliary : table.IsAuxiliary s) (hleft : Applied table left) (hright : Applied table right)
    (hsymbols : left.symbol = s ∧ right.symbol = s) (hcontinues : right.Continues table s) :
    Applied table (interior table id s [left, right] none fragile) := by
  have hchildren : ∀ child ∈ [left, right], Applied table child := by
    simpa using ⟨hleft, hright⟩
  refine .node _ (isNodeOf_interior id none fragile hs hchildren) ?_ ?_
  · rw [IsMade, Subtree.production_interior]
    refine .inr ⟨⟨?_, ?_⟩, ?_⟩
    · rw [Subtree.symbol_interior]
      exact hauxiliary
    · rw [Subtree.children_interior, Subtree.symbol_interior, List.map_cons, List.map_cons,
        hsymbols.1, hsymbols.2]
      rfl
    · rw [Subtree.children_interior, Subtree.symbol_interior]
      exact List.forall_mem_singleton.2 hcontinues
  · rw [Subtree.children_interior]
    exact hchildren

/-! ### Balancing -/

theorem Table.IsAuxiliary.ne_error (h : table.IsAuxiliary s) : s ≠ Symbol.error := by
  rintro rfl
  cases h.kind

/-- The start symbol is one of the grammar. -/
theorem Table.not_isAuxiliary_startSymbol {g : Grammar} (hg : g.WellFormed)
    (hfrom : table.CompiledFrom g) : ¬ table.IsAuxiliary table.startSymbol := by
  intro hauxiliary
  rw [hfrom.startSymbol] at hauxiliary
  rcases hg.start_kind with hterminal | ⟨info, hinfo, hkind⟩
  · have hnonterminal := hauxiliary.nonterminal
    rw [Table.isTerminal, hfrom.terminalCount] at hnonterminal
    rw [Grammar.isTerminal, hnonterminal] at hterminal
    cases hterminal
  · obtain ⟨hlt, _⟩ := Array.getElem?_eq_some_iff.1 hinfo
    have hkind' := hauxiliary.kind
    rw [Table.symbolInfo, if_neg (Symbol.ne_error_of_index_lt (Nat.lt_of_lt_of_le hlt hg.size)),
      hfrom.symbols, Array.getD_eq_getD_getElem?, hinfo, Option.getD_some, hkind] at hkind'
    cases hkind'

/-- The bases are those of the table, whose productions are few enough for their numbers. -/
structure RepetitionBases.FitTable (bases : RepetitionBases) (table : Table) : Prop where
  eq : bases = RepetitionBases.ofTable table
  size : table.productions.size ≤ 2 ^ 32
  lhs : ∀ p ∈ table.productions, table.isTerminal p.lhs = false

/-- The production of the rest is that without the first symbol. -/
theorem RepetitionBases.FitTable.get?_eq_some {bases : RepetitionBases} (hbases : bases.FitTable table)
    {p base : ProductionId} (h : bases.get? p = some base) :
    p.toNat < table.productions.size ∧ base.toNat < table.productions.size ∧
      (table.production base).lhs = (table.production p).lhs ∧
      table.IsAuxiliary (table.production p).lhs ∧
      (table.production p).rhs.toList
        = (table.production p).lhs :: (table.production base).rhs.toList := by
  rw [hbases.eq, get?, ofTable, Array.getElem?_map] at h
  cases hp : table.productions[p.toNat]? with
  | none =>
      rw [hp] at h
      cases h
  | some info =>
      have hinfo : table.production p = info := by
        rw [Table.production, Array.getD_eq_getD_getElem?, hp]
        rfl
      rw [hp, Option.map_some, Option.join_some, find?] at h
      rw [hinfo]
      split at h
      · cases h
      · rename_i first rest hrhs
        split at h
        · rename_i hfirst
          obtain ⟨hkind, rfl⟩ := hfirst
          obtain ⟨i, hi, rfl⟩ := Option.map_eq_some_iff.1 h
          obtain ⟨hlt, hfound, _⟩ := Array.findIdx?_eq_some_iff_getElem.1 hi
          have hnumber : i.toUInt32.toNat = i :=
            UInt32.toNat_ofNat_of_lt' (Nat.lt_of_lt_of_le hlt hbases.size)
          have hbase : table.production i.toUInt32 = table.productions[i] := by
            rw [Table.production, hnumber, Array.getD_eq_getD_getElem?,
              Array.getElem?_eq_getElem hlt]
            rfl
          obtain ⟨hlhs, hrest⟩ := Bool.and_eq_true_iff.1 hfound
          rw [hnumber, hbase, eq_of_beq hlhs, hrhs, eq_of_beq hrest]
          exact ⟨(Array.getElem?_eq_some_iff.1 hp).1, hlt, rfl,
            ⟨hbases.lhs info (Array.mem_of_getElem? hp), hkind⟩, rfl⟩
        · cases h

/-- A part of a repetition of the symbol. -/
def IsPart (table : Table) (s : Symbol) (t : Subtree) : Prop := Applied table t ∧ t.role = (true, s)

/-- A part of a repetition of the symbol that goes on with it. -/
def IsLink (table : Table) (s : Symbol) (t : Subtree) : Prop :=
  IsPart table s t ∧ t.Continues table s

theorem isPart_node (h : Applied table t) (hleaf : t.isLeaf = false) (hsymbol : t.symbol = s)
    (hs : s ≠ Symbol.error) : IsPart table s t := by
  refine ⟨h, ?_⟩
  have hextra : t.flags.extra = false := by
    cases h with
    | leaf _ h =>
        rw [h.isLeaf] at hleaf
        cases hleaf
    | node _ h => exact h.extra
  rw [role, Subtree.isStructural, hsymbol, hextra]
  simp [hs]

section Balance

variable {bases : RepetitionBases} (hbases : bases.FitTable table)

include hbases

/-- A link of a chain is over its first child and the right-hand side of the rest. -/
theorem chainBase?_spec (h : Applied table t) {base : ProductionId}
    (hbase : chainBase? bases t = some base) :
    table.IsAuxiliary t.symbol ∧ IsPart table t.symbol t ∧
      ∀ first rest, t.children = first :: rest → IsPart table t.symbol first ∧
        ∀ id fragile, IsLink table t.symbol (interior table id t.symbol rest (some base) fragile) := by
  obtain ⟨p, hp, hbase⟩ := Option.bind_eq_some_iff.1 hbase
  obtain ⟨base', hget, hbase⟩ := Option.bind_eq_some_iff.1 hbase
  obtain ⟨first, hfirst, hbase⟩ := Option.bind_eq_some_iff.1 hbase
  split at hbase
  · rename_i hchain
    cases hbase
    obtain ⟨hsymbol, hstructural⟩ := Bool.and_eq_true_iff.1 hchain
    obtain ⟨hltLink, hlt, hlhs, hauxiliary, hrhs⟩ := hbases.get?_eq_some hget
    cases h with
    | leaf _ h =>
        rw [h.production] at hp
        cases hp
    | node _ h hmade hchildren =>
        have hself := Applied.node t h hmade hchildren
        rw [IsMade, hp] at hmade
        rw [← hmade.symbol] at hauxiliary hrhs hlhs
        have hne := hauxiliary.ne_error
        refine ⟨hauxiliary, isPart_node hself h.isLeaf rfl hne, ?_⟩
        intro first' rest hsplit
        rw [hsplit] at hfirst hchildren
        cases hfirst
        have hrole : first.role = (true, t.symbol) := by
          rw [role, hstructural, eq_of_beq hsymbol]
        have hrest : structuralSymbols rest = (table.production base).rhs.toList := by
          have heq := hmade.children
          rw [hsplit, structuralSymbols_cons_of_role rest hrole, hrhs] at heq
          exact (List.cons.inj heq).2
        refine ⟨⟨hchildren first List.mem_cons_self, hrole⟩, ?_⟩
        intro id fragile
        refine ⟨isPart_node ?_ (Subtree.isLeaf_interior ..) (Subtree.symbol_interior ..) hne,
          .rest _ p base (Subtree.production_interior ..) hltLink hmade.symbol.symm hrhs⟩
        rw [← hlhs]
        refine applied_interior id fragile hlt ?_ ?_ hrest
        · rw [hlhs]
          exact h.symbol
        · intro child hchild
          exact hchildren child (List.mem_cons_of_mem first hchild)
  · cases hbase

/-- A chain comes apart into its last node and links. -/
theorem exists_unchain (id : Nat) {parts : List Subtree} (h : IsPart table s t)
    (hparts : ∀ part ∈ parts, IsLink table s part) : ∃ first rest,
    (unchain table bases id parts t).1 = first :: rest ∧ IsPart table s first ∧
      ∀ part ∈ rest, IsLink table s part := by
  fun_induction unchain table bases id parts t with
  | case1 id parts head => exact ⟨_, parts, rfl, h, hparts⟩
  | case2 id parts head first rest _ => exact ⟨_, parts, rfl, h, hparts⟩
  | case3 id parts head first rest base hbase part ih =>
      obtain ⟨_, _, hlinks⟩ := chainBase?_spec hbases h.1 hbase
      obtain ⟨hfirst, hpart⟩ := hlinks first rest rfl
      obtain rfl : (Subtree.mk head (first :: rest)).symbol = s := (Prod.mk.inj h.2).2
      exact ih hfirst (List.forall_mem_cons.2 ⟨hpart id head.flags.fragile, hparts⟩)

end Balance

theorem isPart_joined {left right : Subtree} (id : Nat) (fragile : Bool)
    (hauxiliary : table.IsAuxiliary s) (hleft : IsPart table s left) (hright : IsLink table s right) :
    IsPart table s (interior table id s [left, right] none fragile) := by
  obtain ⟨hright, hcontinues⟩ := hright
  have hsymbols : left.symbol = s ∧ right.symbol = s :=
    ⟨(Prod.mk.inj hleft.2).2, (Prod.mk.inj hright.2).2⟩
  have hs : table.Has s := by
    rw [← hsymbols.1]
    exact hleft.1.has
  exact isPart_node (applied_joined id fragile hs hauxiliary hleft.1 hright.1 hsymbols hcontinues)
    (Subtree.isLeaf_interior ..) (Subtree.symbol_interior ..) hauxiliary.ne_error

theorem isLink_joined {left right : Subtree} (id : Nat) (fragile : Bool)
    (hauxiliary : table.IsAuxiliary s) (hleft : IsLink table s left) (hright : IsLink table s right) :
    IsLink table s (interior table id s [left, right] none fragile) := by
  refine ⟨isPart_joined id fragile hauxiliary hleft.1 hright,
    .joined _ (Subtree.production_interior ..) ?_ ?_⟩
  · rw [Subtree.children_interior]
    exact List.cons_ne_nil _ _
  · rw [Subtree.children_interior]
    exact List.forall_mem_cons.2 ⟨hleft.2, List.forall_mem_singleton.2 hright.2⟩

theorem isLink_joinPairs (id : Nat) (hauxiliary : table.IsAuxiliary s)
    (h : ∀ t ∈ trees, IsLink table s t) :
    ∀ t ∈ (joinPairs table s id trees).1, IsLink table s t := by
  fun_induction joinPairs table s id trees with
  | case1 id left right rest node joined next heq ih =>
      rw [heq] at ih
      obtain ⟨hleft, h⟩ := List.forall_mem_cons.1 h
      obtain ⟨hright, hrest⟩ := List.forall_mem_cons.1 h
      exact List.forall_mem_cons.2 ⟨isLink_joined id _ hauxiliary hleft hright, ih hrest⟩
  | case2 => exact h
  | case3 => exact h

theorem isPart_joinBalanced (id : Nat) (first : Subtree) (rest : List Subtree)
    (hauxiliary : table.IsAuxiliary s) (hfirst : IsPart table s first)
    (hrest : ∀ t ∈ rest, IsLink table s t) :
    IsPart table s (joinBalanced table s id first rest).1 := by
  fun_induction joinBalanced table s id first rest with
  | case1 id first => exact hfirst
  | case2 id first second rest node ih =>
      obtain ⟨hsecond, hrest⟩ := List.forall_mem_cons.1 hrest
      exact ih (isPart_joined id _ hauxiliary hfirst hsecond)
        (isLink_joinPairs (id + 1) hauxiliary hrest)

section Balance

variable {bases : RepetitionBases} (hbases : bases.FitTable table)

include hbases

theorem applied_balance (id : Nat) (h : Applied table t) :
    Applied table (balance table bases id t).1 ∧ (balance table bases id t).1.role = t.role := by
  rw [balance]
  cases hbase : chainBase? bases t with
  | none => exact ⟨h, rfl⟩
  | some base =>
      obtain ⟨hauxiliary, hself, _⟩ := chainBase?_spec hbases h hbase
      obtain ⟨first, rest, hparts, hfirst, hrest⟩ := exists_unchain hbases id hself
        (fun _ hpart => absurd hpart List.not_mem_nil)
      simp only
      cases hunchain : unchain table bases id [] t with
      | mk parts next =>
          obtain rfl : parts = first :: rest := by rw [← hparts, hunchain]
          obtain ⟨happlied, hrole⟩ := isPart_joinBalanced next first rest hauxiliary hfirst hrest
          exact ⟨happlied, hrole.trans hself.2.symm⟩

theorem applied_balanceWhere (condition : Subtree → Bool) (id : Nat)
    (h : ∀ t ∈ trees, Applied table t) :
    (∀ t ∈ (balanceWhere table bases condition id trees).1, Applied table t) ∧
      (balanceWhere table bases condition id trees).1.map role = trees.map role := by
  induction trees generalizing id with
  | nil => exact ⟨nofun, rfl⟩
  | cons t rest ih =>
      obtain ⟨ht, hrest⟩ := List.forall_mem_cons.1 h
      rw [balanceWhere]
      by_cases hcondition : condition t = true
      · rw [if_pos hcondition]
        obtain ⟨hbalanced, hrole⟩ := applied_balance hbases id ht
        obtain ⟨happlied, hroles⟩ := ih (balance table bases id t).2 hrest
        refine ⟨List.forall_mem_cons.2 ⟨hbalanced, happlied⟩, ?_⟩
        rw [List.map_cons, List.map_cons, hrole, hroles]
      · rw [if_neg hcondition]
        obtain ⟨happlied, hroles⟩ := ih id hrest
        refine ⟨List.forall_mem_cons.2 ⟨ht, happlied⟩, ?_⟩
        rw [List.map_cons, List.map_cons, hroles]

end Balance

/-! ### Edits -/

theorem Subtree.mem_editAmong (change : RelativeEdit) (id : Nat) (isFirst : Bool) (left : Length)
    (trees : List Subtree) (h : t ∈ (editAmong change id isFirst left trees).1) :
    t ∈ trees ∨ ∃ child ∈ trees, ∃ change id, t = (edit change id child).1 := by
  induction trees generalizing change id isFirst left with
  | nil => exact .inl h
  | cons child rest ih =>
      have hlater : ∀ {change id isFirst left}, t ∈ (editAmong change id isFirst left rest).1 →
          t ∈ child :: rest ∨ ∃ other ∈ child :: rest, ∃ change id, t = (edit change id other).1 := by
        intro change id isFirst left h
        rcases ih change id isFirst left h with hmem | ⟨other, hother, hedited⟩
        · exact .inl (List.mem_cons_of_mem child hmem)
        · exact .inr ⟨other, List.mem_cons_of_mem child hother, hedited⟩
      rw [editAmong] at h
      simp only at h
      split at h
      · rcases List.mem_cons.1 h with rfl | h
        · exact .inl List.mem_cons_self
        · exact hlater h
      · split at h
        · exact .inl h
        · rcases List.mem_cons.1 h with rfl | h
          · exact .inr ⟨child, List.mem_cons_self, _, _, rfl⟩
          · exact hlater h

theorem Subtree.map_editAmong {α : Type} {f : Subtree → α}
    (hf : ∀ change id t, f (edit change id t).1 = f t) (change : RelativeEdit) (id : Nat)
    (isFirst : Bool) (left : Length) (trees : List Subtree) :
    (editAmong change id isFirst left trees).1.map f = trees.map f := by
  induction trees generalizing change id isFirst left with
  | nil => rfl
  | cons child rest ih =>
      rw [editAmong]
      simp only
      split
      · rw [List.map_cons, ih, List.map_cons]
      · split
        · rfl
        · rw [List.map_cons, ih, hf, List.map_cons]

@[simp] theorem Subtree.role_edit (change : RelativeEdit) (id : Nat) (t : Subtree) :
    (edit change id t).1.role = t.role := by
  cases t
  rfl

theorem Subtree.children_edit (change : RelativeEdit) (id : Nat) (t : Subtree) :
    (edit change id t).1.children = (editAmong change (id + 1) true Length.zero t.children).1 := by
  cases t
  rfl

/-- An edit leaves the right-hand side that a node is over. -/
theorem Subtree.structuralSymbols_children_edit (change : RelativeEdit) (id : Nat) (t : Subtree) :
    structuralSymbols (edit change id t).1.children = structuralSymbols t.children := by
  rw [children_edit]
  exact structuralSymbols_eq_of_map_role (map_editAmong role_edit ..)

@[simp] theorem Subtree.hasError_edit (change : RelativeEdit) (id : Nat) (t : Subtree) :
    (edit change id t).1.flags.hasError = t.flags.hasError := by
  cases t
  rfl

theorem Subtree.anyError_children_edit (change : RelativeEdit) (id : Nat) (t : Subtree) :
    anyError (edit change id t).1.children = anyError t.children := by
  have hmap : ∀ trees : List Subtree, anyError trees = (trees.map (·.flags.hasError)).any (·) := by
    intro trees
    rw [List.any_map]
    rfl
  rw [children_edit, hmap, hmap, map_editAmong hasError_edit]

@[simp] theorem Subtree.production_edit (change : RelativeEdit) (id : Nat) (t : Subtree) :
    (edit change id t).1.head.production = t.head.production := by
  cases t
  rfl

@[simp] theorem Subtree.symbol_edit (change : RelativeEdit) (id : Nat) (t : Subtree) :
    (edit change id t).1.symbol = t.symbol :=
  congrArg Prod.snd (role_edit change id t)

theorem Subtree.mem_tail_editAmong (change : RelativeEdit) (id : Nat) (isFirst : Bool) (left : Length)
    (trees : List Subtree) (h : t ∈ (editAmong change id isFirst left trees).1.tail) :
    t ∈ trees.tail ∨ ∃ child ∈ trees.tail, ∃ change id, t = (edit change id child).1 := by
  cases trees with
  | nil => exact .inl h
  | cons child rest =>
      rw [editAmong] at h
      simp only at h
      split at h
      · exact mem_editAmong _ _ _ _ rest h
      · split at h
        · exact .inl h
        · exact mem_editAmong _ _ _ _ rest h

theorem Subtree.IsNodeOf.edit (h : t.IsNodeOf table) (change : RelativeEdit) (id : Nat) :
    (edit change id t).1.IsNodeOf table := by
  have herrors : t.flags.hasError
      = (t.symbol == Symbol.error || anyError (Subtree.edit change id t).1.children) := by
    rw [anyError_children_edit]
    exact h.errors
  cases t
  exact ⟨h.isLeaf, h.extra, h.symbol, h.firstLeaf, herrors⟩

theorem Subtree.Applies.edit {p : ProductionId} (h : t.Applies table p) (change : RelativeEdit)
    (id : Nat) : (edit change id t).1.Applies table p := by
  refine ⟨h.lt, (symbol_edit change id t).trans h.symbol, ?_⟩
  rw [structuralSymbols_children_edit]
  exact h.children

theorem Subtree.Continues.edit (h : t.Continues table s) (change : RelativeEdit) (id : Nat) :
    (edit change id t).1.Continues table s := by
  induction h generalizing change id with
  | rest t p base hbase hlt hlhs hrhs =>
      exact .rest _ p base ((production_edit change id t).trans hbase) hlt hlhs hrhs
  | joined t hnone hne hchildren ih =>
      have hlength := congrArg List.length (map_editAmong role_edit change (id + 1) true Length.zero
        t.children)
      rw [List.length_map, List.length_map] at hlength
      refine .joined _ ((production_edit change id t).trans hnone) ?_ ?_
      · rw [children_edit]
        exact List.ne_nil_of_length_pos (hlength ▸ List.length_pos_iff.2 hne)
      · intro child hchild
        rw [children_edit] at hchild
        rcases mem_editAmong _ _ _ _ _ hchild with hmem | ⟨other, hother, _, _, rfl⟩
        · exact hchildren child hmem
        · exact ih other hother _ _

theorem Subtree.IsMade.edit (h : t.IsMade table) (change : RelativeEdit) (id : Nat) :
    (edit change id t).1.IsMade table := by
  rw [IsMade, production_edit]
  rw [IsMade] at h
  split at h
  · exact h.edit change id
  · rcases h with herror | ⟨hjoined, hparts⟩
    · exact .inl ((symbol_edit change id t).trans herror)
    · refine .inr ⟨⟨?_, ?_⟩, ?_⟩
      · rw [symbol_edit]
        exact hjoined.symbol
      · rw [children_edit, symbol_edit, ← hjoined.children]
        exact map_editAmong symbol_edit ..
      · intro part hpart
        rw [children_edit] at hpart
        rw [symbol_edit]
        rcases mem_tail_editAmong _ _ _ _ _ hpart with hmem | ⟨other, hother, _, _, rfl⟩
        · exact hparts part hmem
        · exact (hparts other hother).edit _ _

theorem Applied.edit (h : Applied table t) (change : RelativeEdit) (id : Nat) :
    Applied table (edit change id t).1 := by
  induction h generalizing change id with
  | leaf t h =>
      refine .leaf _ ?_
      obtain ⟨head, children⟩ := t
      have hnil : children = [] := h.children
      subst hnil
      exact ⟨h.isLeaf, rfl, h.production, h.symbol, h.firstLeaf, h.extra, h.error⟩
  | node t h hmade hchildren ih =>
      refine .node _ (h.edit change id) (hmade.edit change id) ?_
      intro child hchild
      rw [Subtree.children_edit] at hchild
      rcases Subtree.mem_editAmong _ _ _ _ _ hchild with hmem | ⟨other, hother, _, _, rfl⟩
      · exact hchildren child hmem
      · exact ih other hother _ _

/-! ### Nodes of trees -/

theorem applied_of_mem_nodesAmong (h : ∀ t ∈ trees, Applied table t) {place : Length} {q : Placed}
    (hq : q ∈ nodesAmong place trees) : Applied table q.subtree :=
  Subtree.forall_mem_nodesAmong (fun _ ht => ht.child) place trees h q hq

/-- The root of a tree. Alone among the nodes it may have no production and yet be no skipped text. -/
structure AppliedRoot (table : Table) (t : Subtree) : Prop where
  node : t.IsNodeOf table
  symbol : t.symbol = table.startSymbol
  children : ∀ child ∈ t.children, Applied table child
  production : ∀ p ∈ t.head.production, t.Applies table p
  /-- without a production no token that counts comes first, unless there are errors -/
  firstLeaf : t.head.production = none → t.flags.hasError = false →
    t.head.firstLeaf = (table.startSymbol, LexMode.error) ∨
      (table.symbolInfo t.head.firstLeaf.1).extra = true
  others : t.head.production = none → ∀ child ∈ t.children, child.isStructural = false

/-- A root with a production is a node like others. -/
theorem AppliedRoot.applied (h : AppliedRoot table t) (hproduction : t.head.production ≠ none) :
    Applied table t := by
  refine .node t h.node ?_ h.children
  rw [IsMade]
  split
  · rename_i p hp
    exact h.production p hp
  · exact absurd ‹_› hproduction

theorem AppliedRoot.edit {tree : Tree} (h : AppliedRoot table tree.root) (change : InputEdit)
    (id : Nat) : AppliedRoot table (tree.edit change id).1.root := by
  rw [Tree.edit]
  generalize RelativeEdit.ofInput change = relative
  obtain ⟨root, language, status⟩ := tree
  have hnode := h.node.edit relative id
  have happlies := fun p (hp : p ∈ root.head.production) => (h.production p hp).edit relative id
  have hchildren : ∀ child ∈ (Subtree.edit relative id root).1.children, Applied table child := by
    intro child hchild
    rw [Subtree.children_edit] at hchild
    rcases Subtree.mem_editAmong _ _ _ _ _ hchild with hmem | ⟨other, hother, _, _, rfl⟩
    · exact h.children child hmem
    · exact (h.children other hother).edit _ _
  have hothers : root.head.production = none →
      ∀ child ∈ (Subtree.edit relative id root).1.children, child.isStructural = false := by
    intro hnone child hchild
    rw [Subtree.children_edit] at hchild
    rcases Subtree.mem_editAmong _ _ _ _ _ hchild with hmem | ⟨other, hother, _, _, rfl⟩
    · exact h.others hnone child hmem
    · exact (congrArg Prod.fst (Subtree.role_edit _ _ other)).trans (h.others hnone other hother)
  obtain ⟨head, children⟩ := root
  refine ⟨⟨hnode.isLeaf, hnode.extra, hnode.symbol, hnode.firstLeaf, hnode.errors⟩,
    h.symbol, hchildren, ?_, h.firstLeaf, hothers⟩
  intro p hp
  exact ⟨(happlies p hp).lt, (happlies p hp).symbol, (happlies p hp).children⟩

end IncrementalLR
