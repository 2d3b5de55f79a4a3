import IncrementalLR.Proofs.Parse.Precedence
import IncrementalLR.Proofs.Parse.Reparse
import IncrementalLR.Proofs.Table.Stored
import IncrementalLR.Proofs.Tree.Digest

/-!
# What nodes say of what is in them

Every node keeps, of the nodes in it, whether there are errors among them, the first one without children,
what they weigh together and how far the text was looked at for the leaves. All of it was taken from the
children when the node was made, and a parse and its edits keep nodes or make others in the same way. Only
how far leaves look is kept from the end of the children on. So it is right where nodes are as long as
their children, which a root is not that has something behind them. A parse makes no other such nodes,
but it can take over an old root whole.
-/

namespace IncrementalLR

open Subtree (interior stretched ofToken ofMissing ofSkipped flattenError totalAll nodesAt nodesAmong
  Throughout Inherited exactWeight exactWeightAll)

/-- The subtree and all subtrees in it, at their places. -/
def Placed.nodes (q : Placed) : List Placed := nodesAt q.offset q.subtree

/-- What the productions of these nodes weigh together. -/
def Placed.weight (table : Table) (q : Placed) : Int :=
  (q.nodes.map fun r => (table.weight r.subtree.head.production).toInt).sum

/-- What the subtree keeps is right for the nodes in it. -/
structure Placed.Summarizes (table : Table) (q : Placed) : Prop where
  hasError : q.subtree.flags.hasError = true ↔ ∃ r ∈ q.nodes, r.subtree.IsErroneous
  /-- the first one without children, be it a leaf or an empty node -/
  firstLeaf : ∃ r, q.nodes.find? (·.subtree.children.isEmpty) = some r ∧
    q.subtree.head.firstLeaf = (r.subtree.symbol, r.subtree.head.lexMode)
  /-- the sum, if it has 32 bits -/
  weight : -2 ^ 31 ≤ q.weight table → q.weight table < 2 ^ 31 →
    q.subtree.head.dynamicPrecedence.toInt = q.weight table
  /-- how far the text was looked at, where nodes are as long as their children -/
  reach : leavesOf q.nodes ≠ [] → (∀ r ∈ q.nodes, r.subtree.IsFlush) →
    IsGreatest {n | ∃ leaf ∈ leavesOf q.nodes, leaf.reach = n} q.reach

/-- Skipped text is not right under skipped text, but for leaves. -/
def Subtree.IsUnnested (t : Subtree) : Prop :=
  t.symbol = Symbol.error → ∀ child ∈ t.children, child.symbol = Symbol.error → child.isLeaf = true

/-- The subtree has lengths of texts and is as long as its children. -/
structure Subtree.IsTight (t : Subtree) : Prop where
  padding : t.padding.IsMeasured
  size : t.size.IsMeasured
  flush : t.IsFlush

/-- Rules have symbols of their own, none of which is that of skipped text. -/
structure Table.KeepsErrorApart (t : Table) : Prop where
  start : t.startSymbol ≠ Symbol.error
  lhs : ∀ p, (t.production p).lhs ≠ Symbol.error

/-- Where languages come from: a definition is loaded, or a table is read. A table that is read could have
so many symbols that one of them gets the number of skipped text; such tables are left out. -/
inductive Language.IsObtained (l : Language) : Prop
  | load {d : GrammarDef} {policy : ConflictPolicy} (h : Language.load d policy = .ok l) : IsObtained l
  | ofBytes {bytes : List UInt8} (h : Language.ofBytes bytes = .ok l)
      (hsize : l.table.symbols.size ≤ Symbol.error.index) : IsObtained l

/-- The tree was made by parses with a language and by edits of any kind. What the parses could take over
whole had nothing behind its children. -/
inductive Tree.MadeFlush (l : Language) : Tree → Prop
  | parse (p : Parser) (text : ByteArray) (old : Option Tree) (id : Nat) (hp : p.language = l)
      (hbases : p.bases = RepetitionBases.ofTable l.table)
      (hold : ∀ tree ∈ old, tree.language.isSame l = true → MadeFlush l tree)
      (hends : ∀ tree ∈ old, tree.language.isSame l = true → tree.EndsWithChildren l.table) :
      MadeFlush l (p.parse text old id).tree
  | edit (tree : Tree) (change : InputEdit) (id : Nat) (h : MadeFlush l tree) :
      MadeFlush l (tree.edit change id).1

variable {table : Table} {bases : RepetitionBases} {fits : Symbol → ProductionId → Prop}
  {t : Subtree} {trees : List Subtree} {s : Symbol}

/-! ### Nodes of what was built -/

namespace Subtree

mutual

theorem exactWeight_eq_sum (table : Table) (place : Length) (t : Subtree) : t.exactWeight table
    = ((nodesAt place t).map fun r => (table.weight r.subtree.head.production).toInt).sum := by
  cases t with
  | mk head children =>
      rw [exactWeight, nodesAt, List.map_cons, List.sum_cons, exactWeightAll_eq_sum table place]
      rfl

/-- What subtrees weigh together is the sum over the nodes in them. -/
theorem exactWeightAll_eq_sum (table : Table) (place : Length) (trees : List Subtree) :
    exactWeightAll table trees
      = ((nodesAmong place trees).map fun r => (table.weight r.subtree.head.production).toInt).sum := by
  cases trees with
  | nil => rfl
  | cons t rest =>
      rw [exactWeightAll, nodesAmong, List.map_append, List.sum_append,
        exactWeight_eq_sum table place t, exactWeightAll_eq_sum table _ rest]

end

theorem Built.summarizes (h : t.Built table fits) (place : Length) :
    Placed.Summarizes table ⟨t, place⟩ where
  hasError := h.throughout_summed.hasError_iff place
  firstLeaf := h.throughout_summed.firstLeaf place
  weight := by
    intro hmin hmax
    have hweight : t.exactWeight table = Placed.weight table ⟨t, place⟩ :=
      exactWeight_eq_sum table place t
    calc t.head.dynamicPrecedence.toInt
        = (Int32.ofInt (t.exactWeight table)).toInt := by rw [h.dynamicPrecedence_eq]
      _ = (Int32.ofInt (Placed.weight table ⟨t, place⟩)).toInt := by rw [hweight]
      _ = Placed.weight table ⟨t, place⟩ := Int32.toInt_ofInt_of_le hmin hmax
  reach hleaves hflush := by
    refine Throughout.isGreatest_reach (throughout_of_forall_mem_nodesAt place t fun r hr => ?_) place
      hleaves
    exact ⟨(forall_mem_nodesAt (fun _ h => h.child) place t h r hr).summed, hflush r hr⟩

/-! ### Lengths -/

theorem isTight_of_isLeaf (hpadding : t.padding.IsMeasured) (hsize : t.size.IsMeasured)
    (hleaf : t.isLeaf = true) : t.IsTight :=
  ⟨hpadding, hsize, fun hnode => absurd (hleaf.symm.trans hnode) (by decide)⟩

/-- A node over subtrees is as long as these. -/
theorem throughout_isTight_interior (id : Nat) (s : Symbol) (production : Option ProductionId)
    (fragile : Bool) (h : ∀ child ∈ trees, child.Throughout IsTight) :
    (interior table id s trees production fragile).Throughout IsTight := by
  have hmeasured : ∀ child ∈ trees, child.padding.IsMeasured ∧ child.size.IsMeasured :=
    fun child hchild => ⟨(h child hchild).self.padding, (h child hchild).self.size⟩
  refine .mk _ ⟨?_, ?_, fun _ => ?_⟩ ?_
  · exact (isMeasured_interior id production fragile hmeasured).1
  · exact (isMeasured_interior id production fragile hmeasured).2
  · rw [children_interior]
    exact total_interior id production fragile hmeasured
  · rw [children_interior]
    exact h

theorem inherited_isTight (table : Table) (bases : RepetitionBases) :
    Inherited table bases (Throughout IsTight) where
  token _ _ hpadding hsize :=
    .mk _ (isTight_of_isLeaf hpadding hsize rfl) (List.forall_mem_nil _)
  missing _ _ _ := .mk _ (isTight_of_isLeaf .zero .zero rfl) (List.forall_mem_nil _)
  child _ h := h.child
  node id _ _ fragile hchildren := throughout_isTight_interior id _ _ fragile hchildren
  skipped id _ htrees :=
    throughout_isTight_interior id _ _ true (forall_mem_flattenError (fun _ h => h.child) htrees)
  rest id _ _ _ _ fragile _ h :=
    throughout_isTight_interior id _ _ fragile (List.forall_mem_cons.1 h.child).2
  joined id s _ _ fragile _ hleft hright :=
    throughout_isTight_interior id s _ fragile (by simpa using ⟨hleft, hright⟩)

/-- A root is like other nodes if there is nothing behind its children. -/
theorem IsRootOf.throughout_isTight {root : Subtree} (h : root.IsRootOf table (Throughout IsTight))
    (htotal : root.total = totalAll root.children) : root.Throughout IsTight := by
  cases h with
  | mk id children production trailing hproduction htrailing hchildren =>
      have hnode : (interior table id table.startSymbol children production false).Throughout
          IsTight := throughout_isTight_interior id _ production false hchildren
      have hbehind : trailing.IsMeasured := by
        rcases htrailing with hmeasured | ⟨t, ht, rfl⟩
        · exact hmeasured
        · exact ht.self.padding
      refine .mk _ ⟨.zero, (hnode.self.padding.add hnode.self.size).add hbehind, fun _ => htotal⟩ ?_
      rw [children_stretched, children_interior]
      exact hchildren

/-! ### Skipped text -/

theorem isLeaf_of_mem_flattenError (h : ∀ t ∈ trees, t.Throughout IsUnnested) {child : Subtree}
    (hchild : child ∈ trees.flatMap flattenError) (herror : child.symbol = Symbol.error) :
    child.isLeaf = true := by
  obtain ⟨t, ht, hchild⟩ := List.mem_flatMap.1 hchild
  rw [flattenError] at hchild
  split at hchild
  · rename_i hskipped
    exact (h t ht).self (beq_iff_eq.1 (Bool.and_eq_true_iff.1 hskipped).1) child hchild herror
  · rename_i hkept
    rw [List.mem_singleton.1 hchild] at herror ⊢
    by_contra hleaf
    simp [herror, hleaf] at hkept

theorem throughout_isUnnested_interior (id : Nat) (production : Option ProductionId) (fragile : Bool)
    (hs : s ≠ Symbol.error) (h : ∀ child ∈ trees, child.Throughout IsUnnested) :
    (interior table id s trees production fragile).Throughout IsUnnested := by
  refine .mk _ (fun herror => ?_) ?_
  · rw [symbol_interior] at herror
    exact absurd herror hs
  · rw [children_interior]
    exact h

theorem inherited_isUnnested (htable : table.KeepsErrorApart) (bases : RepetitionBases) :
    Inherited table bases (Throughout IsUnnested) where
  token _ _ _ _ := .mk _ (fun _ => List.forall_mem_nil _) (List.forall_mem_nil _)
  missing _ _ _ := .mk _ (fun _ => List.forall_mem_nil _) (List.forall_mem_nil _)
  child _ h := h.child
  node id p _ fragile hchildren :=
    throughout_isUnnested_interior id _ fragile (htable.lhs p) hchildren
  skipped id trees htrees := by
    refine .mk _ (fun _ child hchild herror => ?_) ?_
    · rw [ofSkipped, children_interior] at hchild
      exact isLeaf_of_mem_flattenError htrees hchild herror
    · rw [ofSkipped, children_interior]
      exact forall_mem_flattenError (fun _ h => h.child) htrees
  rest id _ _ _ _ fragile hbase h :=
    throughout_isUnnested_interior id _ fragile (ne_error_of_chainBase? hbase)
      (List.forall_mem_cons.1 h.child).2
  joined id _ _ _ fragile hs hleft hright :=
    throughout_isUnnested_interior id _ fragile hs (by simpa using ⟨hleft, hright⟩)

theorem IsRootOf.throughout_isUnnested {root : Subtree} (htable : table.KeepsErrorApart)
    (h : root.IsRootOf table (Throughout IsUnnested)) : root.Throughout IsUnnested := by
  cases h with
  | mk id children production trailing _ _ hchildren =>
      have hnode : (interior table id table.startSymbol children production false).Throughout
          IsUnnested := throughout_isUnnested_interior id production false htable.start hchildren
      exact .mk _ hnode.self hnode.child

end Subtree

/-! ### Old trees -/

/-- What is under the root is as long as its children or was changed. If the root was not, it is so but
for what it has behind its children. -/
structure Tree.IsTight (table : Table) (tree : Tree) : Prop where
  root : tree.root.flags.hasChanges = false →
    tree.root.IsRootOf table (Throughout Subtree.IsTight)
  children : ∀ t ∈ tree.root.children, t.AgedFrom (Throughout Subtree.IsTight)

theorem Tree.IsTight.offers {tree : Tree} (h : tree.IsTight table)
    (hends : tree.EndsWithChildren table) :
    (ReuseCursor.ofRoot tree.root).Offers table (Throughout Subtree.IsTight) := by
  intro cursor t state hcursor ht haccepts
  have hflag := (ParseSetting.intact_of_accepts haccepts).1
  -- of all that can be taken over, only the old root can have something behind its children
  rcases hcursor.eq_root_or_forall_mem (fun _ h => h.child fun _ h => h.child) h.children with
    hrest | hall
  · rw [hrest] at ht
    obtain rfl : tree.root = t := Option.some.inj ht
    exact (h.root hflag).throughout_isTight (hends state haccepts)
  · exact (hall t (List.mem_of_mem_head? ht)).of_unchanged hflag

/-- Only what is behind the children of the root can keep it from being as long as they are. -/
theorem Parser.isRootOf_isTight {p : Parser} {old : Option Tree}
    (hbases : p.bases = RepetitionBases.ofTable p.language.table)
    (hold : ∀ tree ∈ old, tree.language.isSame p.language = true →
      tree.IsTight p.language.table ∧ tree.EndsWithChildren p.language.table)
    (text : ByteArray) (id : Nat) :
    (p.parse text old id).tree.root.IsRootOf p.language.table (Throughout Subtree.IsTight) := by
  refine Parser.isRootOf_parse (Subtree.inherited_isTight _ _) rfl hbases ?_ text id
  refine Parser.forall_cursor? fun tree htree hsame => ?_
  obtain ⟨htight, hends⟩ := hold tree htree hsame
  exact htight.offers hends

theorem Tree.MadeFlush.isTight {l : Language} {tree : Tree} (h : tree.MadeFlush l) :
    tree.IsTight l.table := by
  induction h with
  | parse p text old id hp hbases _ hends ih =>
      subst hp
      have hroot := Parser.isRootOf_isTight hbases
        (fun tree htree hsame => ⟨ih tree htree hsame, hends tree htree hsame⟩) text id
      exact ⟨fun _ => hroot, fun t ht => .kept t (hroot.child t ht)⟩
  | edit tree change id _ ih =>
      have hchanged : (tree.edit change id).1.root.flags.hasChanges = true :=
        Subtree.hasChanges_edit (RelativeEdit.ofInput change) id tree.root
      refine ⟨fun hflag => absurd (hchanged.symm.trans hflag) (by decide), ?_⟩
      exact Subtree.agedFrom_children_edit (fun _ h => h.child) (RelativeEdit.ofInput change) id
        tree.root ih.children

/-! ### Tables -/

theorem Table.keepsErrorApart_of_lt (hsize : table.symbols.size ≤ Symbol.error.index)
    (hstart : table.startSymbol.index < table.symbols.size)
    (hlhs : ∀ info ∈ table.productions, info.lhs.index < table.symbols.size) :
    table.KeepsErrorApart := by
  refine ⟨Symbol.ne_error_of_index_lt (Nat.lt_of_lt_of_le hstart hsize), fun p => ?_⟩
  rw [Table.production, Array.getD_eq_getD_getElem?]
  cases hinfo : table.productions[p.toNat]? with
  | none => decide
  | some info =>
      have hlt := hlhs info (Array.mem_of_getElem? hinfo)
      exact Symbol.ne_error_of_index_lt (Nat.lt_of_lt_of_le hlt hsize)

variable {l : Language}

theorem Language.keepsErrorApart_of_load {d : GrammarDef} {policy : ConflictPolicy}
    (h : Language.load d policy = .ok l) : l.table.KeepsErrorApart := by
  obtain ⟨g, _, hcompiled⟩ := Language.exists_compiledFrom_of_load h
  obtain ⟨hfrom, _⟩ := Table.compile_eq_ok hcompiled.table
  have hg := hcompiled.grammar
  refine Table.keepsErrorApart_of_lt ?_ ?_ fun info hinfo => ?_
  · rw [hfrom.symbols]
    exact hg.size
  · rw [hfrom.startSymbol, hfrom.symbols]
    exact (hg.nextSymbol?_usable (nextSymbol?_start hg).1).2.2
  · rw [hfrom.productions] at hinfo
    obtain ⟨production, hproduction, rfl⟩ := Array.mem_map.1 hinfo
    rw [hfrom.symbols]
    exact (hg.lhs production hproduction).2

theorem Language.keepsErrorApart_of_ofBytes {bytes : List UInt8}
    (h : Language.ofBytes bytes = .ok l) (hsize : l.table.symbols.size ≤ Symbol.error.index) :
    l.table.KeepsErrorApart := by
  obtain ⟨t, ht, h⟩ := exists_of_bind_eq_ok h
  obtain ⟨lexer, _, h⟩ := exists_of_bind_eq_ok h
  cases h
  obtain ⟨hfits, _⟩ := Table.fits_of_decode (eq_ok_of_mapError ht)
  exact Table.keepsErrorApart_of_lt hsize hfits.startSymbol
    fun info hinfo => (hfits.productions.2 info hinfo).lhs

theorem Language.IsObtained.keepsErrorApart (h : l.IsObtained) : l.table.KeepsErrorApart := by
  cases h with
  | load h => exact keepsErrorApart_of_load h
  | ofBytes h hsize => exact keepsErrorApart_of_ofBytes h hsize

/-! ### Parsers -/

variable {scanner : Option ExternalScanner} {number : Nat} {p : Parser} {old : Option Tree}

/-- What every node of the tree of a parse keeps is right for the nodes in it, where these are as long as
their children. All under the root are if no old root was taken over that was not. -/
theorem Parser.summarizes_parse (hp : p.language = { l with scanner := scanner, id := number })
    (hbases : p.bases = RepetitionBases.ofTable l.table)
    (hold : ∀ tree ∈ old, tree.language.isSame p.language = true → tree.Made p.language)
    (text : ByteArray) (id : Nat) :
    let root := (p.parse text old id).tree.root
    (∀ q ∈ nodesAt Length.zero root, q.Summarizes l.table) ∧
      (l.IsObtained → ∀ q ∈ nodesAt Length.zero root, q.subtree.IsUnnested) ∧
      ((∀ tree ∈ old, tree.language.isSame p.language = true →
          tree.MadeFlush p.language ∧ tree.EndsWithChildren l.table) →
        ∀ q ∈ nodesAmong Length.zero root.children, q.subtree.IsFlush) := by
  intro root
  have htable : p.language.table = l.table := by rw [hp]
  rw [← htable] at hbases ⊢
  refine ⟨fun q hq => ?_, fun hl q hq => ?_, fun hflush => ?_⟩
  · have hbuilt := Parser.built_parse (p.language.productionsFit_of_forall fun _ _ => trivial) rfl
      hbases hold text id
    exact (Subtree.forall_mem_nodesAt (fun _ h => h.child) Length.zero root hbuilt q hq).summarizes
      q.offset
  · have hapart : p.language.table.KeepsErrorApart := by
      rw [htable]
      exact hl.keepsErrorApart
    have hroot := Parser.inherited_parse (Subtree.inherited_isUnnested hapart _)
      (fun _ h => h.throughout_isUnnested hapart) rfl hbases hold text id
    exact (Subtree.forall_mem_nodesAt (fun _ h => h.child) Length.zero root hroot q hq).self
  · have hroot := Parser.isRootOf_isTight hbases
      (fun tree htree hsame => (hflush tree htree hsame).imp_left Tree.MadeFlush.isTight) text id
    intro q hq
    exact (Subtree.forall_mem_nodesAmong (fun _ h => h.child) Length.zero root.children hroot.child q
      hq).self.flush

/-- An edited text is parsed with the tree of the text before, and all lengths are those of children. -/
theorem summarizes_parse_optionalToken :
    ∃ l, Language.load .optionalToken .strict = .ok l ∧
      let p := Parser.ofLanguage { l with scanner := none, id := 1 }
      let away := InputEdit.replace "x".toUTF8 0 1 "y".toUTF8
      let edited := ((p.parse "x".toUTF8 none 0).tree.edit away 8).1
      let root := (p.parse (away.applyTo "x".toUTF8 "y".toUTF8) (some edited) 16).tree.root
      (∀ q ∈ nodesAt Length.zero root, q.Summarizes l.table) ∧
        (∀ q ∈ nodesAt Length.zero root, q.subtree.IsUnnested) ∧
        ∀ q ∈ nodesAmong Length.zero root.children, q.subtree.IsFlush := by
  obtain ⟨l, hl, _⟩ := exists_load_optionalToken
  refine ⟨l, hl, ?_⟩
  intro p away edited root
  have hold : ∀ tree ∈ some edited, tree.language.isSame p.language = true →
      tree.Made p.language := by
    intro tree htree _
    cases htree
    exact .edit _ _ 8 (.parse _ _ none 0 rfl rfl nofun)
  obtain ⟨hsummarizes, hunnested, hflush⟩ := Parser.summarizes_parse (l := l) rfl rfl hold
    (away.applyTo "x".toUTF8 "y".toUTF8) 16
  refine ⟨hsummarizes, hunnested (.load hl), hflush ?_⟩
  intro tree htree _
  cases htree
  exact ⟨.edit _ _ 8 (.parse _ _ none 0 rfl rfl nofun nofun), Tree.endsWithChildren_edit _ _ _ _⟩

end IncrementalLR
