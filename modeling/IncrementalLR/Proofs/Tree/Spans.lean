import IncrementalLR.Proofs.Tree.Cover
import IncrementalLR.Tree.Basic

/-!
# Trees that span a text

What it means for a tree to span a text: the root is as long as the text, the leaves stand one behind
the other, every node is as long as its children, and every node starts and ends at places of the
text. A root over subtrees that cover the text spans it.
-/

namespace IncrementalLR

namespace Subtree

mutual

/-- All subtrees of a subtree at a place, each in front of those under it. -/
def nodesAt (place : Length) : Subtree → List Placed
  | mk head children => ⟨mk head children, place⟩ :: nodesAmong place children

def nodesAmong (place : Length) : List Subtree → List Placed
  | [] => []
  | t :: rest => nodesAt place t ++ nodesAmong (place + t.total) rest

end

end Subtree

open Subtree (nodesAt nodesAmong totalAll interior stretched)

/-- The leaves among placed subtrees. -/
def leavesOf (nodes : List Placed) : List Placed := nodes.filter fun p => p.subtree.isLeaf

/-- Each subtree stands where the one in front of it ends, from one place to another. -/
inductive Adjacent : Length → List Placed → Length → Prop
  | nil (place : Length) : Adjacent place [] place
  | cons (p : Placed) (rest : List Placed) (stop : Length) (h : Adjacent p.next rest stop) :
      Adjacent p.offset (p :: rest) stop

/-- The length is the length of the beginning of the text. -/
def Length.IsPlaceIn (place : Length) (text : ByteArray) : Prop :=
  place.bytes ≤ text.size ∧ place = Length.ofBytes (text.extract 0 place.bytes)

structure Tree.Spans (tree : Tree) (text : ByteArray) : Prop where
  symbol : tree.root.symbol = tree.language.table.startSymbol
  padding : tree.root.padding = Length.zero
  size : tree.root.size = Length.ofBytes text
  /-- a node under the root is as long as its children together -/
  totals : ∀ p ∈ nodesAmong Length.zero tree.root.children, p.subtree.isLeaf = false →
    p.subtree.total = totalAll p.subtree.children
  /-- the leaves stand one behind the other; what is left belongs to the root -/
  leaves : ∃ stop trailing, Adjacent Length.zero (leavesOf (nodesAt Length.zero tree.root)) stop ∧
    stop + trailing = tree.root.size
  missing : ∀ p ∈ leavesOf (nodesAt Length.zero tree.root), p.subtree.flags.missing = true →
    p.subtree.total = Length.zero
  places : ∀ p ∈ nodesAt Length.zero tree.root, p.start.IsPlaceIn text ∧ p.stop.IsPlaceIn text

/-- What the root keeps behind the leaves is the padding of the end of input. -/
def Tree.EndsInPadding (tree : Tree) (text : ByteArray) : Prop :=
  ∃ stop mode, Adjacent Length.zero (leavesOf (nodesAt Length.zero tree.root)) stop ∧
    (tree.language.lex text stop.bytes mode).symbol = Symbol.eof ∧
    stop + (tree.language.lex text stop.bytes mode).padding = tree.root.size

variable {table : Table} {t : Subtree} {trees : List Subtree}
  {w : List UInt8}

/-! ### Places -/

theorem Length.ofBytes_extract (text : ByteArray) (start stop : Nat) :
    Length.ofBytes (text.extract start stop)
      = Length.ofList ((text.data.toList.take stop).drop start) := by
  rw [Length.ofBytes, ByteArray.data_extract, Array.toList_extract, List.extract_eq_take_drop,
    List.drop_take]

theorem Length.isPlaceIn_ofList {text : ByteArray} {before : List UInt8} (after : List UInt8)
    (h : text.data.toList = before ++ after) : (Length.ofList before).IsPlaceIn text := by
  have hsize : text.size = before.length + after.length := by
    rw [← List.length_append, ← h]
    rfl
  refine ⟨?_, ?_⟩
  · rw [Length.bytes_ofList]
    omega
  · rw [Length.ofBytes_extract, Length.bytes_ofList, h, List.take_left, List.drop_zero]

/-! ### Nodes of what covers a text -/

theorem Adjacent.append {place stop stop' : Length} {ps qs : List Placed}
    (h : Adjacent place ps stop) (h' : Adjacent stop qs stop') : Adjacent place (ps ++ qs) stop' := by
  induction h with
  | nil place => exact h'
  | cons p rest stop _ ih => exact .cons p (rest ++ qs) stop' (ih h')

theorem nodesAt_eq (place : Length) (t : Subtree) :
    nodesAt place t = ⟨t, place⟩ :: nodesAmong place t.children := by
  cases t
  rfl

theorem nodesAmong_append (place : Length) (a b : List Subtree) :
    nodesAmong place (a ++ b) = nodesAmong place a ++ nodesAmong (place + totalAll a) b := by
  induction a generalizing place with
  | nil => simp [nodesAmong, totalAll]
  | cons t a ih =>
      rw [List.cons_append, nodesAmong, nodesAmong, ih, totalAll, List.append_assoc,
        Length.add_assoc]

theorem exists_of_mem_nodesAmong {place : Length} {trees : List Subtree} {p : Placed}
    (hp : p ∈ nodesAmong place trees) :
    ∃ before child after, trees = before ++ child :: after ∧
      p ∈ nodesAt (place + totalAll before) child := by
  induction trees generalizing place with
  | nil => cases hp
  | cons t rest ih =>
      rcases List.mem_append.1 hp with hp | hp
      · refine ⟨[], t, rest, rfl, ?_⟩
        rw [totalAll, Length.add_zero]
        exact hp
      · obtain ⟨before, child, after, hrest, hp⟩ := ih hp
        refine ⟨t :: before, child, after, by rw [hrest, List.cons_append], ?_⟩
        rw [totalAll, ← Length.add_assoc]
        exact hp

namespace Subtree

mutual

theorem forall_mem_nodesAt {P : Subtree → Prop} (hchild : ∀ t, P t → ∀ child ∈ t.children, P child)
    (place : Length) (t : Subtree) (h : P t) : ∀ q ∈ nodesAt place t, P q.subtree := by
  cases t with
  | mk head children =>
      rw [nodesAt]
      exact List.forall_mem_cons.2 ⟨h, forall_mem_nodesAmong hchild place children (hchild _ h)⟩

/-- What holds of subtrees and goes from nodes to their children holds of all that is in them. -/
theorem forall_mem_nodesAmong {P : Subtree → Prop}
    (hchild : ∀ t, P t → ∀ child ∈ t.children, P child) (place : Length) (trees : List Subtree)
    (h : ∀ t ∈ trees, P t) : ∀ q ∈ nodesAmong place trees, P q.subtree := by
  cases trees with
  | nil => exact List.forall_mem_nil _
  | cons t rest =>
      obtain ⟨ht, hrest⟩ := List.forall_mem_cons.1 h
      rw [nodesAmong]
      exact List.forall_mem_append.2
        ⟨forall_mem_nodesAt hchild place t ht, forall_mem_nodesAmong hchild _ rest hrest⟩

end

/-- The property holds of the subtree and of all subtrees in it. -/
inductive Throughout (P : Subtree → Prop) : Subtree → Prop
  | mk (t : Subtree) (h : P t) (hchildren : ∀ child ∈ t.children, Throughout P child) :
      Throughout P t

theorem Throughout.self {P : Subtree → Prop} {t : Subtree} (h : t.Throughout P) : P t := by
  cases h with
  | mk _ h _ => exact h

theorem Throughout.imp {P Q : Subtree → Prop} {t : Subtree} (h : t.Throughout P)
    (himp : ∀ u, P u → Q u) : t.Throughout Q := by
  induction h with
  | mk t h _ ih => exact .mk t (himp t h) ih

theorem Throughout.child {P : Subtree → Prop} {t : Subtree} (h : t.Throughout P) :
    ∀ child ∈ t.children, child.Throughout P := by
  cases h with
  | mk _ _ hchildren => exact hchildren

mutual

theorem throughout_of_forall_mem_nodesAt {P : Subtree → Prop} (place : Length) (t : Subtree)
    (h : ∀ q ∈ nodesAt place t, P q.subtree) : t.Throughout P := by
  cases t with
  | mk head children =>
      rw [nodesAt] at h
      obtain ⟨hself, hchildren⟩ := List.forall_mem_cons.1 h
      exact .mk _ hself (throughout_of_forall_mem_nodesAmong place children hchildren)

theorem throughout_of_forall_mem_nodesAmong {P : Subtree → Prop} (place : Length)
    (trees : List Subtree) (h : ∀ q ∈ nodesAmong place trees, P q.subtree) :
    ∀ t ∈ trees, t.Throughout P := by
  cases trees with
  | nil => exact List.forall_mem_nil _
  | cons t rest =>
      rw [nodesAmong] at h
      obtain ⟨ht, hrest⟩ := List.forall_mem_append.1 h
      exact List.forall_mem_cons.2 ⟨throughout_of_forall_mem_nodesAt place t ht,
        throughout_of_forall_mem_nodesAmong _ rest hrest⟩

end

theorem throughout_iff_forall_mem_nodesAt {P : Subtree → Prop} {t : Subtree} :
    t.Throughout P ↔ ∀ q ∈ nodesAt Length.zero t, P q.subtree := by
  refine ⟨fun h q hq => Throughout.self (P := P) ?_, throughout_of_forall_mem_nodesAt Length.zero t⟩
  exact forall_mem_nodesAt (P := Throughout P) (fun _ h => h.child) Length.zero t h q hq

instance {P : Subtree → Prop} [DecidablePred P] : DecidablePred (Throughout P) := fun _ =>
  decidable_of_iff _ throughout_iff_forall_mem_nodesAt.symm

/-- What holds of a subtree and goes from nodes to their children holds throughout the subtree. -/
theorem throughout_of_child {P : Subtree → Prop} (hchild : ∀ t, P t → ∀ child ∈ t.children, P child)
    (t : Subtree) (h : P t) : t.Throughout P :=
  throughout_of_forall_mem_nodesAt Length.zero t (forall_mem_nodesAt hchild Length.zero t h)

end Subtree

theorem leavesOf_nodesAt_of_node (place : Length) (hleaf : t.isLeaf = false) :
    leavesOf (nodesAt place t) = leavesOf (nodesAmong place t.children) := by
  rw [nodesAt_eq, leavesOf, List.filter_cons_of_neg (by simp [hleaf])]
  rfl

mutual

/-- The leaves of what covers a text stand one behind the other, from its beginning to its end. -/
theorem Covers.adjacent {t : Subtree} {w : List UInt8}
    (h : Covers table t w) (before : List UInt8) :
    Adjacent (Length.ofList before) (leavesOf (nodesAt (Length.ofList before) t))
      (Length.ofList (before ++ w)) := by
  have hleafCase : t.isLeaf = true → t.children = [] → Adjacent (Length.ofList before)
      (leavesOf (nodesAt (Length.ofList before) t)) (Length.ofList (before ++ w)) := by
    intro hleaf hchildren
    have hstop : (⟨t, Length.ofList before⟩ : Placed).next = Length.ofList (before ++ w) := by
      rw [Placed.next, h.total_eq, Length.ofList_append]
    have hself : leavesOf [⟨t, Length.ofList before⟩] = [⟨t, Length.ofList before⟩] := by
      simp [leavesOf, hleaf]
    rw [nodesAt_eq, hchildren, nodesAmong, hself, ← hstop]
    exact .cons ⟨t, Length.ofList before⟩ [] _ (.nil _)
  match h with
  | .token _ _ _ _ _ _ _ _ => exact hleafCase rfl rfl
  | .missing _ _ _ => exact hleafCase rfl rfl
  | .interior id s children production fragile w hchildren =>
      rw [leavesOf_nodesAt_of_node _ (Subtree.isLeaf_interior ..), Subtree.children_interior]
      exact hchildren.adjacent before
  | .root id s children production fragile w hchildren =>
      rw [leavesOf_nodesAt_of_node _ (by simp), Subtree.children_stretched,
        Subtree.children_interior]
      exact hchildren.adjacent before

theorem CoversAll.adjacent {trees : List Subtree} {w : List UInt8}
    (h : CoversAll table trees w) (before : List UInt8) :
    Adjacent (Length.ofList before) (leavesOf (nodesAmong (Length.ofList before) trees))
      (Length.ofList (before ++ w)) := by
  match h with
  | .nil =>
      rw [List.append_nil]
      exact .nil _
  | .cons t rest u v ht hrest =>
      rw [nodesAmong, leavesOf, List.filter_append, ht.total_eq, ← Length.ofList_append,
        ← List.append_assoc]
      exact (ht.adjacent before).append (hrest.adjacent (before ++ u))

end

mutual

/-- Every node of what covers a text covers a part of it, at the place of that part. -/
theorem Covers.of_mem_nodesAt {t : Subtree} {w : List UInt8} (h : Covers table t w)
    (before : List UInt8) {p : Placed} (hp : p ∈ nodesAt (Length.ofList before) t) :
    ∃ front part, p.offset = Length.ofList front ∧ Covers table p.subtree part ∧
      front ++ part <+: before ++ w := by
  rw [nodesAt_eq] at hp
  rcases List.mem_cons.1 hp with rfl | hp
  · exact ⟨before, w, rfl, h, List.prefix_refl _⟩
  · match h with
    | .token _ _ _ _ _ _ _ _ => cases hp
    | .missing _ _ _ => cases hp
    | .interior id s children production fragile w hchildren =>
        rw [Subtree.children_interior] at hp
        exact hchildren.of_mem_nodesAmong before hp
    | .root id s children production fragile w hchildren =>
        rw [Subtree.children_stretched, Subtree.children_interior] at hp
        exact hchildren.of_mem_nodesAmong before hp

theorem CoversAll.of_mem_nodesAmong {trees : List Subtree} {w : List UInt8}
    (h : CoversAll table trees w) (before : List UInt8) {p : Placed}
    (hp : p ∈ nodesAmong (Length.ofList before) trees) :
    ∃ front part, p.offset = Length.ofList front ∧ Covers table p.subtree part ∧
      front ++ part <+: before ++ w := by
  match h with
  | .nil => cases hp
  | .cons t rest u v ht hrest =>
      rw [nodesAmong, ht.total_eq, ← Length.ofList_append] at hp
      rw [← List.append_assoc]
      rcases List.mem_append.1 hp with hp | hp
      · obtain ⟨front, part, hoffset, hcovers, hinitial⟩ := ht.of_mem_nodesAt before hp
        exact ⟨front, part, hoffset, hcovers, hinitial.trans (List.prefix_append _ _)⟩
      · exact hrest.of_mem_nodesAmong (before ++ u) hp

end

/-- A node at the place of what it covers starts and ends at places of the text. -/
theorem Covers.isPlaceIn {text : ByteArray} {p : Placed} {front part : List UInt8}
    (h : Covers table p.subtree part) (hoffset : p.offset = Length.ofList front)
    (hinitial : front ++ part <+: text.data.toList) :
    p.start.IsPlaceIn text ∧ p.stop.IsPlaceIn text := by
  obtain ⟨padding, size, rfl, hpadding, hsize⟩ := h.exists_eq_append
  obtain ⟨after, htext⟩ := hinitial
  have hstart : p.start = Length.ofList (front ++ padding) := by
    rw [Placed.start, hoffset, hpadding, Length.ofList_append]
  have hstop : p.stop = Length.ofList (front ++ padding ++ size) := by
    rw [Placed.stop, hstart, hsize, ← Length.ofList_append]
  rw [hstop, hstart]
  constructor
  · refine Length.isPlaceIn_ofList (size ++ after) ?_
    rw [← htext]
    simp only [List.append_assoc]
  · refine Length.isPlaceIn_ofList after ?_
    rw [← htext]
    simp only [List.append_assoc]

theorem Covers.total_eq_totalAll_children (h : Covers table t w)
    (hleaf : t.isLeaf = false) : t.total = totalAll t.children := by
  rw [h.total_eq, (h.coversAll_children hleaf).totalAll_eq]

theorem Covers.total_eq_zero_of_missing (h : Covers table t w)
    (hmissing : t.flags.missing = true) : t.total = Length.zero := by
  cases h with
  | token => cases hmissing
  | missing => rfl
  | interior id s children => cases children <;> cases hmissing
  | root id s children => cases children <;> cases hmissing

/-! ### Roots -/

/-- What is as long as a text starts and ends at places of it. -/
theorem Subtree.isPlaceIn_of_size {text : ByteArray} (hpadding : t.padding = Length.zero)
    (hsize : t.size = Length.ofBytes text) :
    (⟨t, Length.zero⟩ : Placed).start.IsPlaceIn text ∧
      (⟨t, Length.zero⟩ : Placed).stop.IsPlaceIn text := by
  have hstart : (⟨t, Length.zero⟩ : Placed).start = Length.ofList [] := by
    rw [Placed.start, hpadding]
    rfl
  have hstop : (⟨t, Length.zero⟩ : Placed).stop = Length.ofList text.data.toList := by
    rw [Placed.stop, hstart, hsize, Length.ofList_nil, Length.zero_add]
    rfl
  rw [hstart, hstop]
  exact ⟨Length.isPlaceIn_ofList _ (List.nil_append _).symm,
    Length.isPlaceIn_ofList _ (List.append_nil _).symm⟩

/-- A root of the start symbol over what covers the beginning of a text, as long as the text. -/
inductive IsRootOver (table : Table) (covered after : List UInt8) : Subtree → Prop
  | mk (id : Nat) (children : List Subtree) (production : Option ProductionId)
      (hchildren : CoversAll table children covered) :
      IsRootOver table covered after ((interior table id table.startSymbol children production
        false).stretched (Length.ofList (covered ++ after)))

theorem IsRootOver.coversAll_children {root : Subtree} {covered after : List UInt8}
    (h : IsRootOver table covered after root) : CoversAll table root.children covered := by
  cases h with
  | mk id children production hchildren => simpa using hchildren

/-- A root that is as long as its children covers the text itself. -/
theorem IsRootOver.covers_of_total {root : Subtree} {covered after : List UInt8}
    (h : IsRootOver table covered after root) (htotal : root.total = totalAll root.children) :
    Covers table root (covered ++ after) := by
  have hlength := congrArg Length.bytes htotal
  rw [h.coversAll_children.totalAll_eq, Length.bytes_ofList] at hlength
  cases h with
  | mk id children production hchildren =>
      have hsize : (Length.zero + Length.ofList (covered ++ after)).bytes = covered.length := hlength
      rw [Length.zero_add, Length.bytes_ofList, List.length_append] at hsize
      have hnil : after = [] := List.length_eq_zero_iff.1 (by omega)
      rw [hnil, List.append_nil]
      exact .root id table.startSymbol children production false covered hchildren

/-- A tree with such a root spans the text, and its leaves end where the root's children end. -/
theorem Tree.spans_of_isRootOver {tree : Tree} {text : ByteArray} {covered after : List UInt8}
    (h : IsRootOver tree.language.table covered after tree.root)
    (htext : text.data.toList = covered ++ after) :
    tree.Spans text ∧ Adjacent Length.zero (leavesOf (nodesAt Length.zero tree.root))
      (Length.ofList covered) := by
  have hchildren := h.coversAll_children
  have hroot : tree.root.symbol = tree.language.table.startSymbol ∧
      tree.root.padding = Length.zero ∧ tree.root.size = Length.ofBytes text ∧
      tree.root.isLeaf = false := by
    rw [Length.ofBytes, htext]
    cases hroot : tree.root with
    | mk head children =>
        rw [hroot] at h
        cases h
        exact ⟨Subtree.symbol_interior .., rfl, rfl, Subtree.isLeaf_interior ..⟩
  obtain ⟨hsymbol, hpadding, hsize, hleaf⟩ := hroot
  have hadjacent : Adjacent Length.zero (leavesOf (nodesAt Length.zero tree.root))
      (Length.ofList covered) := by
    rw [leavesOf_nodesAt_of_node _ hleaf]
    exact hchildren.adjacent []
  have hnodes : ∀ p ∈ nodesAmong Length.zero tree.root.children, ∃ front part,
      p.offset = Length.ofList front ∧ Covers tree.language.table p.subtree part ∧
        front ++ part <+: covered :=
    fun p hp => hchildren.of_mem_nodesAmong [] hp
  have hinitial : covered <+: text.data.toList := by
    rw [htext]
    exact List.prefix_append _ _
  refine ⟨⟨hsymbol, hpadding, hsize, ?_, ?_, ?_, ?_⟩, hadjacent⟩
  · intro p hp hnode
    obtain ⟨front, part, _, hcovers, _⟩ := hnodes p hp
    exact hcovers.total_eq_totalAll_children hnode
  · refine ⟨Length.ofList covered, Length.ofList after, hadjacent, ?_⟩
    rw [← Length.ofList_append, ← htext, hsize]
    rfl
  · intro p hp hflag
    rw [leavesOf_nodesAt_of_node _ hleaf] at hp
    obtain ⟨front, part, _, hcovers, _⟩ := hnodes p (List.mem_filter.1 hp).1
    exact hcovers.total_eq_zero_of_missing hflag
  · intro p hp
    rw [nodesAt_eq] at hp
    rcases List.mem_cons.1 hp with rfl | hp
    · exact Subtree.isPlaceIn_of_size hpadding hsize
    · obtain ⟨front, part, hoffset, hcovers, hpart⟩ := hnodes p hp
      exact hcovers.isPlaceIn hoffset (hpart.trans hinitial)

end IncrementalLR
