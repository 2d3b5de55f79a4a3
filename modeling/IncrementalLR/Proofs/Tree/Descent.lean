import IncrementalLR.Proofs.Tree.Built
import IncrementalLR.Proofs.Tree.Room
import IncrementalLR.Tree.Navigation

/-!
# Descending to a stretch of bytes

A descent never turns back: it goes into the first child that does not end in front of the stretch. In
trees whose nodes contain their children no other child can span a stretch that is not empty, so the
last accepted node on the way down is the smallest one that spans it.
-/

namespace IncrementalLR

open Subtree (nodesAt nodesAmong totalAll visibleUnder visibleAmong descendUnder descendAmong endsBefore)

/-- The subtree starts no later than its first child and is no shorter than its children together, and
so are its children. -/
inductive Subtree.Nested : Subtree → Prop
  | mk (t : Subtree)
      (hpadding : ∀ first ∈ t.children.head?, t.padding.bytes ≤ first.padding.bytes)
      (hbytes : (totalAll t.children).bytes ≤ t.total.bytes)
      (hchildren : ∀ child ∈ t.children, Nested child) : Nested t

/-- The subtree reaches over the bytes from `start` to `stop`. -/
structure Placed.Spans (p : Placed) (start stop : Nat) : Prop where
  start : p.start.bytes ≤ start
  stop : stop ≤ p.stop.bytes

namespace Node

/-- The other node is this one or is reached from it through children. -/
inductive Below (n : Node) : Node → Prop
  | refl : Below n n
  | child (m d : Node) (h : Below n m) (hd : d ∈ m.children) : Below n d

/-- The node is the smallest one that spans a stretch of bytes, of a node and those below it that are
accepted. -/
structure IsSmallest (n : Node) (start stop : Nat) (accept : Subtree.Flags → Bool) (d : Node) :
    Prop where
  below : n.Below d
  accepted : d = n ∨ accept d.subtree.flags = true
  spans : d.startByte ≤ start ∧ stop ≤ d.endByte
  /-- every other one that spans the stretch is above it -/
  least : ∀ m, n.Below m → m = n ∨ accept m.subtree.flags = true → m.startByte ≤ start →
    stop ≤ m.endByte → m.Below d

/-- What a search for the smallest node that spans a stretch has found. -/
structure FindsSmallest (n : Node) (start stop : Nat) (accept : Subtree.Flags → Bool)
    (found : Option Node) : Prop where
  none_iff : found = none ↔ ¬ (n.startByte ≤ start ∧ stop ≤ n.endByte)
  smallest : ∀ d ∈ found, n.IsSmallest start stop accept d

end Node

variable {table : Table} {t : Subtree} {trees : List Subtree} {place : Length} {p : Placed}
  {start stop : Nat} {accept : Subtree.Flags → Bool}

/-! ### Containment -/

theorem Subtree.Nested.child (h : t.Nested) : ∀ child ∈ t.children, child.Nested := by
  cases h with
  | mk _ _ _ hchildren => exact hchildren

theorem Subtree.Nested.roomy (h : t.Nested) : t.Roomy := by
  induction h with
  | mk t _ hbytes _ ih => exact ⟨t, hbytes, ih⟩

theorem Subtree.Built.nested {fits : Symbol → ProductionId → Prop} (h : t.Built table fits) :
    t.Nested := by
  induction h with
  | token => exact ⟨_, fun first hfirst => absurd hfirst (Option.not_mem_none first),
      Nat.zero_le _, List.forall_mem_nil _⟩
  | missing => exact ⟨_, fun first hfirst => absurd hfirst (Option.not_mem_none first),
      Nat.zero_le _, List.forall_mem_nil _⟩
  | node id s children production fragile _ _ ih =>
      refine ⟨_, ?_, ?_, ?_⟩
      · rw [children_interior]
        cases children with
        | nil => exact fun first hfirst => absurd hfirst (Option.not_mem_none first)
        | cons first rest =>
            rintro _ ⟨⟩
            exact Nat.le_refl _
      · rw [children_interior, bytes_total_interior]
      · rw [children_interior]
        exact ih
  | root id children production trailing _ _ _ ih =>
      refine ⟨_, fun _ _ => Nat.zero_le _, ?_, ?_⟩
      · rw [children_stretched, children_interior,
          ← bytes_total_interior table id table.startSymbol children production false]
        exact Nat.le_trans (Nat.le_add_right _ trailing.bytes) (Nat.le_of_eq (Nat.zero_add _).symm)
      · rw [children_stretched, children_interior]
        exact ih

theorem Placed.bytes_stop (p : Placed) : p.stop.bytes = p.next.bytes := Nat.add_assoc _ _ _

/-- Nodes among subtrees start no earlier than these. -/
theorem le_offset_of_mem_nodesAmong (h : p ∈ nodesAmong place trees) :
    place.bytes ≤ p.offset.bytes := by
  obtain ⟨q, _, rfl⟩ := (mem_nodesAmong_iff place).1 h
  exact Nat.le_add_right _ _

/-- What is under a subtree ends inside of it. -/
theorem Subtree.Roomy.next_le (h : t.Roomy) (hp : p ∈ nodesAt place t) :
    p.next.bytes ≤ place.bytes + t.total.bytes := by
  induction h generalizing place with
  | mk t hbytes _ ih =>
      rw [nodesAt_eq] at hp
      cases hp with
      | head => exact Nat.le_refl _
      | tail _ hp =>
          obtain ⟨before, child, after, hsplit, hp⟩ := exists_of_mem_nodesAmong hp
          have hend := ih child (by simp [hsplit]) hp
          rw [Length.bytes_add] at hend
          rw [hsplit, bytes_totalAll_append, bytes_totalAll_cons] at hbytes
          omega

/-- All that is under a subtree starts and ends inside of it. -/
theorem Subtree.Nested.contains (h : t.Nested) (hp : p ∈ nodesAt place t) :
    place.bytes + t.padding.bytes ≤ p.start.bytes ∧ p.stop.bytes ≤ place.bytes + t.total.bytes := by
  refine ⟨?_, p.bytes_stop ▸ h.roomy.next_le hp⟩
  induction h generalizing place with
  | mk t hpadding _ _ ih =>
      rw [nodesAt_eq] at hp
      cases hp with
      | head => exact Nat.le_refl _
      | tail _ hp =>
          obtain ⟨before, child, after, hsplit, hp⟩ := exists_of_mem_nodesAmong hp
          have hstart := ih child (by simp [hsplit]) hp
          rw [Length.bytes_add] at hstart
          have hfirst : t.padding.bytes ≤ (totalAll before).bytes + child.padding.bytes := by
            rw [hsplit] at hpadding
            cases before with
            | nil =>
                rw [show totalAll [] = Length.zero from rfl, Length.bytes_zero, Nat.zero_add]
                exact hpadding child rfl
            | cons first before =>
                have hle := hpadding first rfl
                rw [bytes_totalAll_cons, total, Length.bytes_add]
                omega
          omega

theorem Subtree.Nested.of_mem_nodesAt (h : t.Nested) (hp : p ∈ nodesAt place t) :
    p.subtree.Nested :=
  forall_mem_nodesAt (fun _ ht => ht.child) place t h p hp

/-! ### Nodes below others -/

mutual

/-- The children of a node are visible subtrees under it. -/
theorem mem_of_mem_visibleUnder (table : Table) (inherited : Option FieldId) (offset : Length)
    (t : Subtree) {x : Placed × Option FieldId} (hx : x ∈ visibleUnder table inherited offset t) :
    x.1 ∈ nodesAmong offset t.children ∧ x.1.subtree.isVisible = true := by
  match t with
  | .mk head children =>
      rw [visibleUnder] at hx
      exact mem_of_mem_visibleAmong table inherited _ offset children hx

theorem mem_of_mem_visibleAmong (table : Table) (inherited : Option FieldId)
    (fields : List (Option FieldId)) (offset : Length) (trees : List Subtree)
    {x : Placed × Option FieldId} (hx : x ∈ visibleAmong table inherited fields offset trees) :
    x.1 ∈ nodesAmong offset trees ∧ x.1.subtree.isVisible = true := by
  match trees with
  | [] =>
      rw [visibleAmong] at hx
      cases hx
  | child :: rest =>
      rw [visibleAmong] at hx
      rw [nodesAmong, List.mem_append]
      rcases List.mem_append.1 hx with hx | hx
      · rw [nodesAt_eq]
        split at hx
        · rename_i hvisible
          rw [List.mem_singleton.1 hx]
          exact ⟨.inl List.mem_cons_self, hvisible⟩
        · obtain ⟨hmem, hvisible⟩ := mem_of_mem_visibleUnder table _ offset child hx
          exact ⟨.inl (List.mem_cons_of_mem _ hmem), hvisible⟩
      · obtain ⟨hmem, hvisible⟩ := mem_of_mem_visibleAmong table inherited _ _ rest hx
        exact ⟨.inr hmem, hvisible⟩

end

mutual

/-- Every visible subtree under a node is under one of its children. -/
theorem exists_mem_visibleUnder (table : Table) (inherited : Option FieldId) (offset : Length)
    (t : Subtree) (hp : p ∈ nodesAmong offset t.children) (hvisible : p.subtree.isVisible = true) :
    ∃ x ∈ visibleUnder table inherited offset t, p ∈ nodesAt x.1.offset x.1.subtree := by
  match t with
  | .mk head children =>
      rw [visibleUnder]
      exact exists_mem_visibleAmong table inherited _ offset children hp hvisible

theorem exists_mem_visibleAmong (table : Table) (inherited : Option FieldId)
    (fields : List (Option FieldId)) (offset : Length) (trees : List Subtree)
    (hp : p ∈ nodesAmong offset trees) (hvisible : p.subtree.isVisible = true) :
    ∃ x ∈ visibleAmong table inherited fields offset trees,
      p ∈ nodesAt x.1.offset x.1.subtree := by
  match trees with
  | [] => cases hp
  | child :: rest =>
      rw [visibleAmong]
      rw [nodesAmong] at hp
      rcases List.mem_append.1 hp with hp | hp
      · by_cases hchild : child.isVisible = true
        · rw [if_pos hchild]
          exact ⟨_, List.mem_append_left _ List.mem_cons_self, hp⟩
        · rw [if_neg hchild]
          rw [nodesAt_eq] at hp
          cases hp with
          | head => exact absurd hvisible hchild
          | tail _ hp =>
              obtain ⟨x, hx, hunder⟩ := exists_mem_visibleUnder table _ offset child hp hvisible
              exact ⟨x, List.mem_append_left _ hx, hunder⟩
      · obtain ⟨x, hx, hunder⟩ := exists_mem_visibleAmong table inherited _ _ rest hp hvisible
        exact ⟨x, List.mem_append_right _ hx, hunder⟩

end

mutual

/-- What is under a node under a subtree is under that. -/
theorem mem_nodesAt_trans {p q : Placed} (place : Length) (t : Subtree) (hp : p ∈ nodesAt place t)
    (hq : q ∈ nodesAt p.offset p.subtree) : q ∈ nodesAt place t := by
  match t with
  | .mk head children =>
      rw [nodesAt] at hp
      cases hp with
      | head => exact hq
      | tail _ hp => exact List.mem_cons_of_mem _ (mem_nodesAmong_trans place children hp hq)

theorem mem_nodesAmong_trans {p q : Placed} (place : Length) (trees : List Subtree)
    (hp : p ∈ nodesAmong place trees) (hq : q ∈ nodesAt p.offset p.subtree) :
    q ∈ nodesAmong place trees := by
  match trees with
  | [] => cases hp
  | t :: rest =>
      rw [nodesAmong, List.mem_append] at hp ⊢
      exact hp.imp (fun hp => mem_nodesAt_trans place t hp hq)
        (fun hp => mem_nodesAmong_trans _ rest hp hq)

end

namespace Node

variable {n m d : Node}

theorem Below.trans (h : n.Below m) (h' : m.Below d) : n.Below d := by
  induction h' with
  | refl => exact h
  | child m d _ hd ih => exact .child m d ih hd

theorem mem_children_iff : d ∈ n.children ↔
    d.tree = n.tree ∧ ∃ field, (d.placed, field) ∈ n.subtree.visibleUnder n.table none n.placed.offset := by
  rw [children, labelledChildren, List.map_map, List.mem_map]
  constructor
  · rintro ⟨⟨placed, field⟩, hx, rfl⟩
    exact ⟨rfl, field, hx⟩
  · rintro ⟨htree, field, hx⟩
    refine ⟨_, hx, ?_⟩
    rw [Function.comp_apply, ← htree]

/-- Below a node are the visible subtrees under it. -/
theorem below_iff : n.Below d ↔ d = n ∨ d.tree = n.tree ∧ d.subtree.isVisible = true ∧
    d.placed ∈ nodesAmong n.placed.offset n.subtree.children := by
  constructor
  · intro h
    induction h with
    | refl => exact .inl rfl
    | child m d _ hd ih =>
        obtain ⟨htree, field, hx⟩ := mem_children_iff.1 hd
        obtain ⟨hmem, hvisible⟩ := mem_of_mem_visibleUnder _ _ _ _ hx
        rcases ih with rfl | ⟨hmtree, _, hm⟩
        · exact .inr ⟨htree, hvisible, hmem⟩
        · refine .inr ⟨htree.trans hmtree, hvisible, mem_nodesAmong_trans _ _ hm ?_⟩
          rw [nodesAt_eq]
          exact List.mem_cons_of_mem _ hmem
  · rintro (rfl | ⟨htree, hvisible, hmem⟩)
    · exact .refl
    · -- from child to child, down to the one that is the subtree itself
      induction hcount : n.subtree.nodeCount using Nat.strong_induction_on generalizing n with
      | _ count ih =>
          obtain ⟨⟨q, field⟩, hq, hunder⟩ := exists_mem_visibleUnder n.table none _ _ hmem hvisible
          have hchild : (⟨n.tree, q⟩ : Node) ∈ n.children := mem_children_iff.2 ⟨rfl, field, hq⟩
          refine (Below.child n _ .refl hchild).trans ?_
          rw [nodesAt_eq] at hunder
          rcases List.mem_cons.1 hunder with heq | hunder
          · obtain ⟨tree, placed⟩ := d
            obtain rfl : tree = n.tree := htree
            obtain rfl : placed = q := heq
            exact .refl
          · refine ih _ ?_ htree hunder rfl
            rw [← hcount]
            exact Subtree.nodeCount_lt_of_mem_visibleUnder _ _ _ _ _ hq

end Node

/-! ### Descents -/

/-- What a descent among nodes gives when it comes with `found`. -/
inductive Descends (start stop : Nat) (accept : Subtree.Flags → Bool) (found : Placed)
    (nodes : List Placed) : Placed → Prop
  | found (h : ∀ p ∈ nodes, accept p.subtree.flags = true → ¬ p.Spans start stop) :
      Descends start stop accept found nodes found
  | least (d : Placed) (hmem : d ∈ nodes) (haccept : accept d.subtree.flags = true)
      (hspans : d.Spans start stop)
      (hleast : ∀ p ∈ nodes, accept p.subtree.flags = true → p.Spans start stop →
        d ∈ nodesAt p.offset p.subtree) : Descends start stop accept found nodes d

namespace Descends

variable {found here d : Placed} {nodes more : List Placed}

/-- Nodes that do not span the stretch may be added. -/
theorem append (h : Descends start stop accept found nodes d)
    (hmore : ∀ p ∈ more, ¬ p.Spans start stop) :
    Descends start stop accept found (nodes ++ more) d := by
  cases h with
  | found h =>
      refine .found fun p hp haccept => ?_
      rcases List.mem_append.1 hp with hp | hp
      · exact h p hp haccept
      · exact hmore p hp
  | least d hmem haccept hspans hleast =>
      refine .least d (List.mem_append_left _ hmem) haccept hspans fun p hp haccept hpspans => ?_
      rcases List.mem_append.1 hp with hp | hp
      · exact hleast p hp haccept hpspans
      · exact absurd hpspans (hmore p hp)

theorem of_append (h : Descends start stop accept found more d)
    (hnodes : ∀ p ∈ nodes, ¬ p.Spans start stop) :
    Descends start stop accept found (nodes ++ more) d := by
  cases h with
  | found h =>
      refine .found fun p hp haccept => ?_
      rcases List.mem_append.1 hp with hp | hp
      · exact hnodes p hp
      · exact h p hp haccept
  | least d hmem haccept hspans hleast =>
      refine .least d (List.mem_append_right _ hmem) haccept hspans fun p hp haccept hpspans => ?_
      rcases List.mem_append.1 hp with hp | hp
      · exact absurd hpspans (hnodes p hp)
      · exact hleast p hp haccept hpspans

/-- On the way down through a node that spans the stretch. -/
theorem enter (hhere : here.Spans start stop)
    (h : Descends start stop accept (if accept here.subtree.flags then here else found)
      (nodesAmong here.offset here.subtree.children) d) :
    Descends start stop accept found (nodesAt here.offset here.subtree) d := by
  rw [nodesAt_eq]
  cases h with
  | found h =>
      by_cases haccept : accept here.subtree.flags = true
      · rw [if_pos haccept]
        refine .least here List.mem_cons_self haccept hhere fun p hp hpaccept hpspans => ?_
        rcases List.mem_cons.1 hp with rfl | hp
        · rw [nodesAt_eq]
          exact List.mem_cons_self
        · exact absurd hpspans (h p hp hpaccept)
      · rw [if_neg haccept]
        refine .found fun p hp hpaccept => ?_
        rcases List.mem_cons.1 hp with rfl | hp
        · exact absurd hpaccept haccept
        · exact h p hp hpaccept
  | least d hmem haccept hspans hleast =>
      refine .least d (List.mem_cons_of_mem _ hmem) haccept hspans fun p hp hpaccept hpspans => ?_
      rcases List.mem_cons.1 hp with rfl | hp
      · rw [nodesAt_eq]
        exact List.mem_cons_of_mem _ hmem
      · exact hleast p hp hpaccept hpspans

end Descends

/-- A child that ends behind a stretch is the only one that can span it. -/
theorem not_spans_of_mem_nodesAmong (hplace : stop ≤ place.bytes) (hlt : start < stop)
    (hp : p ∈ nodesAmong place trees) : ¬ p.Spans start stop := by
  intro hspans
  have hoffset := le_offset_of_mem_nodesAmong hp
  have hstart := hspans.start
  rw [Placed.start, Length.bytes_add] at hstart
  omega

mutual

theorem descends_descendUnder (hlt : start < stop) (found : Placed) (offset : Length) (t : Subtree)
    (h : t.Nested) : Descends start stop accept found (nodesAmong offset t.children)
      (descendUnder start stop accept found offset t) := by
  match t with
  | .mk head children =>
      rw [descendUnder]
      exact descends_descendAmong hlt found offset children h.child

theorem descends_descendAmong (hlt : start < stop) (found : Placed) (offset : Length)
    (trees : List Subtree) (h : ∀ t ∈ trees, t.Nested) :
    Descends start stop accept found (nodesAmong offset trees)
      (descendAmong start stop accept found offset trees) := by
  match trees with
  | [] => exact .found nofun
  | child :: rest =>
      obtain ⟨hchild, hrest⟩ := List.forall_mem_cons.1 h
      have hnext : (⟨child, offset⟩ : Placed).next.bytes = offset.bytes + child.total.bytes := rfl
      have hstart : (⟨child, offset⟩ : Placed).start.bytes = offset.bytes + child.padding.bytes := rfl
      rw [nodesAmong, descendAmong]
      by_cases hbefore : offset.bytes + child.total.bytes < stop
      · have hskip : (decide ((⟨child, offset⟩ : Placed).next.bytes < stop) ||
            endsBefore start (⟨child, offset⟩ : Placed).start.bytes
              (⟨child, offset⟩ : Placed).next.bytes) = true := by
          rw [hnext, decide_eq_true hbefore, Bool.true_or]
        rw [if_pos hskip]
        refine (descends_descendAmong hlt found _ rest hrest).of_append fun p hp hspans => ?_
        have hstop := (hchild.contains hp).2
        have hspans := hspans.stop
        omega
      · have hstay : ¬ (decide ((⟨child, offset⟩ : Placed).next.bytes < stop) ||
            endsBefore start (⟨child, offset⟩ : Placed).start.bytes
              (⟨child, offset⟩ : Placed).next.bytes) = true := by
          rw [hnext, hstart, endsBefore]
          split <;> simp <;> omega
        rw [if_neg hstay]
        have hbehind : ∀ p ∈ nodesAmong (offset + child.total) rest, ¬ p.Spans start stop := by
          intro p hp
          refine not_spans_of_mem_nodesAmong ?_ hlt hp
          rw [Length.bytes_add]
          omega
        by_cases hpadding : start < (⟨child, offset⟩ : Placed).start.bytes
        · rw [if_pos hpadding]
          refine Descends.append (.found fun p hp _ hspans => ?_) hbehind
          have hcontains := (hchild.contains hp).1
          have hspans := hspans.start
          omega
        · rw [if_neg hpadding]
          refine Descends.append (Descends.enter ⟨Nat.le_of_not_lt hpadding, ?_⟩ ?_) hbehind
          · rw [Placed.bytes_stop, hnext]
            exact Nat.le_of_not_lt hbefore
          · exact descends_descendUnder hlt _ offset child hchild

end

namespace Node

variable {n d : Node}

theorem Below.mem_nodesAt (h : n.Below d) :
    d.tree = n.tree ∧ d.placed ∈ nodesAt n.placed.offset n.subtree := by
  rw [nodesAt_eq]
  rcases below_iff.1 h with rfl | ⟨htree, _, hmem⟩
  · exact ⟨rfl, List.mem_cons_self⟩
  · exact ⟨htree, List.mem_cons_of_mem _ hmem⟩

/-- Wherever it is looked for, the smallest node that spans a stretch is found, unless the stretch is
empty. -/
theorem findsSmallest_descendant? (hn : n.subtree.Nested) (hlt : start < stop)
    (haccept : ∀ flags, accept flags = true → flags.visible = true) :
    n.FindsSmallest start stop accept (n.descendant? start stop accept) := by
  rw [descendant?]
  by_cases hinside : n.startByte ≤ start ∧ stop ≤ n.endByte
  · obtain ⟨hstart, hstop⟩ := hinside
    rw [if_neg (by simp; omega)]
    refine ⟨iff_of_false (Option.some_ne_none _) (not_not_intro ⟨hstart, hstop⟩), ?_⟩
    rintro _ ⟨⟩
    have hdescends : Descends start stop accept n.placed _ _ :=
      descends_descendUnder hlt n.placed n.placed.offset n.subtree hn
    generalize n.subtree.descendUnder start stop accept n.placed n.placed.offset = d at hdescends
    cases hdescends with
    | found hnone =>
        refine ⟨.refl, .inl rfl, ⟨hstart, hstop⟩, fun m hm hmaccept hmstart hmstop => ?_⟩
        rcases below_iff.1 hm with rfl | ⟨_, hvisible, hmem⟩
        · exact .refl
        · rcases hmaccept with rfl | hmaccept
          · exact .refl
          · exact absurd ⟨hmstart, hmstop⟩ (hnone m.placed hmem hmaccept)
    | least d hmem hdaccept hspans hleast =>
        have hbelow : n.Below ⟨n.tree, d⟩ :=
          below_iff.2 (.inr ⟨rfl, haccept _ hdaccept, hmem⟩)
        refine ⟨hbelow, .inr hdaccept, ⟨hspans.start, hspans.stop⟩, fun m hm hmaccept hmstart hmstop => ?_⟩
        rcases below_iff.1 hm with rfl | ⟨htree, hvisible, hmmem⟩
        · exact hbelow
        · rcases hmaccept with rfl | hmaccept
          · exact hbelow
          · have hunder := hleast m.placed hmmem hmaccept ⟨hmstart, hmstop⟩
            rw [nodesAt_eq] at hunder
            rcases List.mem_cons.1 hunder with heq | hunder
            · obtain ⟨tree, placed⟩ := m
              obtain rfl : tree = n.tree := htree
              obtain rfl : d = placed := heq
              exact .refl
            · exact below_iff.2 (.inr ⟨htree.symm, haccept _ hdaccept, hunder⟩)
  · rw [if_pos (by simp; omega)]
    exact ⟨iff_of_true rfl hinside, nofun⟩

end Node

end IncrementalLR
