import IncrementalLR.Proofs.Parse.Stack
import IncrementalLR.Proofs.Tree.Numbers

/-!
# Numbers during a parse

The subtrees of a version are new, or nodes of the old tree that the cursor has passed, or the token that
the lexer gave last. New subtrees get the next free number. The cursor only moves forward, and what was
taken over is behind it as soon as the version has gone past. The token is given again only where it
stands, and a version that has shifted it is further on. So no number comes to be twice on a stack.
-/

namespace IncrementalLR

open Subtree (idsAll issued Renews totalAll)

/-! ### What is left of an old tree -/

namespace ReuseCursor

/-- Subtrees from an offset on, without those at the front that end in front of a place. -/
def dropPassed (position offset : Nat) : List Subtree → List Subtree
  | [] => []
  | t :: rest =>
    if offset < position ∧ offset + t.total.bytes ≤ position then
      dropPassed position (offset + t.total.bytes) rest
    else t :: rest

/-- What is left of the old tree for a version that stands at a place. -/
def left (c : ReuseCursor) (position : Nat) : List Subtree := dropPassed position c.offset c.rest

variable {c : ReuseCursor} {t : Subtree} {trees rest : List Subtree} {position offset : Nat}

theorem dropPassed_suffix (position offset : Nat) (trees : List Subtree) :
    dropPassed position offset trees <:+ trees := by
  fun_induction dropPassed position offset trees with
  | case1 => exact List.suffix_refl _
  | case2 offset t rest _ ih => exact ih.trans (List.suffix_cons t rest)
  | case3 => exact List.suffix_refl _

theorem dropPassed_of_le (h : position ≤ offset) (trees : List Subtree) :
    dropPassed position offset trees = trees := by
  cases trees with
  | nil => rfl
  | cons t rest => exact if_neg fun hpassed => absurd hpassed.1 (Nat.not_lt_of_le h)

/-- The further on a version is, the less is left. -/
theorem dropPassed_suffix_of_le {further : Nat} (h : position ≤ further) (offset : Nat)
    (trees : List Subtree) : dropPassed further offset trees <:+ dropPassed position offset trees := by
  fun_induction dropPassed position offset trees with
  | case1 => exact dropPassed_suffix _ _ _
  | case2 offset t rest hpassed ih =>
      rw [dropPassed, if_pos (by omega)]
      exact ih
  | case3 => exact dropPassed_suffix _ _ _

theorem ids_stepInto (c : ReuseCursor) : (idsAll c.stepInto.rest).Sublist (idsAll c.rest) := by
  rw [rest_stepInto]
  cases hrest : c.rest with
  | nil => exact List.Sublist.refl _
  | cons t rest =>
      rw [Subtree.idsAll_append, idsAll, Subtree.ids_eq]
      exact ((List.sublist_cons_self _ _).append (List.Sublist.refl _))

/-- A cursor that moves into a subtree that its version has not passed leaves out none and brings in
none. -/
theorem left_stepInto_sublist (hrest : c.rest = t :: rest)
    (h : ¬ (c.offset < position ∧ c.offset + t.total.bytes ≤ position)) :
    (idsAll (c.stepInto.left position)).Sublist (idsAll (c.left position)) := by
  have hleft : c.left position = c.rest := by
    rw [left, hrest]
    exact if_neg h
  rw [hleft]
  exact (Subtree.idsAll_sublist (dropPassed_suffix _ _ _).sublist).trans c.ids_stepInto

/-- To look for a subtree at the place of a version takes none from what is left for it. -/
theorem left_take_sublist (c : ReuseCursor) (table : Table) (position : Nat) (state : StateId) :
    (idsAll ((c.take table position state).2.left position)).Sublist (idsAll (c.left position)) := by
  fun_induction ReuseCursor.take c table position state with
  | case1 => exact List.Sublist.refl _
  | case2 => exact List.Sublist.refl _
  | case3 c entry above h _ hlt hle ih =>
      refine ih.trans ?_
      have hrest : c.rest = entry.tree :: behind entry.index above := by rw [ReuseCursor.rest, h]
      have hentry : c.offset = entry.offset := by rw [ReuseCursor.offset, h]
      have hleft : c.left position
          = dropPassed position (c.offset + entry.tree.total.bytes) (behind entry.index above) := by
        rw [left, hrest, dropPassed, if_pos ⟨hentry ▸ hlt, hentry ▸ hle⟩]
      have htail : c.advance.rest = behind entry.index above := by
        rw [rest_advance, hrest, List.tail_cons]
      rcases offset_advance hrest with hnil | hoffset
      · rw [left, htail, hnil]
        exact List.nil_sublist _
      · rw [hleft, left, htail, hoffset]
  | case4 c entry above h _ hlt hle ih =>
      have hentry : c.offset = entry.offset := by rw [ReuseCursor.offset, h]
      exact ih.trans (left_stepInto_sublist (by rw [ReuseCursor.rest, h]) fun hpassed =>
        hle (hentry ▸ hpassed.2))
  | case5 => exact List.Sublist.refl _
  | case6 c entry above h _ hlt _ ih =>
      have hentry : c.offset = entry.offset := by rw [ReuseCursor.offset, h]
      exact ih.trans (left_stepInto_sublist (by rw [ReuseCursor.rest, h]) fun hpassed =>
        hlt (hentry ▸ hpassed.1))

end ReuseCursor

/-! ### Numbers -/

/-- What the numbers of subtrees are compared with in a parse: the next free one, the token that the lexer
gave last, and what is left of an old tree. -/
structure Numbering where
  nextId : Nat
  cache : Option TokenCache
  reuse : Option ReuseCursor

def ParseState.numbering (s : ParseState) : Numbering := ⟨s.nextId, s.cache, s.reuse⟩

/-- A leaf of the end of input, that is not an extra. -/
structure Subtree.IsEnd (t : Subtree) : Prop where
  isLeaf : t.isLeaf = true
  symbol : t.symbol = Symbol.eof
  extra : t.flags.extra = false

/-- A token of the lexer, with one number. -/
structure Subtree.IsLexed (t : Subtree) : Prop where
  isLeaf : t.isLeaf = true
  ids : t.ids = [t.id]
  pos : t.IsEnd ∨ 0 < t.total.bytes

namespace Numbering

def left (m : Numbering) (position : Nat) : List Subtree :=
  (m.reuse.map (·.left position)).getD []

/-- The numbers of a parse are given out from `first` on, and those of the old tree are below. -/
structure StartsAt (m : Numbering) (first : Nat) : Prop where
  le : first ≤ m.nextId
  cache : ∀ c ∈ m.cache, c.tree.IsLexed ∧ first ≤ c.tree.id ∧ c.tree.id < m.nextId
  reuse : ∀ c ∈ m.reuse, ∀ t ∈ c.rest, ∀ k ∈ t.ids, k < first

/-- Subtrees up to a place have distinct numbers, none of which is in what is left of the old tree. They
have the token that the lexer gave last only if they reach beyond it. -/
structure Admits (m : Numbering) (trees : List Subtree) (position : Nat) : Prop where
  once : ∀ k, (idsAll trees).count k + (idsAll (m.left position)).count k ≤ 1
  lt : ∀ k ∈ idsAll trees, k < m.nextId
  cache : ∀ c ∈ m.cache, c.tree.id ∈ idsAll trees → c.position < position

/-- New numbers are given out, and the last token is the same or has a new number. -/
structure Grows (m m' : Numbering) : Prop where
  le : m.nextId ≤ m'.nextId
  cache : ∀ c ∈ m'.cache, c ∈ m.cache ∨ m.nextId ≤ c.tree.id
  reuse : m'.reuse = m.reuse

variable {m m' m'' : Numbering} {first n position : Nat} {trees after : List Subtree}
  {c : TokenCache} {t : Subtree}

theorem Grows.refl (m : Numbering) : m.Grows m :=
  ⟨Nat.le_refl _, fun _ hc => .inl hc, rfl⟩

theorem Grows.trans (h : m.Grows m') (h' : m'.Grows m'') : m.Grows m'' := by
  refine ⟨Nat.le_trans h.le h'.le, fun c hc => ?_, h'.reuse.trans h.reuse⟩
  rcases h'.cache c hc with hold | hnew
  · exact h.cache c hold
  · exact .inr (Nat.le_trans h.le hnew)

theorem grows_nextId (h : m.nextId ≤ n) : m.Grows { m with nextId := n } :=
  ⟨h, fun _ hc => .inl hc, rfl⟩

theorem StartsAt.nextId (hm : m.StartsAt first) (h : m.nextId ≤ n) :
    { m with nextId := n }.StartsAt first where
  le := Nat.le_trans hm.le h
  cache c hc := by
    obtain ⟨htoken, hfirst, hlt⟩ := hm.cache c hc
    exact ⟨htoken, hfirst, Nat.lt_of_lt_of_le hlt h⟩
  reuse := hm.reuse

/-- What is left of the old tree has its numbers from before the parse. -/
theorem StartsAt.lt_of_mem_left (hm : m.StartsAt first) {k : Nat}
    (hk : k ∈ idsAll (m.left position)) : k < first := by
  rw [left] at hk
  cases hreuse : m.reuse with
  | none =>
      rw [hreuse] at hk
      cases hk
  | some cursor =>
      rw [hreuse, Option.map_some, Option.getD_some] at hk
      obtain ⟨t, ht, hk⟩ := Subtree.mem_idsAll.1 hk
      exact hm.reuse cursor hreuse t ((ReuseCursor.dropPassed_suffix _ _ _).subset ht) k hk

theorem left_suffix_of_le {further : Nat} (m : Numbering) (h : position ≤ further) :
    m.left further <:+ m.left position := by
  rw [left, left]
  cases m.reuse with
  | none => exact List.suffix_refl _
  | some cursor => exact ReuseCursor.dropPassed_suffix_of_le h _ _

namespace Admits

theorem nil (hcursor : ∀ k, (idsAll (m.left position)).count k ≤ 1) : m.Admits [] position where
  once k := by
    rw [idsAll, List.count_nil, Nat.zero_add]
    exact hcursor k
  lt := nofun
  cache _ _ := nofun

theorem nodup (h : m.Admits trees position) : (idsAll trees).Nodup :=
  List.nodup_iff_count_le_one.2 fun k => Nat.le_trans (Nat.le_add_right _ _) (h.once k)

theorem grows (h : m.Admits trees position) (hm : m.Grows m') : m'.Admits trees position where
  once k := by
    rw [left, hm.reuse]
    exact h.once k
  lt k hk := Nat.lt_of_lt_of_le (h.lt k hk) hm.le
  cache c hc hk := by
    rcases hm.cache c hc with hold | hnew
    · exact h.cache c hold hk
    · exact absurd (h.lt _ hk) (Nat.not_lt_of_le hnew)

/-- New nodes take the place of others. -/
theorem renews (h : m.Admits trees position) (hm : m.StartsAt first)
    (hrenews : Renews m.nextId n trees after) : { m with nextId := n }.Admits after position where
  once k := by
    have hcount := hrenews.count k
    have honce := h.once k
    have hissued := Subtree.issued_le_one m.nextId n k
    change _ + (idsAll (m.left position)).count k ≤ 1
    rcases Nat.lt_or_ge k m.nextId with hlt | hge
    · rw [Subtree.issued_eq_zero hlt] at hcount
      omega
    · have htrees : (idsAll trees).count k = 0 :=
        List.count_eq_zero.2 fun hk => absurd (h.lt k hk) (Nat.not_lt_of_le hge)
      have hleft : (idsAll (m.left position)).count k = 0 :=
        List.count_eq_zero.2 fun hk =>
          absurd (hm.lt_of_mem_left hk) (Nat.not_lt_of_le (Nat.le_trans hm.le hge))
      omega
  lt k hk := by
    have hpos := List.count_pos_iff.2 hk
    have hcount := hrenews.count k
    rw [Subtree.issued] at hcount
    split at hcount
    · rename_i hissued
      exact hissued.2
    · have hmem : k ∈ idsAll trees := List.count_pos_iff.1 (by omega)
      exact Nat.lt_of_lt_of_le (h.lt k hmem) hrenews.le
  cache c hc hk := by
    obtain ⟨_, _, hlt⟩ := hm.cache c hc
    have hpos := List.count_pos_iff.2 hk
    have hcount := hrenews.count c.tree.id
    rw [Subtree.issued_eq_zero hlt] at hcount
    exact h.cache c hc (List.count_pos_iff.1 (by omega))

/-- The token that the lexer gave last at a place comes behind the subtrees up to there. -/
theorem token (h : m.Admits trees position) (hm : m.StartsAt first) (hc : c ∈ m.cache)
    (hposition : c.position = position) (hpos : 0 < c.tree.total.bytes) :
    m.Admits (trees ++ [c.tree]) (position + c.tree.total.bytes) := by
  obtain ⟨htoken, hfirst, hlt⟩ := hm.cache c hc
  have hnew : c.tree.id ∉ idsAll trees := fun hk =>
    absurd (h.cache c hc hk) (by omega)
  have hleft : c.tree.id ∉ idsAll (m.left position) := fun hk =>
    absurd (hm.lt_of_mem_left hk) (Nat.not_lt_of_le hfirst)
  have hids : idsAll (trees ++ [c.tree]) = idsAll trees ++ [c.tree.id] := by
    rw [Subtree.idsAll_append, Subtree.idsAll_singleton, htoken.ids]
  refine ⟨fun k => ?_, fun k hk => ?_, fun c' hc' _ => ?_⟩
  · have honce := h.once k
    have hsuffix := (Subtree.idsAll_sublist
      (m.left_suffix_of_le (Nat.le_add_right position c.tree.total.bytes)).sublist).count_le k
    rw [hids, List.count_append, List.count_singleton]
    by_cases hk : c.tree.id = k
    · rw [← hk, List.count_eq_zero.2 hleft, Nat.le_zero] at hsuffix
      refine Nat.le_of_eq ?_
      rw [← hk, List.count_eq_zero.2 hnew, hsuffix, if_pos (beq_self_eq_true _)]
    · rw [if_neg (by simpa using hk)]
      omega
  · rw [hids] at hk
    rcases List.mem_append.1 hk with hk | hk
    · exact h.lt k hk
    · rw [List.mem_singleton.1 hk]
      exact hlt
  · obtain rfl : c = c' := Option.some.inj (hc.symm.trans hc')
    omega

/-- A subtree that the cursor gives at a place comes behind the subtrees up to there. -/
theorem reused (h : m.Admits trees position) (hm : m.StartsAt first) {cursor : ReuseCursor}
    (hcursor : cursor ∈ m.reuse) (hoffset : cursor.offset = position)
    (ht : cursor.rest.head? = some t) (hpos : 0 < t.total.bytes) :
    m.Admits (trees ++ [t]) (position + t.total.bytes) := by
  obtain ⟨rest, hrest⟩ := List.head?_eq_some_iff.1 ht
  obtain ⟨nextId, cache, reuse⟩ := m
  obtain rfl : reuse = some cursor := hcursor
  have hids : ∀ k ∈ t.ids, k < first :=
    hm.reuse cursor rfl t (hrest ▸ List.mem_cons_self)
  have hhere : Numbering.left ⟨nextId, cache, some cursor⟩ position = t :: rest := by
    rw [← hrest]
    exact ReuseCursor.dropPassed_of_le (Nat.le_of_eq hoffset.symm) _
  have hbehind : Numbering.left ⟨nextId, cache, some cursor⟩ (position + t.total.bytes) = rest := by
    change ReuseCursor.dropPassed _ cursor.offset cursor.rest = rest
    rw [hrest, ReuseCursor.dropPassed, if_pos (by omega)]
    exact ReuseCursor.dropPassed_of_le (by omega) _
  refine ⟨fun k => ?_, fun k hk => ?_, fun c hc hk => ?_⟩
  · have honce := h.once k
    rw [hhere, idsAll, List.count_append] at honce
    rw [hbehind, Subtree.idsAll_append, Subtree.idsAll_singleton, List.count_append]
    omega
  · rw [Subtree.idsAll_append, Subtree.idsAll_singleton] at hk
    rcases List.mem_append.1 hk with hk | hk
    · exact h.lt k hk
    · exact Nat.lt_of_lt_of_le (hids k hk) hm.le
  · rw [Subtree.idsAll_append, Subtree.idsAll_singleton] at hk
    rcases List.mem_append.1 hk with hk | hk
    · exact Nat.lt_of_lt_of_le (h.cache c hc hk) (Nat.le_add_right _ _)
    · exact absurd (hids _ hk) (Nat.not_lt_of_le (hm.cache c hc).2.1)

/-- The cursor moves on over what is not taken. -/
theorem moved (h : m.Admits trees position) {cursor : ReuseCursor}
    (hleft : (idsAll (cursor.left position)).Sublist (idsAll (m.left position))) :
    { m with reuse := some cursor }.Admits trees position where
  once k := Nat.le_trans (Nat.add_le_add_left (hleft.count_le k) _) (h.once k)
  lt := h.lt
  cache := h.cache

end Admits

/-- So many of some tokens, but not all of them, are admitted behind a stack. -/
def AdmitsPassed (m : Numbering) (done : List Subtree) (position : Nat) (tokens : List Subtree) :
    Prop :=
  ∀ n < tokens.length,
    m.Admits (done ++ tokens.take n) (position + (totalAll (tokens.take n)).bytes)

theorem AdmitsPassed.nil : m.AdmitsPassed trees position [] :=
  fun n hn => absurd hn (Nat.not_lt_zero n)

theorem AdmitsPassed.cons {tokens : List Subtree} (h : m.Admits trees position)
    (htokens : m.AdmitsPassed (trees ++ [t]) (position + t.total.bytes) tokens) :
    m.AdmitsPassed trees position (t :: tokens) := by
  intro n hn
  cases n with
  | zero =>
      rw [List.take_zero, List.append_nil]
      exact h
  | succ n =>
      have hadmits := htokens n (Nat.lt_of_succ_lt_succ hn)
      rw [List.append_assoc, Nat.add_assoc] at hadmits
      exact hadmits

theorem AdmitsPassed.grows {tokens : List Subtree} (h : m.AdmitsPassed trees position tokens)
    (hm : m.Grows m') : m'.AdmitsPassed trees position tokens :=
  fun n hn => (h n hn).grows hm

end Numbering

end IncrementalLR
