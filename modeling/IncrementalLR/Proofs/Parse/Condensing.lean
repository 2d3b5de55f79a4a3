import Mathlib.Data.List.Dedup
import Mathlib.Data.Prod.Lex
import IncrementalLR.Proofs.Parse.Termination

/-!
# Merging versions

Versions merge just when they stand at the same site: at the same place, with or without a lookahead,
and with the same states. A version is merged in one pass over those behind it, which keeps the first
best version of its site and leaves the other sites as they are. So of every site one version is left,
and sites are only lost where there are more of them than versions may be.
-/

namespace IncrementalLR

/-- The states of a stack from the base up. -/
def Stack.states (s : Stack) : List StateId := s.base :: (s.frames.map (·.state)).reverse

namespace Version

/-- What versions that merge have in common: the place in the text, whether a lookahead is at hand, and
the states of the stack. -/
def site (v : Version) : Nat × Bool × List StateId :=
  (v.position.bytes, v.lookahead.isSome, v.stack.states)

/-- The cost of errors, then the negated dynamic precedence; a lower rank is better. -/
def rank (v : Version) : Nat ×ₗ Int :=
  toLex (v.stack.errorCost.toNat, (-v.stack.dynamicPrecedence).toInt)

/-- The first of the versions with the lowest rank. -/
def IsFirstBest (w : Version) (versions : List Version) : Prop :=
  ∃ before after, versions = before ++ w :: after ∧ (∀ u ∈ before, w.rank < u.rank) ∧
    ∀ u ∈ after, w.rank ≤ u.rank

variable {u v w : Version} {versions rest : List Version}

theorem merges_iff : v.merges w = true ↔ v.site = w.site := by
  simp only [merges, Stack.sameStates, site, Stack.states, Bool.and_eq_true, beq_iff_eq,
    Prod.mk.injEq, List.cons.injEq, List.reverse_inj, and_assoc]

theorem better_iff_rank_lt : v.better w = true ↔ v.rank < w.rank := by
  rw [rank, rank, Prod.Lex.toLex_lt_toLex, better]
  simp only [Bool.or_eq_true, Bool.and_eq_true, beq_iff_eq, decide_eq_true_eq,
    UInt32.lt_iff_toNat_lt, UInt32.toNat_inj, Int32.lt_iff_toInt_lt]

/-! ### The best of a site -/

theorem IsFirstBest.rank_le (h : w.IsFirstBest versions) (hu : u ∈ versions) : w.rank ≤ u.rank := by
  obtain ⟨before, after, rfl, hbefore, hafter⟩ := h
  rcases List.mem_append.1 hu with hu | hu
  · exact (hbefore u hu).le
  · rcases List.mem_cons.1 hu with rfl | hu
    · exact le_refl _
    · exact hafter u hu

theorem isFirstBest_singleton (v : Version) : v.IsFirstBest [v] :=
  ⟨[], [], rfl, by simp, by simp⟩

/-- A version that is better than the first takes its place. -/
theorem IsFirstBest.cons_of_lt (h : u.IsFirstBest (w :: rest)) (hlt : w.rank < v.rank) :
    u.IsFirstBest (v :: w :: rest) := by
  have hle := h.rank_le List.mem_cons_self
  obtain ⟨before, after, heq, hbefore, hafter⟩ := h
  refine ⟨v :: before, after, by rw [heq, List.cons_append], ?_, hafter⟩
  exact List.forall_mem_cons.2 ⟨hle.trans_lt hlt, hbefore⟩

/-- The second version is passed over if it is no better than the first. -/
theorem IsFirstBest.insert_of_le (h : u.IsFirstBest (v :: rest)) (hle : v.rank ≤ w.rank) :
    u.IsFirstBest (v :: w :: rest) := by
  obtain ⟨before, after, heq, hbefore, hafter⟩ := h
  cases before with
  | nil =>
      obtain ⟨rfl, rfl⟩ := List.cons.inj heq
      exact ⟨[], w :: rest, rfl, by simp, List.forall_mem_cons.2 ⟨hle, hafter⟩⟩
  | cons first before =>
      obtain ⟨rfl, rfl⟩ := List.cons.inj heq
      obtain ⟨hfirst, hbefore⟩ := List.forall_mem_cons.1 hbefore
      refine ⟨v :: w :: before, after, rfl, ?_, hafter⟩
      exact List.forall_mem_cons.2 ⟨hfirst, List.forall_mem_cons.2 ⟨hfirst.trans_le hle, hbefore⟩⟩

theorem IsFirstBest.choose (h : u.IsFirstBest ((if w.better v then w else v) :: rest)) :
    u.IsFirstBest (v :: w :: rest) := by
  split at h
  · rename_i hbetter
    exact h.cons_of_lt (better_iff_rank_lt.1 hbetter)
  · rename_i hbetter
    exact h.insert_of_le (not_lt.1 fun hlt => hbetter (better_iff_rank_lt.2 hlt))

/-! ### Merging -/

/-- One pass keeps the first best version of a site, and the versions of the other sites. -/
theorem absorb_spec (v : Version) (rest : List Version) :
    (v.absorb rest).1.site = v.site ∧
      (v.absorb rest).2 = rest.filter (fun u => u.site ≠ v.site) ∧
      (v.absorb rest).1.IsFirstBest (v :: rest.filter fun u => u.site = v.site) := by
  fun_induction absorb v rest with
  | case1 v => exact ⟨rfl, rfl, isFirstBest_singleton v⟩
  | case2 v w rest hmerges ih =>
      have hsite : w.site = v.site := (merges_iff.1 hmerges).symm
      have hchosen : (if w.better v then w else v).site = v.site := by
        split
        · exact hsite
        · rfl
      rw [hchosen] at ih
      obtain ⟨hbest, hothers, hfirst⟩ := ih
      refine ⟨hbest, ?_, ?_⟩
      · rw [hothers, List.filter_cons_of_neg (by simpa using hsite)]
      · rw [List.filter_cons_of_pos (by simpa using hsite)]
        exact hfirst.choose
  | case3 v w rest hmerges best others heq ih =>
      have hsite : w.site ≠ v.site := fun hsite => hmerges (merges_iff.2 hsite.symm)
      rw [heq] at ih
      obtain ⟨hbest, hothers, hfirst⟩ := ih
      refine ⟨hbest, ?_, ?_⟩
      · rw [List.filter_cons_of_pos (by simpa using hsite), ← hothers]
      · rw [List.filter_cons_of_neg (by simpa using hsite)]
        exact hfirst

theorem mem_sites_mergeAll {k : Nat × Bool × List StateId} :
    k ∈ (mergeAll versions).map site ↔ k ∈ versions.map site := by
  fun_induction mergeAll versions with
  | case1 => exact Iff.rfl
  | case2 v rest ih =>
      obtain ⟨hsite, hothers, _⟩ := absorb_spec v rest
      rw [List.map_cons, List.mem_cons, ih, hsite, hothers, List.map_cons, List.mem_cons]
      simp only [List.mem_map, List.mem_filter, decide_eq_true_eq]
      refine or_congr_right' fun hne => ⟨?_, ?_⟩
      · rintro ⟨u, ⟨hu, _⟩, rfl⟩
        exact ⟨u, hu, rfl⟩
      · rintro ⟨u, hu, rfl⟩
        exact ⟨u, ⟨hu, hne⟩, rfl⟩

theorem nodup_sites_mergeAll (versions : List Version) : ((mergeAll versions).map site).Nodup := by
  fun_induction mergeAll versions with
  | case1 => exact List.nodup_nil
  | case2 v rest ih =>
      obtain ⟨hsite, hothers, _⟩ := absorb_spec v rest
      rw [List.map_cons]
      refine List.nodup_cons.2 ⟨fun hmem => ?_, ih⟩
      obtain ⟨u, hu, heq⟩ := List.mem_map.1 (mem_sites_mergeAll.1 hmem)
      rw [hothers, List.mem_filter, decide_eq_true_eq] at hu
      exact hu.2 (heq.trans hsite)

/-- As many versions are left as there are sites. -/
theorem length_mergeAll (versions : List Version) :
    (mergeAll versions).length = (versions.map site).dedup.length := by
  have hperm : ((mergeAll versions).map site).Perm (versions.map site).dedup := by
    refine (List.perm_ext_iff_of_nodup (nodup_sites_mergeAll versions) (List.nodup_dedup _)).2 ?_
    intro k
    rw [List.mem_dedup, mem_sites_mergeAll]
  rw [← hperm.length_eq, List.length_map]

theorem filter_mergeAll {k : Nat × Bool × List StateId} (hk : k ∈ versions.map site) :
    ∃ w, (mergeAll versions).filter (fun u => u.site = k) = [w] ∧
      w.IsFirstBest (versions.filter fun u => u.site = k) := by
  fun_induction mergeAll versions with
  | case1 => cases hk
  | case2 v rest ih =>
      obtain ⟨hsite, hothers, hfirst⟩ := absorb_spec v rest
      by_cases heq : v.site = k
      · subst heq
        refine ⟨(v.absorb rest).1, ?_, ?_⟩
        · rw [List.filter_cons_of_pos (by simpa using hsite)]
          refine congrArg _ (List.filter_eq_nil_iff.2 fun u hu => ?_)
          have hmem := mem_sites_mergeAll.1 (List.mem_map_of_mem (f := site) hu)
          rw [hothers, List.mem_map] at hmem
          obtain ⟨x, hx, hxsite⟩ := hmem
          rw [List.mem_filter, decide_eq_true_eq, hxsite] at hx
          simpa using hx.2
        · rw [List.filter_cons_of_pos (by simp)]
          exact hfirst
      · have hrest : k ∈ (v.absorb rest).2.map site := by
          obtain ⟨u, hu, rfl⟩ := List.mem_map.1 hk
          rcases List.mem_cons.1 hu with rfl | hu
          · exact absurd rfl heq
          · rw [hothers]
            exact List.mem_map_of_mem (List.mem_filter.2 ⟨hu, by simpa using Ne.symm heq⟩)
        obtain ⟨w, hleft, hbest⟩ := ih hrest
        refine ⟨w, ?_, ?_⟩
        · rw [List.filter_cons_of_neg (by simpa [hsite] using heq), hleft]
        · rw [List.filter_cons_of_neg (by simpa using heq)]
          rw [hothers, List.filter_filter] at hbest
          have hcongr : rest.filter (fun u => decide (u.site = k) && decide (u.site ≠ v.site))
              = rest.filter fun u => u.site = k := by
            refine List.filter_congr fun u _ => ?_
            by_cases hu : u.site = k
            · simp [hu, Ne.symm heq]
            · simp [hu]
          rwa [hcongr] at hbest

/-! ### Condensing -/

theorem condense_eq_of_le {limit : Nat} (h : (versions.map site).dedup.length ≤ limit) :
    condense limit versions = mergeAll versions := by
  rw [condense, if_neg (Nat.not_lt_of_le (by rwa [length_mergeAll]))]

theorem length_condense_le (limit : Nat) (versions : List Version) :
    (condense limit versions).length ≤ limit := by
  rw [condense]
  split
  · exact List.length_take_le _ _
  · exact Nat.le_of_not_lt ‹_›

theorem condense_subperm_mergeAll (limit : Nat) (versions : List Version) :
    (condense limit versions).Subperm (mergeAll versions) := by
  rw [condense]
  split
  · exact (List.take_sublist _ _).subperm.trans (List.mergeSort_perm _ _).subperm
  · exact List.Subperm.refl _

theorem pairwise_rank_mergeSort (versions : List Version) :
    (versions.mergeSort fun a b => !b.better a).Pairwise fun a b => a.rank ≤ b.rank := by
  have hsorted : (versions.mergeSort fun a b => !b.better a).Pairwise fun a b =>
      (!b.better a) = true := by
    refine List.pairwise_mergeSort (fun a b c hab hbc => ?_) (fun a b => ?_) versions
    · simp only [Bool.not_eq_true', ← Bool.not_eq_true, better_iff_rank_lt, not_lt] at hab hbc ⊢
      exact hab.trans hbc
    · simp only [Bool.or_eq_true, Bool.not_eq_true', ← Bool.not_eq_true, better_iff_rank_lt, not_lt]
      exact le_total _ _
  refine hsorted.imp fun {a b} h => ?_
  simpa only [Bool.not_eq_true', ← Bool.not_eq_true, better_iff_rank_lt, not_lt] using h

/-- What is cut off ranks no better than what is left. -/
theorem rank_le_of_notMem_condense {limit : Nat} (hv : v ∈ mergeAll versions)
    (hcut : v ∉ condense limit versions) (hw : w ∈ condense limit versions) : w.rank ≤ v.rank := by
  rw [condense] at hcut hw
  split at hcut
  · rename_i hmore
    rw [if_pos hmore] at hw
    have hsorted := pairwise_rank_mergeSort (mergeAll versions)
    have hmem : v ∈ (mergeAll versions).mergeSort fun a b => !b.better a := List.mem_mergeSort.2 hv
    rw [← List.take_append_drop limit ((mergeAll versions).mergeSort _)] at hsorted hmem
    have hdrop := (List.mem_append.1 hmem).resolve_left hcut
    exact (List.pairwise_append.1 hsorted).2.2 w hw v hdrop
  · exact absurd hv hcut

/-- Condensing leaves one version of a site at most, and so many versions at most. A version that is
left is the first best one of its site, and every site is left unless there are too many; then those
whose best versions rank worst are cut off. -/
theorem condense_keeps_best (limit : Nat) (versions : List Version) :
    ((condense limit versions).map site).Nodup ∧
      (condense limit versions).length ≤ limit ∧
      (∀ w ∈ condense limit versions, w.IsFirstBest (versions.filter fun u => u.site = w.site)) ∧
      (∀ v ∈ versions, v.site ∉ (condense limit versions).map site →
        limit < (versions.map site).dedup.length ∧
          ∀ w ∈ condense limit versions, w.rank ≤ v.rank) ∧
      ((versions.map site).dedup.length ≤ limit → ∀ v ∈ versions, ∃ w,
        (condense limit versions).filter (fun u => u.site = v.site) = [w] ∧
          w.IsFirstBest (versions.filter fun u => u.site = v.site)) := by
  have hsub := condense_subperm_mergeAll limit versions
  refine ⟨?_, length_condense_le limit versions, fun w hw => ?_, fun v hv hlost => ⟨?_, ?_⟩,
    fun hfew v hv => ?_⟩
  · obtain ⟨left, hperm, hleft⟩ := hsub
    exact (hperm.map site).nodup_iff.1 ((nodup_sites_mergeAll versions).sublist (hleft.map site))
  · have hw := hsub.subset hw
    obtain ⟨best, hleft, hbest⟩ :=
      filter_mergeAll (mem_sites_mergeAll.1 (List.mem_map_of_mem (f := site) hw))
    have hmem : w ∈ (mergeAll versions).filter fun u => u.site = w.site :=
      List.mem_filter.2 ⟨hw, by simp⟩
    rw [hleft, List.mem_singleton] at hmem
    rwa [← hmem] at hbest
  · refine Nat.lt_of_not_le fun hfew => hlost ?_
    rw [condense_eq_of_le hfew]
    exact mem_sites_mergeAll.2 (List.mem_map_of_mem hv)
  · intro w hw
    obtain ⟨best, hleft, hbest⟩ := filter_mergeAll (List.mem_map_of_mem (f := site) hv)
    have hmem : best ∈ (mergeAll versions).filter fun u => u.site = v.site := by
      rw [hleft]
      exact List.mem_singleton_self best
    obtain ⟨hmem, hsite⟩ := List.mem_filter.1 hmem
    have hcut : best ∉ condense limit versions := fun h =>
      hlost (of_decide_eq_true hsite ▸ List.mem_map_of_mem h)
    exact (rank_le_of_notMem_condense hmem hcut hw).trans
      (hbest.rank_le (List.mem_filter.2 ⟨hv, by simp⟩))
  · rw [condense_eq_of_le hfew]
    exact filter_mergeAll (List.mem_map_of_mem hv)

end Version

end IncrementalLR
