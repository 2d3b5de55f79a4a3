import IncrementalLR.Automaton.Conflict
import IncrementalLR.Proofs.Fold

/-!
# Cells without a conflict

Settling a cell either gives a reason or leaves everything as it is; and when it leaves everything as
it is, there was at most one action.
-/

namespace IncrementalLR.Candidates

theorem rankReduces_of_reason_none {g : Grammar} {reduces : List Nat}
    (h : (rankReduces g reduces).2 = none) : (rankReduces g reduces).1 = reduces := by
  rw [rankReduces] at h ⊢
  split at h
  · rename_i hranked
    rw [if_pos hranked]
    simp only at h ⊢
    split at h
    · cases h
    · rename_i hkept
      rw [if_neg hkept]
  · rename_i hranked
    rw [if_neg hranked]

/-- A reduction that competes without a reason stays, and so does the shift. -/
theorem compete_of_reason_none {g : Grammar} {shifts : List Precedence} {contest : Contest} {r : Nat}
    (h : (compete g shifts contest r).reason = none) :
    contest.reason = none ∧ (compete g shifts contest r).keepShift = contest.keepShift ∧
      (compete g shifts contest r).reduces = r :: contest.reduces := by
  rw [compete] at h ⊢
  split at h
  · rename_i hnone
    rw [if_pos hnone]
    exact ⟨h, rfl, rfl⟩
  · rename_i hsome
    rw [if_neg hsome]
    simp only at h ⊢
    split at h
    · cases h
    · rename_i hhigh
      rw [if_neg hhigh]
      split at h
      · cases h
      · rename_i hlow
        rw [if_neg hlow]
        split at h
        · rename_i hequal
          rw [if_pos hequal]
          split at h
          · cases h
          · cases h
          · cases h
          · exact ⟨h, rfl, rfl⟩
        · rename_i hunequal
          rw [if_neg hunequal]
          exact ⟨h, rfl, rfl⟩

theorem foldl_compete_of_reason_none {g : Grammar} {shifts : List Precedence} {reduces : List Nat}
    {contest : Contest} (h : (reduces.foldl (compete g shifts) contest).reason = none) :
    contest.reason = none ∧
      (reduces.foldl (compete g shifts) contest).keepShift = contest.keepShift ∧
      (reduces.foldl (compete g shifts) contest).reduces = reduces.reverse ++ contest.reduces := by
  induction reduces generalizing contest with
  | nil => exact ⟨h, rfl, rfl⟩
  | cons r reduces ih =>
      rw [List.foldl_cons] at h ⊢
      obtain ⟨hreason, hkeep, hreduces⟩ := ih h
      obtain ⟨hreason', hkeep', hreduces'⟩ := compete_of_reason_none hreason
      refine ⟨hreason', hkeep.trans hkeep', ?_⟩
      rw [hreduces, hreduces', List.reverse_cons, List.append_assoc, List.singleton_append]

/-- How the shift of a cell fares against the reductions of the highest level. -/
def contestOf (g : Grammar) (c : Candidates) : Contest :=
  if c.shift.isSome then
    (rankReduces g c.reduces).1.foldl (compete g (c.shiftPrecedence.filterMap id))
      ⟨true, [], (rankReduces g c.reduces).2⟩
  else ⟨false, (rankReduces g c.reduces).1.reverse, (rankReduces g c.reduces).2⟩

/-- The actions that are left of a cell. -/
def keptOf (g : Grammar) (c : Candidates) : List Action :=
  (if (contestOf g c).keepShift then c.shiftAction else []) ++
    (contestOf g c).reduces.reverse.map reduceAction

/-- Nothing is dropped without a reason. -/
theorem keptOf_of_reason_none {g : Grammar} {c : Candidates} (h : (contestOf g c).reason = none) :
    keptOf g c = c.actions := by
  rw [keptOf, actions]
  rw [contestOf] at h ⊢
  cases hshift : c.shift with
  | none =>
      rw [hshift] at h
      have hranked := rankReduces_of_reason_none h
      simp [hranked, shiftAction, hshift]
  | some target =>
      rw [hshift] at h
      obtain ⟨hreason, hkeep, hreduces⟩ := foldl_compete_of_reason_none h
      have hranked := rankReduces_of_reason_none hreason
      rw [Option.isSome_some, if_pos rfl, hkeep, hreduces]
      simp [hranked]

/-- Precedence and associativity are the only reasons of a contest. -/
def IsRanked (reason : Option ResolutionReason) : Prop :=
  reason ≠ some .declaredConflict ∧ reason ≠ some .policy

theorem isRanked_rankReduces (g : Grammar) (reduces : List Nat) :
    IsRanked (rankReduces g reduces).2 := by
  rw [rankReduces]
  split
  · simp only
    split
    · exact ⟨by simp, by simp⟩
    · exact ⟨by simp, by simp⟩
  · exact ⟨by simp, by simp⟩

theorem isRanked_compete {g : Grammar} {shifts : List Precedence} {contest : Contest} {r : Nat}
    (h : IsRanked contest.reason) : IsRanked (compete g shifts contest r).reason := by
  rw [compete]
  split
  · exact h
  · simp only
    split
    · exact ⟨by simp, by simp⟩
    · split
      · exact ⟨by simp, by simp⟩
      · split
        · split
          · exact ⟨by simp, by simp⟩
          · exact ⟨by simp, by simp⟩
          · exact ⟨by simp, by simp⟩
          · exact h
        · exact h

theorem isRanked_contestOf (g : Grammar) (c : Candidates) : IsRanked (contestOf g c).reason := by
  have hranked := isRanked_rankReduces g c.reduces
  rw [contestOf]
  split
  · exact foldl_induction (fun _ (contest : Contest) => IsRanked contest.reason) hranked
      fun _ _ _ _ _ h => isRanked_compete h
  · exact hranked

/-- All rules that the conflict is between are in one declared conflict. -/
def isDeclared (g : Grammar) (kernel : List Item) (c : Candidates) : Bool :=
  g.conflicts.any fun set => (involved g kernel (contestOf g c).reduces.reverse).all set.contains

theorem resolve_eq (g : Grammar) (policy : ConflictPolicy) (state : Nat) (kernel : List Item)
    (lookahead : Symbol) (c : Candidates) : c.resolve g policy state kernel lookahead =
      if c.actions.length ≤ 1 then .ok ⟨c.actions, [], none⟩
      else if (keptOf g c).length ≤ 1 then .ok (c.keep (keptOf g c) (contestOf g c).reason)
      else if c.isDeclared g kernel then .ok (c.keep (keptOf g c) (some .declaredConflict))
      else
        match policy with
        | .strict => .error (describe g state kernel lookahead (keptOf g c))
        | .preferShift => .ok (c.keep ((keptOf g c).take 1) (some .policy)) :=
  rfl

/-- How the candidates of a cell were settled. -/
inductive Settled (g : Grammar) (policy : ConflictPolicy) (kernel : List Item) (c : Candidates) :
    Outcome → Prop
  | clear (hclear : c.actions.length ≤ 1) : Settled g policy kernel c ⟨c.actions, [], none⟩
  | ranked (hmany : 1 < c.actions.length) (hkept : (keptOf g c).length ≤ 1) :
      Settled g policy kernel c (c.keep (keptOf g c) (contestOf g c).reason)
  | declared (set : List Symbol) (hset : set ∈ g.conflicts)
      (hinvolved : ∀ s ∈ involved g kernel (contestOf g c).reduces.reverse, s ∈ set) :
      Settled g policy kernel c (c.keep (keptOf g c) (some .declaredConflict))
  | policy (hpolicy : policy = .preferShift) :
      Settled g policy kernel c (c.keep ((keptOf g c).take 1) (some .policy))

theorem settled_of_resolve {g : Grammar} {policy : ConflictPolicy} {state : Nat}
    {kernel : List Item} {lookahead : Symbol} {c : Candidates} {outcome : Outcome}
    (h : c.resolve g policy state kernel lookahead = .ok outcome) :
    Settled g policy kernel c outcome := by
  rw [resolve_eq] at h
  by_cases hclear : c.actions.length ≤ 1
  · rw [if_pos hclear] at h
    cases h
    exact .clear hclear
  rw [if_neg hclear] at h
  by_cases hkept : (keptOf g c).length ≤ 1
  · rw [if_pos hkept] at h
    cases h
    exact .ranked (Nat.lt_of_not_le hclear) hkept
  rw [if_neg hkept] at h
  by_cases hdeclared : c.isDeclared g kernel = true
  · rw [if_pos hdeclared] at h
    cases h
    obtain ⟨set, hset, hall⟩ := List.any_eq_true.1 hdeclared
    exact .declared set hset fun s hs => List.contains_iff_mem.1 (List.all_eq_true.1 hall s hs)
  rw [if_neg hdeclared] at h
  cases policy with
  | strict => cases h
  | preferShift =>
      cases h
      exact .policy rfl

/-- A cell that is settled without a reason had at most one action, which it keeps. -/
theorem resolve_of_reason_none {g : Grammar} {policy : ConflictPolicy} {state : Nat}
    {kernel : List Item} {lookahead : Symbol} {c : Candidates} {outcome : Outcome}
    (h : c.resolve g policy state kernel lookahead = .ok outcome) (hreason : outcome.reason = none) :
    c.actions.length ≤ 1 ∧ outcome.kept = c.actions := by
  cases settled_of_resolve h with
  | clear hclear => exact ⟨hclear, rfl⟩
  | ranked hmany hkept =>
      rw [keptOf_of_reason_none hreason] at hkept
      omega
  | declared => cases hreason
  | policy => cases hreason

/-- There is something to settle exactly where there are several actions. -/
theorem reason_eq_none_iff {g : Grammar} {policy : ConflictPolicy} {state : Nat}
    {kernel : List Item} {lookahead : Symbol} {c : Candidates} {outcome : Outcome}
    (h : c.resolve g policy state kernel lookahead = .ok outcome) :
    outcome.reason = none ↔ c.actions.length ≤ 1 := by
  constructor
  · exact fun hreason => (resolve_of_reason_none h hreason).1
  · intro hclear
    rw [resolve, if_pos hclear] at h
    cases h
    rfl

/-- A declared conflict has several actions to keep. -/
theorem many_of_declared {g : Grammar} {policy : ConflictPolicy} {state : Nat}
    {kernel : List Item} {lookahead : Symbol} {c : Candidates} {outcome : Outcome}
    (h : c.resolve g policy state kernel lookahead = .ok outcome)
    (hreason : outcome.reason = some .declaredConflict) : 2 ≤ outcome.kept.length := by
  rw [resolve_eq] at h
  split at h
  · cases h
    cases hreason
  split at h
  · cases h
    exact absurd hreason (isRanked_contestOf g c).1
  rename_i hkept
  split at h
  · cases h
    exact Nat.lt_of_not_le hkept
  cases policy with
  | strict => cases h
  | preferShift =>
      cases h
      cases hreason

/-! ### What is kept -/

theorem rankReduces_sublist (g : Grammar) (reduces : List Nat) :
    (rankReduces g reduces).1.Sublist reduces := by
  rw [rankReduces]
  split
  · simp only
    split
    · exact List.filter_sublist
    · exact List.Sublist.refl _
  · exact List.Sublist.refl _

theorem compete_sublist (g : Grammar) (shifts : List Precedence) (contest : Contest) (r : Nat) :
    (compete g shifts contest r).reduces.Sublist (r :: contest.reduces) := by
  have hself : contest.reduces.Sublist (r :: contest.reduces) := List.sublist_cons_self r _
  rw [compete]
  split
  · exact List.Sublist.refl _
  · simp only
    split
    · exact List.Sublist.refl _
    · split
      · exact hself
      · split
        · split
          · exact List.Sublist.refl _
          · exact hself
          · exact hself
          · exact List.Sublist.refl _
        · exact List.Sublist.refl _

theorem foldl_compete_sublist (g : Grammar) (shifts : List Precedence) (reduces : List Nat)
    (contest : Contest) :
    (reduces.foldl (compete g shifts) contest).reduces.Sublist (reduces.reverse ++ contest.reduces) := by
  induction reduces generalizing contest with
  | nil => exact List.Sublist.refl _
  | cons r reduces ih =>
      rw [List.foldl_cons, List.reverse_cons, List.append_assoc, List.singleton_append]
      exact (ih _).trans ((compete_sublist g shifts contest r).append_left _)

/-- The reductions that are left stand in their order. -/
theorem reduces_contestOf_sublist (g : Grammar) (c : Candidates) :
    (contestOf g c).reduces.reverse.Sublist c.reduces := by
  have hranked := rankReduces_sublist g c.reduces
  rw [contestOf]
  split
  · have hleft := foldl_compete_sublist g (c.shiftPrecedence.filterMap id) (rankReduces g c.reduces).1
      ⟨true, [], (rankReduces g c.reduces).2⟩
    rw [List.append_nil] at hleft
    have hreverse := hleft.reverse
    rw [List.reverse_reverse] at hreverse
    exact hreverse.trans hranked
  · simpa using hranked

theorem keptOf_sublist (g : Grammar) (c : Candidates) : (keptOf g c).Sublist c.actions := by
  rw [keptOf, actions]
  refine List.Sublist.append ?_ ((reduces_contestOf_sublist g c).map reduceAction)
  split
  · exact List.Sublist.refl _
  · exact List.nil_sublist _

/-- What is kept stands in the order of the candidates. -/
theorem Settled.kept_sublist {g : Grammar} {policy : ConflictPolicy} {kernel : List Item}
    {c : Candidates} {outcome : Outcome} (h : Settled g policy kernel c outcome) :
    outcome.kept.Sublist c.actions := by
  cases h with
  | clear => exact List.Sublist.refl _
  | ranked => exact keptOf_sublist g c
  | declared => exact keptOf_sublist g c
  | policy => exact (List.take_sublist _ _).trans (keptOf_sublist g c)

theorem Settled.kept_subset {g : Grammar} {policy : ConflictPolicy} {kernel : List Item}
    {c : Candidates} {outcome : Outcome} (h : Settled g policy kernel c outcome) :
    outcome.kept ⊆ c.actions :=
  h.kept_sublist.subset

theorem Settled.discarded_sublist {g : Grammar} {policy : ConflictPolicy} {kernel : List Item}
    {c : Candidates} {outcome : Outcome} (h : Settled g policy kernel c outcome) :
    outcome.discarded.Sublist c.actions := by
  cases h with
  | clear => exact List.nil_sublist _
  | ranked => exact List.filter_sublist
  | declared => exact List.filter_sublist
  | policy => exact List.filter_sublist

/-- What is not kept is discarded. -/
theorem Settled.mem_discarded {g : Grammar} {policy : ConflictPolicy} {kernel : List Item}
    {c : Candidates} {outcome : Outcome} (h : Settled g policy kernel c outcome) {action : Action} :
    action ∈ outcome.discarded ↔ action ∈ c.actions ∧ action ∉ outcome.kept := by
  cases h with
  | clear => simp
  | ranked => simp [keep]
  | declared => simp [keep]
  | policy => simp [keep]

/-- Only a declared conflict keeps several actions. -/
theorem Settled.reason_of_many {g : Grammar} {policy : ConflictPolicy} {kernel : List Item}
    {c : Candidates} {outcome : Outcome} (h : Settled g policy kernel c outcome)
    (hmany : 2 ≤ outcome.kept.length) : outcome.reason = some .declaredConflict := by
  cases h with
  | clear hclear => exact absurd hclear (Nat.not_le.2 hmany)
  | ranked _ hkept => exact absurd hkept (Nat.not_le.2 hmany)
  | declared => rfl
  | policy =>
      rw [keep, List.length_take] at hmany
      omega

theorem largest_mem {levels : List Int32} (h : levels ≠ []) : largest levels ∈ levels := by
  cases levels with
  | nil => exact absurd rfl h
  | cons x levels => simpa [largest] using mem_foldl_choose (fun y best => best < y) x levels

/-- Some reduction has the highest level. -/
theorem rankReduces_ne_nil {g : Grammar} {reduces : List Nat} (h : reduces ≠ []) :
    (rankReduces g reduces).1 ≠ [] := by
  rw [rankReduces]
  split
  · simp only
    split
    · have hlevels : (reduces.map fun r => level (reducePrecedence g r)) ≠ [] :=
        mt List.map_eq_nil_iff.1 h
      obtain ⟨r, hr, hlevel⟩ := List.mem_map.1 (largest_mem hlevels)
      exact List.ne_nil_of_mem (List.mem_filter.2 ⟨hr, decide_eq_true hlevel⟩)
    · exact h
  · exact h

/-- Without a shift one of the reductions is kept. -/
theorem Settled.kept_ne_nil {g : Grammar} {policy : ConflictPolicy} {kernel : List Item}
    {c : Candidates} {outcome : Outcome} (h : Settled g policy kernel c outcome)
    (hshift : c.shift = none) (hreduces : c.reduces ≠ []) : outcome.kept ≠ [] := by
  have hkept : keptOf g c ≠ [] := by
    have hranked := rankReduces_ne_nil (g := g) hreduces
    simpa [keptOf, contestOf, hshift] using hranked
  cases h with
  | clear => simpa [actions, shiftAction, hshift] using hreduces
  | ranked => exact hkept
  | declared => exact hkept
  | policy => simpa [keep] using hkept

theorem eq_zero_of_reduceAction_eq_accept {p : Nat} (h : reduceAction p = .accept) : p = 0 := by
  rw [reduceAction] at h
  by_cases hzero : p = 0
  · exact hzero
  · rw [if_neg hzero] at h
    cases h

theorem accept_notMem_shiftAction (c : Candidates) : .accept ∉ c.shiftAction := by
  rw [shiftAction]
  cases c.shift with
  | none => simp
  | some target => simp

/-- No candidate is an error or a list of several actions. -/
theorem plain_of_mem_actions {c : Candidates} {action : Action} (h : action ∈ c.actions) :
    action ≠ .error ∧ ∀ entry, action ≠ .ambig entry := by
  rcases List.mem_append.1 h with h | h
  · obtain ⟨target, _, rfl⟩ := Option.map_eq_some_iff.1 (Option.mem_toList.1 h)
    simp
  · obtain ⟨p, _, rfl⟩ := List.mem_map.1 h
    rw [reduceAction]
    split
    · simp
    · simp

theorem accept_mem_append_reduces {c : Candidates} {shifts : List Action} {reduces : List Nat}
    (hshifts : shifts ⊆ c.shiftAction) (h : .accept ∈ shifts ++ reduces.map reduceAction) :
    0 ∈ reduces := by
  rcases List.mem_append.1 h with hshift | hreduce
  · exact absurd (hshifts hshift) (accept_notMem_shiftAction c)
  · obtain ⟨r, hr, haccept⟩ := List.mem_map.1 hreduce
    rw [← eq_zero_of_reduceAction_eq_accept haccept]
    exact hr

theorem zero_mem_reduces_of_accept {c : Candidates} (h : .accept ∈ c.actions) : 0 ∈ c.reduces :=
  accept_mem_append_reduces (List.Subset.refl _) h

/-- The parse is never accepted beside other actions: a declared conflict would have to name the
start production. -/
theorem Settled.accept_notMem {g : Grammar} {policy : ConflictPolicy} {kernel : List Item}
    {c : Candidates} {outcome : Outcome} (h : Settled g policy kernel c outcome)
    (hconflicts : ∀ set ∈ g.conflicts, g.origin (g.itemLhs ⟨0, 0⟩) ∉ set)
    (hmany : 2 ≤ outcome.kept.length) : .accept ∉ outcome.kept := by
  cases h with
  | clear hclear =>
      simp only at hmany
      omega
  | ranked _ hkept =>
      simp only [keep] at hmany
      omega
  | declared set hset hinvolved =>
      intro haccept
      simp only [keep, keptOf] at haccept
      have hshifts : (if (contestOf g c).keepShift then c.shiftAction else []) ⊆ c.shiftAction := by
        split
        · exact List.Subset.refl _
        · exact List.nil_subset _
      have hzero := accept_mem_append_reduces hshifts haccept
      refine hconflicts set hset (hinvolved _ ?_)
      rw [involved, List.map_append]
      refine List.mem_append_right _ (List.mem_map_of_mem ?_)
      exact List.mem_map_of_mem (f := fun r => g.itemLhs ⟨r, 0⟩) hzero
  | policy =>
      simp only [keep, List.length_take] at hmany
      omega

end IncrementalLR.Candidates
