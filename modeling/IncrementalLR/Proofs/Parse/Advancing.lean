import IncrementalLR.Proofs.Parse.Forks
import IncrementalLR.Proofs.Parse.Resuming

/-!
# One operation seen from outside

An operation either begins a recovery, which only happens where a single version is left and nothing
is accepted, or it leaves the other versions as they are, drops nothing that was accepted and makes
no more versions than there may be.
-/

namespace IncrementalLR

namespace ParseSetting

/-- What an operation on a version keeps if it does not begin a recovery. -/
structure Keeps (setting : ParseSetting) (i : Nat) (s s' : ParseState) : Prop where
  attempts : s'.attempts = s.attempts
  accepted : s.accepted <+: s'.accepted
  others : s.versions.eraseIdx i ⊆ s'.versions
  length : s'.versions.length ≤ max s.versions.length setting.options.maxVersions

/-- An operation begins a recovery of the only version, and is stopped or carries it out. -/
structure Attempts (setting : ParseSetting) (old : Option ReuseCursor) (s : ParseState) (v : Version)
    (result : ParseState × Option ParseStatus) : Prop where
  alone : s.versions = [v]
  accepted : s.accepted = []
  recovers : ∃ (s' : ParseState) (w : Version) (t : Subtree), s'.Sound (setting.reaching old) ∧
    s'.versions = [w] ∧ s'.accepted = [] ∧ w.position = v.position ∧ w.lookahead = some t ∧
    t.isLeaf = true ∧ s'.attempts = (s.attempts.1 + 1, s.attempts.2 + 1) ∧
    (result = (s', some .recoveryExhausted) ∨ result = (setting.recover s' 0 w t, none))

variable {setting : ParseSetting} {old : Option ReuseCursor} {s s' : ParseState} {i : Nat}
  {v : Version} {t : Subtree}

theorem Attempts.attempts_eq {result : ParseState × Option ParseStatus}
    (h : setting.Attempts old s v result) :
    result.1.attempts = (s.attempts.1 + 1, s.attempts.2 + 1) := by
  obtain ⟨s', w, t, _, _, _, _, _, _, hattempts, rfl | rfl⟩ := h.recovers
  · exact hattempts
  · exact (attempts_recover w t).trans hattempts

/-! ### Actions -/

theorem eraseIdx_subset_setVersion (s : ParseState) (i : Nat) (w : Version) :
    s.versions.eraseIdx i ⊆ (s.setVersion i w).versions := by
  rw [ParseState.setVersion, ← List.eraseIdx_set_eq (a := w)]
  exact fun _ => List.mem_of_mem_eraseIdx

theorem eraseIdx_subset_apply (setting : ParseSetting) (s : ParseState) (i : Nat) (t : Subtree)
    (action : Action) :
    s.versions.eraseIdx i ⊆ (setting.apply s i t action).versions := by
  cases action with
  | shift next =>
      rw [apply, shift]
      split
      · exact fun _ => List.mem_of_mem_eraseIdx
      · exact eraseIdx_subset_setVersion s i _
  | reduce p =>
      rw [apply, reduce]
      split
      · exact fun _ => List.mem_of_mem_eraseIdx
      · exact eraseIdx_subset_setVersion s i _
  | accept =>
      rw [apply, accept]
      split
      · exact fun _ => List.mem_of_mem_eraseIdx
      · exact List.Subset.refl _
  | error => exact fun _ => List.mem_of_mem_eraseIdx
  | goto => exact fun _ => List.mem_of_mem_eraseIdx
  | ambig => exact fun _ => List.mem_of_mem_eraseIdx

theorem accepted_shift (state : StateId) (t : Subtree) :
    (shift s i state t).accepted = s.accepted := by
  rw [shift]
  split
  · rfl
  · rfl

theorem accepted_reduce (p : ProductionId) : (setting.reduce s i p).accepted = s.accepted := by
  rw [reduce]
  split
  · rfl
  · rfl

theorem accepted_prefix_apply (setting : ParseSetting) (s : ParseState) (i : Nat) (t : Subtree)
    (action : Action) :
    s.accepted <+: (setting.apply s i t action).accepted := by
  cases action with
  | shift next => rw [apply, accepted_shift]
  | reduce p => rw [apply, accepted_reduce]
  | accept =>
      rw [apply, accept]
      split
      · exact List.prefix_refl _
      · exact List.prefix_append _ _
  | error => exact List.prefix_refl _
  | goto => exact List.prefix_refl _
  | ambig => exact List.prefix_refl _

/-- An action on the last version leaves those in front of it as they are. -/
theorem exists_apply_last (setting : ParseSetting) (v : Version) (t : Subtree) (s : ParseState)
    (action : Action) :
    ∃ made, (setting.apply { s with versions := s.versions ++ [v] } s.versions.length t
        action).versions = s.versions ++ made ∧
      ∀ w ∈ made, setting.Makes v t action (.going w) ∨ ∀ r, ¬ setting.Makes v t action r := by
  have hlast : (s.versions ++ [v])[s.versions.length]? = some v := by simp
  have hnone : (∀ r, ¬ setting.Makes v t action r) →
      ∀ w ∈ [v], setting.Makes v t action (.going w) ∨ ∀ r, ¬ setting.Makes v t action r :=
    fun hmakes _ _ => .inr hmakes
  cases action with
  | shift next =>
      refine ⟨[shiftVersion v next t false], ?_, List.forall_mem_singleton.2 (.inl (.shift next))⟩
      simp [apply, shift, ParseState.setVersion, ParseState.count]
  | reduce p =>
      refine ⟨[_], ?_, List.forall_mem_singleton.2
        (.inl (.reduce p { s with versions := s.versions ++ [v] }.isForked s.nextId))⟩
      simp only [apply, reduce, hlast, ParseState.setVersion, ParseState.count]
      rw [List.set_append_right _ _ (Nat.le_refl _), Nat.sub_self]
      rfl
  | accept =>
      refine ⟨[], ?_, fun _ hw => absurd hw List.not_mem_nil⟩
      simp [apply, accept, ParseState.removeVersion, List.eraseIdx_append_of_length_le]
  | error => exact ⟨[v], rfl, hnone fun _ hmakes => by cases hmakes⟩
  | goto => exact ⟨[v], rfl, hnone fun _ hmakes => by cases hmakes⟩
  | ambig => exact ⟨[v], rfl, hnone fun _ hmakes => by cases hmakes⟩

/-- Forks come behind the versions that are there, as long as there may be more. -/
theorem exists_fork (setting : ParseSetting) (v : Version) (t : Subtree) (s : ParseState)
    (actions : List Action) :
    ∃ made, (setting.fork v t s actions).versions = s.versions ++ made ∧
      ∀ w ∈ made, ∃ action ∈ actions,
        setting.Makes v t action (.going w) ∨ ∀ r, ¬ setting.Makes v t action r := by
  induction actions generalizing s with
  | nil => exact ⟨[], (List.append_nil _).symm, nofun⟩
  | cons action actions ih =>
      rw [fork]
      split
      · exact ⟨[], (List.append_nil _).symm, nofun⟩
      · obtain ⟨first, hfirst, hmade⟩ := exists_apply_last setting v t s action
        obtain ⟨rest, hrest, hothers⟩ := ih (setting.apply
          { s with versions := s.versions ++ [v] } s.versions.length t action)
        refine ⟨first ++ rest, ?_, ?_⟩
        · rw [← List.append_assoc, ← hfirst]
          exact hrest
        · refine List.forall_mem_append.2 ⟨fun w hw => ⟨action, List.mem_cons_self, hmade w hw⟩, ?_⟩
          intro w hw
          obtain ⟨other, hother, hmakes⟩ := hothers w hw
          exact ⟨other, List.mem_cons_of_mem action hother, hmakes⟩

theorem accepted_prefix_fork (v : Version) (t : Subtree) (s : ParseState) (actions : List Action) :
    s.accepted <+: (setting.fork v t s actions).accepted := by
  induction actions generalizing s with
  | nil => exact List.prefix_refl _
  | cons action actions ih =>
      rw [fork]
      split
      · exact List.prefix_refl _
      · exact (accepted_prefix_apply setting { s with versions := s.versions ++ [v] } _ t
          action).trans (ih _)

theorem length_fork_le_max (v : Version) (t : Subtree) (s : ParseState) (actions : List Action) :
    (setting.fork v t s actions).versions.length
      ≤ max s.versions.length setting.options.maxVersions := by
  induction actions generalizing s with
  | nil => exact le_max_left _ _
  | cons action actions ih =>
      rw [fork]
      split
      · exact le_max_left _ _
      · rename_i hroom
        have hle : (setting.apply { s with versions := s.versions ++ [v] } s.versions.length t
            action).versions.length ≤ s.versions.length + 1 := by
          refine (length_apply_le t action).trans ?_
          rw [List.length_append, List.length_singleton]
        refine (ih _).trans ?_
        omega

/-- The actions on a version, each on a copy of its own but for the first. -/
theorem keeps_actions (setting : ParseSetting) (v : Version) (t : Subtree) (s : ParseState)
    (action : Action) (others : List Action) (hi : i < s.versions.length) :
    setting.Keeps i s (setting.apply (setting.fork v t s others) i t action) where
  attempts := (attempts_apply ..).trans (attempts_fork ..)
  accepted := (accepted_prefix_fork v t s others).trans (accepted_prefix_apply setting _ i t action)
  others := by
    obtain ⟨made, hmade, _⟩ := exists_fork setting v t s others
    refine List.Subset.trans ?_ (eraseIdx_subset_apply setting _ i t action)
    rw [hmade, List.eraseIdx_append_of_lt_length hi]
    exact List.subset_append_left _ _
  length := (length_apply_le t action).trans (length_fork_le_max v t s others)

theorem Keeps.refl (i : Nat) (s : ParseState) : setting.Keeps i s s :=
  ⟨rfl, List.prefix_refl _, fun _ => List.mem_of_mem_eraseIdx, le_max_left _ _⟩

/-- Only the version itself is replaced. -/
theorem keeps_of_set {w : Version} (hversions : s'.versions = s.versions.set i w)
    (haccepted : s'.accepted = s.accepted) (hattempts : s'.attempts = s.attempts) :
    setting.Keeps i s s' := by
  refine ⟨hattempts, by rw [haccepted], ?_, ?_⟩
  · rw [hversions]
    exact eraseIdx_subset_setVersion s i w
  · rw [hversions, List.length_set]
    exact le_max_left _ _

theorem keeps_reduce (s : ParseState) (i : Nat) (p : ProductionId) :
    setting.Keeps i s (setting.reduce s i p) := by
  rw [reduce]
  split
  · exact .refl i s
  · exact keeps_of_set rfl rfl rfl

theorem keeps_shift (s : ParseState) (i : Nat) (state : StateId) (t : Subtree) :
    setting.Keeps i s (shift s i state t) := by
  rw [shift]
  split
  · exact .refl i s
  · exact keeps_of_set rfl rfl rfl

theorem keeps_advanceReused (s : ParseState) (i : Nat) (v : Version) (t : Subtree) :
    setting.Keeps i s (setting.advanceReused s i v t) := by
  rw [advanceReused]
  split
  · exact keeps_reduce s i _
  · split
    · exact keeps_of_set rfl rfl rfl
    · exact keeps_of_set rfl rfl rfl
  · exact keeps_of_set rfl rfl rfl

theorem keeps_or_attempts_handleError (hs : s.Sound (setting.reaching old))
    (hv : s.versions[i]? = some v) (ht : v.lookahead = some t) (hleaf : t.isLeaf = true)
    (hnone : setting.table.actionList v.stack.state t.symbol = []) :
    setting.Keeps i s (setting.handleError s i v t).1 ∨
      setting.Attempts old s v (setting.handleError s i v t) := by
  have hbroken := hs.setVersion (i := i)
    (.move v _ (hs.of_getElem? hv) (.breakPending v t ht hleaf hnone))
  rw [handleError]
  simp only
  split
  · refine .inl ⟨rfl, List.prefix_refl _, List.Subset.refl _, ?_⟩
    exact (List.length_eraseIdx_le s.versions i).trans (le_max_left _ _)
  · rename_i hothers
    obtain ⟨hforked, hnothing⟩ : s.isForked = false ∧ s.accepted = [] := by simpa using hothers
    obtain ⟨hsingle, rfl⟩ := ParseState.eq_singleton hforked hv
    split
    · exact .inl (keeps_of_set rfl rfl rfl)
    · have hsound : { s.setVersion 0 { v with stack := (breakPending setting.table v.stack).2 } with
          recoveries := s.recoveries + 1
          stats := { s.stats with recoveries := s.stats.recoveries + 1 } }.Sound
            (setting.reaching old) :=
        ⟨hbroken.versions, hbroken.accepted, hbroken.cache, hbroken.reuse, hbroken.input,
          hbroken.alive⟩
      have hset := versions_setVersion hsingle
        { v with stack := (breakPending setting.table v.stack).2 }
      refine .inr ⟨hsingle, hnothing, _, _, t, hsound, hset, hnothing, rfl, ht, hleaf, rfl, ?_⟩
      split
      · exact .inl rfl
      · exact .inr rfl

/-- An operation begins a recovery, or it keeps what is beside its version. -/
theorem keeps_or_attempts (hs : s.Sound (setting.reaching old)) (hv : s.versions[i]? = some v) :
    setting.Keeps i s (setting.advance s i).1 ∨ setting.Attempts old s v (setting.advance s i) := by
  obtain ⟨hsound, hset⟩ := sound_looking hs hv
  have haccepted : (setting.looking s i v).accepted = s.accepted := accepted_fetch v
  have hattempts : (setting.looking s i v).attempts = s.attempts := attempts_fetch v
  have hlength := length_looking hs hv
  have hothers := eraseIdx_looking hs hv
  have hoperation := operation_advance setting hv
  obtain ⟨hlt, _⟩ := List.getElem?_eq_some_iff.1 hset
  generalize setting.looking s i v = s₁ at *
  generalize (setting.fetch s v).1 = t at *
  generalize setting.advance s i = result at *
  have hkeeps : ∀ {s' : ParseState}, setting.Keeps i s₁ s' → setting.Keeps i s s' :=
    fun h => ⟨h.attempts.trans hattempts, haccepted ▸ h.accepted, hothers ▸ h.others,
      hlength ▸ h.length⟩
  cases hoperation with
  | reused => exact .inl (hkeeps (keeps_advanceReused s₁ i _ t))
  | extra => exact .inl (hkeeps (keeps_shift s₁ i _ t))
  | error hleaf hnone =>
      refine (keeps_or_attempts_handleError hsound hset rfl hleaf hnone).imp hkeeps fun h => ?_
      obtain ⟨hsingle, rfl⟩ : s.versions = [v] ∧ i = 0 := by
        refine ParseState.eq_singleton (decide_eq_false ?_) hv
        rw [← hlength, h.alone]
        exact Nat.lt_irrefl 1
      obtain ⟨s', w, x, hs', hw, hnothing, hposition, hx, hleaf', hcount, hresult⟩ := h.recovers
      exact ⟨hsingle, haccepted ▸ h.accepted, s', w, x, hs', hw, hnothing, hposition, hx, hleaf',
        hattempts ▸ hcount, hresult⟩
  | actions ambigs action others =>
      have hcounted := keeps_actions setting { v with lookahead := some t } t
        (s₁.count fun c => { c with ambigs := ambigs }) action others hlt
      exact .inl (hkeeps ⟨hcounted.attempts, hcounted.accepted, hcounted.others, hcounted.length⟩)

end ParseSetting

end IncrementalLR
