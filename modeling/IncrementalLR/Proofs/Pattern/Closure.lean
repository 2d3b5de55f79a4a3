import Mathlib.Data.Finset.Card
import IncrementalLR.Proofs.Pattern.Construction

/-!
# States that are reached without reading

Branches and assertions are followed by visiting states that are still to do, each of them once. With
enough fuel the states visited are just those that can be reached. A state in range makes no more than
a fixed number of states to do, which bounds the fuel.
-/

namespace IncrementalLR.Pattern

open Relation (ReflTransGen)

/-! ### Visits -/

/-- Visits what is to do and what follows from it. -/
def visit (next : Nat → List Nat) : Nat → List Nat → List Nat → List Nat
  | 0, _, seen => seen
  | _, [], seen => seen
  | fuel + 1, s :: todo, seen =>
    if seen.contains s then visit next fuel todo seen
    else visit next fuel (next s ++ todo) (s :: seen)

/-- The number of states that are not yet seen. -/
def unseen (bound : Nat) (seen : List Nat) : Nat := (Finset.range bound \ seen.toFinset).card

theorem unseen_le (bound : Nat) (seen : List Nat) : unseen bound seen ≤ bound :=
  calc unseen bound seen ≤ (Finset.range bound).card := Finset.card_le_card Finset.sdiff_subset
    _ = bound := Finset.card_range bound

theorem unseen_cons_lt {bound s : Nat} {seen : List Nat} (hs : s < bound) (hnew : s ∉ seen) :
    unseen bound (s :: seen) < unseen bound seen := by
  rw [unseen, unseen, List.toFinset_cons, Finset.sdiff_insert]
  apply Finset.card_erase_lt_of_mem
  rw [Finset.mem_sdiff, Finset.mem_range, List.mem_toFinset]
  exact ⟨hs, hnew⟩

theorem unseen_cons_le (bound s : Nat) (seen : List Nat) :
    unseen bound (s :: seen) ≤ unseen bound seen := by
  apply Finset.card_le_card
  apply Finset.sdiff_subset_sdiff (Finset.Subset.refl _)
  rw [List.toFinset_cons]
  exact Finset.subset_insert s _

section

variable {next : Nat → List Nat} {todo seen : List Nat} {s t fuel bound width : Nat}

theorem nodup_visit (h : seen.Nodup) : (visit next fuel todo seen).Nodup := by
  fun_induction visit next fuel todo seen with
  | case1 => exact h
  | case2 => exact h
  | case3 _ _ _ _ _ ih => exact ih h
  | case4 fuel s todo seen hnew ih =>
      exact ih (List.nodup_cons.2 ⟨by simpa using hnew, h⟩)

theorem exists_of_mem_visit (h : t ∈ visit next fuel todo seen) :
    t ∈ seen ∨ ∃ s ∈ todo, ReflTransGen (fun s t => t ∈ next s) s t := by
  fun_induction visit next fuel todo seen with
  | case1 => exact .inl h
  | case2 => exact .inl h
  | case3 fuel s todo seen _ ih =>
      rcases ih h with hseen | ⟨s', hs', hreach⟩
      · exact .inl hseen
      · exact .inr ⟨s', List.mem_cons_of_mem _ hs', hreach⟩
  | case4 fuel s todo seen _ ih =>
      rcases ih h with hseen | ⟨s', hs', hreach⟩
      · rcases List.mem_cons.1 hseen with rfl | hseen
        · exact .inr ⟨t, List.mem_cons_self, .refl⟩
        · exact .inl hseen
      · rcases List.mem_append.1 hs' with hs' | hs'
        · exact .inr ⟨s, List.mem_cons_self, hreach.head hs'⟩
        · exact .inr ⟨s', List.mem_cons_of_mem _ hs', hreach⟩

/-- What follows from the states seen is seen or to do. -/
def Pending (next : Nat → List Nat) (todo seen : List Nat) : Prop :=
  ∀ s ∈ seen, ∀ t ∈ next s, t ∈ seen ∨ t ∈ todo

theorem Pending.skip (hs : s ∈ seen) (h : Pending next (s :: todo) seen) :
    Pending next todo seen := by
  intro s' hs' t ht
  rcases h s' hs' t ht with hseen | htodo
  · exact .inl hseen
  · rcases List.mem_cons.1 htodo with rfl | htodo
    · exact .inl hs
    · exact .inr htodo

theorem Pending.see (h : Pending next (s :: todo) seen) :
    Pending next (next s ++ todo) (s :: seen) := by
  intro s' hs' t ht
  rcases List.mem_cons.1 hs' with rfl | hs'
  · exact .inr (List.mem_append_left _ ht)
  · rcases h s' hs' t ht with hseen | htodo
    · exact .inl (List.mem_cons_of_mem _ hseen)
    · rcases List.mem_cons.1 htodo with rfl | htodo
      · exact .inl List.mem_cons_self
      · exact .inr (List.mem_append_right _ htodo)

/-- What a new state adds to do is paid for by its being seen. -/
theorem length_next_add_le (hwidth : ∀ s, (next s).length ≤ width)
    (hbound : ∀ s, bound ≤ s → next s = []) (hnew : s ∉ seen) :
    (next s).length + width * unseen bound (s :: seen) ≤ width * unseen bound seen := by
  by_cases hs : s < bound
  · calc (next s).length + width * unseen bound (s :: seen)
        ≤ width + width * unseen bound (s :: seen) := Nat.add_le_add_right (hwidth s) _
      _ = width * (unseen bound (s :: seen) + 1) := by rw [Nat.mul_succ, Nat.add_comm]
      _ ≤ width * unseen bound seen := Nat.mul_le_mul_left width (unseen_cons_lt hs hnew)
  · rw [hbound s (Nat.le_of_not_lt hs), List.length_nil, Nat.zero_add]
    exact Nat.mul_le_mul_left width (unseen_cons_le bound s seen)

/-- With enough fuel all that is seen or to do is visited. -/
theorem mem_visit (hwidth : ∀ s, (next s).length ≤ width) (hbound : ∀ s, bound ≤ s → next s = [])
    (hfuel : todo.length + width * unseen bound seen ≤ fuel) (ht : t ∈ seen ∨ t ∈ todo) :
    t ∈ visit next fuel todo seen := by
  fun_induction visit next fuel todo seen with
  | case1 todo seen =>
      have hnone : todo = [] := List.length_eq_zero_iff.1 (by omega)
      simpa [hnone] using ht
  | case2 => simpa using ht
  | case3 fuel s todo seen hold ih =>
      rw [List.contains_iff_mem] at hold
      rw [List.length_cons] at hfuel
      refine ih (by omega) ?_
      rcases ht with ht | ht
      · exact .inl ht
      · rcases List.mem_cons.1 ht with rfl | ht
        · exact .inl hold
        · exact .inr ht
  | case4 fuel s todo seen hnew ih =>
      rw [List.contains_iff_mem] at hnew
      rw [List.length_cons] at hfuel
      have hpaid := length_next_add_le hwidth hbound hnew
      refine ih (by rw [List.length_append]; omega) ?_
      rcases ht with ht | ht
      · exact .inl (List.mem_cons_of_mem _ ht)
      · rcases List.mem_cons.1 ht with rfl | ht
        · exact .inl List.mem_cons_self
        · exact .inr (List.mem_append_right _ ht)

/-- With enough fuel nothing is left to do at the end. -/
theorem closed_visit (hwidth : ∀ s, (next s).length ≤ width) (hbound : ∀ s, bound ≤ s → next s = [])
    (hfuel : todo.length + width * unseen bound seen ≤ fuel) (h : Pending next todo seen) :
    Pending next [] (visit next fuel todo seen) := by
  fun_induction visit next fuel todo seen with
  | case1 todo seen =>
      have hnone : todo = [] := List.length_eq_zero_iff.1 (by omega)
      exact hnone ▸ h
  | case2 => exact h
  | case3 fuel s todo seen hold ih =>
      rw [List.length_cons] at hfuel
      exact ih (by omega) (h.skip (List.contains_iff_mem.1 hold))
  | case4 fuel s todo seen hnew ih =>
      rw [List.contains_iff_mem] at hnew
      rw [List.length_cons] at hfuel
      have hpaid := length_next_add_le hwidth hbound hnew
      exact ih (by rw [List.length_append]; omega) h.see

/-- The states visited from the front are those that are reached. -/
theorem mem_visit_iff (hwidth : ∀ s, (next s).length ≤ width)
    (hbound : ∀ s, bound ≤ s → next s = []) (hfuel : todo.length + width * bound ≤ fuel) :
    t ∈ visit next fuel todo [] ↔ ∃ s ∈ todo, ReflTransGen (fun s t => t ∈ next s) s t := by
  have hunseen : todo.length + width * unseen bound [] ≤ fuel :=
    Nat.le_trans (Nat.add_le_add_left (Nat.mul_le_mul_left width (unseen_le bound [])) _) hfuel
  have hclosed := closed_visit hwidth hbound hunseen fun s hs => by cases hs
  constructor
  · intro h
    exact (exists_of_mem_visit h).resolve_left List.not_mem_nil
  · rintro ⟨s, hs, hreach⟩
    induction hreach with
    | refl => exact mem_visit hwidth hbound hunseen (.inr hs)
    | tail _ ht ih => exact (hclosed _ ih _ ht).resolve_right List.not_mem_nil

end

/-! ### Branches -/

variable {states : Array State} {s t : Nat}

/-- Where a branch leads. -/
def branchNext (states : Array State) (s : Nat) : List Nat :=
  match states[s]? with
  | some (.branch a b) => [a, b]
  | _ => []

/-- A state that is no branch. -/
def atRest (states : Array State) (s : Nat) : Bool :=
  match states[s]? with
  | some (.branch _ _) => false
  | _ => true

/-- A state leads to another over branches alone. -/
def Branches (states : Array State) : Nat → Nat → Prop :=
  ReflTransGen fun s t => t ∈ branchNext states s

theorem closeBranches_eq_filter_visit (states : Array State) (fuel : Nat) (todo seen : List Nat) :
    closeBranches states fuel todo seen (seen.filter (atRest states))
      = (visit (branchNext states) fuel todo seen).filter (atRest states) := by
  fun_induction visit (branchNext states) fuel todo seen with
  | case1 => rw [closeBranches]
  | case2 => rw [closeBranches]; omega
  | case3 fuel s todo seen hold ih => rw [closeBranches, if_pos hold, ih]
  | case4 fuel s todo seen hnew ih =>
      rw [closeBranches, if_neg hnew, ← ih]
      cases hs : states[s]? with
      | none => simp [branchNext, atRest, hs]
      | some state => cases state <;> simp [branchNext, atRest, hs]

theorem length_branchNext_le (states : Array State) (s : Nat) : (branchNext states s).length ≤ 2 := by
  rw [branchNext]
  split
  · exact Nat.le_refl 2
  · exact Nat.zero_le 2

theorem branchNext_of_size_le (hs : states.size ≤ s) : branchNext states s = [] := by
  rw [branchNext, Array.getElem?_eq_none hs]

theorem mem_closeBranches_iff {from_ : List Nat} :
    t ∈ closeBranches states (2 * states.size + from_.length + 1) from_ [] [] ↔
      atRest states t = true ∧ ∃ s ∈ from_, Branches states s t := by
  have hfilter := closeBranches_eq_filter_visit states (2 * states.size + from_.length + 1) from_ []
  rw [List.filter_nil] at hfilter
  rw [hfilter, List.mem_filter, mem_visit_iff (length_branchNext_le states)
    (fun s hs => branchNext_of_size_le hs) (by omega), and_comm]
  rfl

theorem nodup_closeBranches (fuel : Nat) (from_ : List Nat) :
    (closeBranches states fuel from_ [] []).Nodup := by
  have hfilter := closeBranches_eq_filter_visit states fuel from_ []
  rw [List.filter_nil] at hfilter
  rw [hfilter]
  exact (nodup_visit List.nodup_nil).filter _

/-! ### Closures of an automaton -/

namespace Automaton

/-- The states that are reached from a state over branches, as they were stored. -/
def closure (a : Automaton) (s : Nat) : List Nat := a.closures[s]?.getD []

theorem closure_ofExprs (exprs : List Expr) {s : Nat}
    (hs : s < (ofExprs exprs).states.size) :
    (ofExprs exprs).closure s = closeBranches (ofExprs exprs).states
      (2 * (ofExprs exprs).states.size + [s].length + 1) [s] [] [] := by
  have hclosures : (ofExprs exprs).closures = (Array.range (ofExprs exprs).states.size).map
      fun s => closeBranches (ofExprs exprs).states
        (2 * (ofExprs exprs).states.size + [s].length + 1) [s] [] [] := rfl
  rw [closure, hclosures, Array.getElem?_map, Array.getElem?_range, if_pos hs, Option.map_some,
    Option.getD_some]

theorem mem_closure_ofExprs_iff (exprs : List Expr) {s t : Nat}
    (hs : s < (ofExprs exprs).states.size) :
    t ∈ (ofExprs exprs).closure s ↔
      atRest (ofExprs exprs).states t = true ∧ Branches (ofExprs exprs).states s t := by
  rw [closure_ofExprs exprs hs, mem_closeBranches_iff]
  simp

theorem mem_start_ofExprs_iff (exprs : List Expr) {t : Nat} :
    t ∈ (ofExprs exprs).start ↔ atRest (ofExprs exprs).states t = true ∧
      ∃ s ∈ entriesOf exprs, Branches (ofExprs exprs).states s t :=
  mem_closeBranches_iff

theorem closure_of_size_le (exprs : List Expr) {s : Nat}
    (hs : (ofExprs exprs).states.size ≤ s) : (ofExprs exprs).closure s = [] := by
  have hsize : (ofExprs exprs).closures.size = (ofExprs exprs).states.size := by
    simp [ofExprs]
  rw [closure, Array.getElem?_eq_none (by omega), Option.getD_none]

/-- The states of an automaton lead to each other. -/
theorem lt_of_mem_targets {exprs : List Expr} (he : ∀ e ∈ exprs, e.CountsInOrder) {s t : Nat}
    {state : State} (hs : (ofExprs exprs).states[s]? = some state) (ht : t ∈ state.targets) :
    t < (ofExprs exprs).states.size :=
  (recognizes_foldl he).targets state (Array.mem_of_getElem? hs) t ht

theorem lt_of_branches {exprs : List Expr} (he : ∀ e ∈ exprs, e.CountsInOrder) {s t : Nat}
    (hs : s < (ofExprs exprs).states.size) (h : Branches (ofExprs exprs).states s t) :
    t < (ofExprs exprs).states.size := by
  induction h with
  | refl => exact hs
  | tail _ hnext _ =>
      rw [branchNext] at hnext
      split at hnext
      · rename_i hstate
        exact lt_of_mem_targets he hstate hnext
      · cases hnext

/-- A closure holds each state once at most, so that the fuel of an automaton is enough. -/
theorem length_closure_le {exprs : List Expr} (he : ∀ e ∈ exprs, e.CountsInOrder) (s : Nat) :
    ((ofExprs exprs).closure s).length ≤ (ofExprs exprs).states.size := by
  by_cases hs : s < (ofExprs exprs).states.size
  · have hnodup : ((ofExprs exprs).closure s).Nodup := by
      rw [closure_ofExprs exprs hs]
      exact nodup_closeBranches _ _
    calc ((ofExprs exprs).closure s).length = ((ofExprs exprs).closure s).toFinset.card :=
          (List.toFinset_card_of_nodup hnodup).symm
      _ ≤ (Finset.range (ofExprs exprs).states.size).card := by
          apply Finset.card_le_card
          intro t ht
          rw [List.mem_toFinset, mem_closure_ofExprs_iff exprs hs] at ht
          exact Finset.mem_range.2 (lt_of_branches he hs ht.2)
      _ = (ofExprs exprs).states.size := Finset.card_range _
  · rw [closure_of_size_le exprs (Nat.le_of_not_lt hs)]
    exact Nat.zero_le _

/-! ### Assertions -/

variable {before after : Option UInt8}

/-- Where an assertion leads that holds between two bytes. -/
def lookNext (a : Automaton) (before after : Option UInt8) (s : Nat) : List Nat :=
  match a.states[s]? with
  | some (.look assertion next) => if assertion.holds before after then a.closure next else []
  | _ => []

theorem closeLooks_eq_visit (a : Automaton) (fuel : Nat) (todo out : List Nat) :
    closeLooks a before after fuel todo out = visit (a.lookNext before after) fuel todo out := by
  fun_induction visit (a.lookNext before after) fuel todo out with
  | case1 => rw [closeLooks]
  | case2 => rw [closeLooks]; omega
  | case3 fuel s todo seen hold ih => rw [closeLooks, if_pos hold, ih]
  | case4 fuel s todo seen hnew ih =>
      rw [closeLooks, if_neg hnew, ← ih]
      cases hs : a.states[s]? with
      | none => simp [lookNext, hs]
      | some state =>
          cases state with
          | look assertion next =>
              by_cases hholds : assertion.holds before after = true
              · simp [lookNext, hs, hholds, closure]
              · simp [lookNext, hs, hholds]
          | _ => simp [lookNext, hs]

/-- A run settles the assertions: it keeps its states and reaches what follows from them. -/
theorem mem_settled_iff {exprs : List Expr} (he : ∀ e ∈ exprs, e.CountsInOrder) (r : Run) {t : Nat} :
    t ∈ (ofExprs exprs).settled r after ↔
      ∃ s ∈ r.states,
        Relation.ReflTransGen (fun s t => t ∈ (ofExprs exprs).lookNext r.before after s) s t := by
  rw [settled]
  split
  · have hwidth : ∀ s, ((ofExprs exprs).lookNext r.before after s).length
        ≤ (ofExprs exprs).states.size := by
      intro s
      rw [lookNext]
      split
      · split
        · exact length_closure_le he _
        · exact Nat.zero_le _
      · exact Nat.zero_le _
    have hbound : ∀ s, (ofExprs exprs).states.size ≤ s →
        (ofExprs exprs).lookNext r.before after s = [] := by
      intro s hs
      rw [lookNext, Array.getElem?_eq_none hs]
    rw [closeLooks_eq_visit]
    exact mem_visit_iff hwidth hbound (by rw [Nat.mul_succ]; omega)
  · rename_i hnone
    constructor
    · intro ht
      exact ⟨t, ht, .refl⟩
    · rintro ⟨s, hs, hreach⟩
      rcases Relation.ReflTransGen.cases_head hreach with rfl | ⟨t', hnext, _⟩
      · exact hs
      · -- a state that leads on is an assertion, and there is none in the run
        have hlooks : ∃ assertion next,
            (ofExprs exprs).states[s]? = some (.look assertion next) := by
          rw [lookNext] at hnext
          split at hnext
          · rename_i assertion next hstate
            exact ⟨assertion, next, hstate⟩
          · cases hnext
        obtain ⟨assertion, next, hstate⟩ := hlooks
        refine (hnone (List.any_eq_true.2 ⟨s, hs, ?_⟩)).elim
        rw [hstate]

end Automaton

end IncrementalLR.Pattern
