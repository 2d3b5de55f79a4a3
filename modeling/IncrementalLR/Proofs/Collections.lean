import Mathlib.Algebra.Order.BigOperators.Group.Finset
import Mathlib.Data.List.Forall2

/-!
# Arrays and association lists

What changing one place of an array does to the places of the array, what a look-up finds in a list
whose keys are distinct, and what lists related place by place have to do with each other.
-/

namespace IncrementalLR

variable {α : Type} {xs : Array α} {i j : Nat}

theorem getD_modify_self (hi : i < xs.size) (f : α → α) (d : α) :
    (xs.modify i f).getD i d = f (xs.getD i d) := by
  simp [Array.getD_eq_getD_getElem?, Array.getElem?_modify, Array.getElem?_eq_getElem hi]

theorem getD_modify_of_ne (hij : i ≠ j) (f : α → α) (d : α) :
    (xs.modify i f).getD j d = xs.getD j d := by
  simp [Array.getD_eq_getD_getElem?, Array.getElem?_modify, hij]

theorem modify_congr {f k : α → α} (h : ∀ a, xs[i]? = some a → f a = k a) :
    xs.modify i f = xs.modify i k := by
  refine Array.ext_getElem? fun j => ?_
  rw [Array.getElem?_modify, Array.getElem?_modify]
  split
  · rename_i heq
    subst heq
    exact Option.map_congr h
  · rfl

theorem modify_id (xs : Array α) (i : Nat) : xs.modify i id = xs := by
  refine Array.ext_getElem? fun j => ?_
  rw [Array.getElem?_modify]
  split <;> simp

theorem modify_modify (xs : Array α) (i : Nat) (f k : α → α) :
    (xs.modify i f).modify i k = xs.modify i (k ∘ f) := by
  refine Array.ext_getElem? fun j => ?_
  simp only [Array.getElem?_modify]
  split <;> simp

theorem getD_set!_self (hi : i < xs.size) (a d : α) : (xs.set! i a).getD i d = a := by
  simp [Array.getD_eq_getD_getElem?, hi]

theorem getD_set!_of_ne (hij : i ≠ j) (a d : α) : (xs.set! i a).getD j d = xs.getD j d := by
  simp [Array.getD_eq_getD_getElem?, hij]

theorem size_set! (xs : Array α) (i : Nat) (a : α) : (xs.set! i a).size = xs.size := by
  rw [Array.set!_eq_setIfInBounds, Array.size_setIfInBounds]

theorem getD_map {β : Type} (f : α → β) (d : α) : (xs.map f).getD i (f d) = f (xs.getD i d) := by
  simp [Array.getD_eq_getD_getElem?]

theorem getD_of_size_le (hi : xs.size ≤ i) (d : α) : xs.getD i d = d := by
  simp [Array.getD_eq_getD_getElem?, Array.getElem?_eq_none hi]

theorem getD_replicate {n : Nat} (hi : i < n) (a d : α) : (Array.replicate n a).getD i d = a := by
  simp [Array.getD_eq_getD_getElem?, hi]

theorem getD_replicate_none (n i : Nat) : (Array.replicate n (none : Option α)).getD i none = none := by
  rw [Array.getD_eq_getD_getElem?, Array.getElem?_replicate]
  split <;> rfl

theorem getElem?_eq_some_getD (hi : i < xs.size) (d : α) : xs[i]? = some (xs.getD i d) := by
  simp [Array.getD_eq_getD_getElem?, Array.getElem?_eq_getElem hi]

theorem getElem?_push_of_eq_some {a : α} (h : xs[i]? = some a) (b : α) : (xs.push b)[i]? = some a := by
  obtain ⟨hlt, _⟩ := Array.getElem?_eq_some_iff.1 h
  rw [Array.getElem?_push_lt hlt, ← Array.getElem?_eq_getElem hlt]
  exact h

theorem getElem?_append_singleton_eq_some {done : List α} {a b : α} :
    (done ++ [a])[j]? = some b ↔ done[j]? = some b ∨ (j = done.length ∧ a = b) := by
  rcases Nat.lt_trichotomy j done.length with hlt | rfl | hgt
  · have hne : j ≠ done.length := by omega
    simp [List.getElem?_append_left hlt, hne]
  · simp
  · have hne : j ≠ done.length := by omega
    have hnone : done[j]? = none := List.getElem?_eq_none (by omega)
    have hnone' : (done ++ [a])[j]? = none := List.getElem?_eq_none (by simp; omega)
    simp [hne, hnone, hnone']

theorem getElem?_of_toList_isPrefix {ys : Array α} {a : α} (h : xs.toList <+: ys.toList)
    (ha : xs[i]? = some a) : ys[i]? = some a := by
  obtain ⟨more, hmore⟩ := h
  obtain ⟨hlt, _⟩ := Array.getElem?_eq_some_iff.1 ha
  rw [← Array.getElem?_toList] at ha ⊢
  rw [← hmore, List.getElem?_append_left (by rwa [Array.length_toList]), ha]

/-- A place that weighs more makes the array weigh more. -/
theorem sum_getD_lt_sum_getD_set! {n : Nat} {a d : α} (weight : α → Nat) (hsize : xs.size = n)
    (hi : i < n) (hlt : weight (xs.getD i d) < weight a) :
    ∑ j ∈ Finset.range n, weight (xs.getD j d)
      < ∑ j ∈ Finset.range n, weight ((xs.set! i a).getD j d) := by
  refine Finset.sum_lt_sum (fun j _ => ?_) ⟨i, Finset.mem_range.2 hi, ?_⟩
  · by_cases hij : i = j
    · subst hij
      rw [getD_set!_self (by omega)]
      exact Nat.le_of_lt hlt
    · rw [getD_set!_of_ne hij]
  · rw [getD_set!_self (by omega)]
    exact hlt

theorem lookup_eq_some_iff_mem {κ β : Type} [BEq κ] [LawfulBEq κ] {entries : List (κ × β)}
    (h : entries.Pairwise fun a b => a.1 ≠ b.1) {key : κ} {value : β} :
    entries.lookup key = some value ↔ (key, value) ∈ entries := by
  induction entries with
  | nil => simp
  | cons entry entries ih =>
      obtain ⟨key', value'⟩ := entry
      obtain ⟨hdistinct, hentries⟩ := List.pairwise_cons.1 h
      rw [List.lookup_cons, List.mem_cons, Prod.mk.injEq]
      by_cases heq : key = key'
      · subst heq
        have hnot : (key, value) ∉ entries := fun hmem => hdistinct _ hmem rfl
        simp only [BEq.rfl, Option.some.injEq, true_and, hnot, or_false]
        exact eq_comm
      · simp only [beq_false_of_ne heq, heq, false_and, false_or]
        exact ih hentries

theorem exists_mem_of_forall₂ {β : Type} {R : α → β → Prop} {as : List α} {bs : List β}
    (h : List.Forall₂ R as bs) {a : α} (ha : a ∈ as) : ∃ b ∈ bs, R a b := by
  induction h with
  | nil => cases ha
  | @cons a' b as bs hab _ ih =>
      rcases List.mem_cons.1 ha with rfl | ha
      · exact ⟨b, List.mem_cons_self, hab⟩
      · obtain ⟨b', hb', hR⟩ := ih ha
        exact ⟨b', List.mem_cons_of_mem b hb', hR⟩

theorem exists_mem_of_forall₂_right {β : Type} {R : α → β → Prop} {as : List α} {bs : List β}
    (h : List.Forall₂ R as bs) {b : β} (hb : b ∈ bs) : ∃ a ∈ as, R a b := by
  obtain ⟨a, ha, hR⟩ := exists_mem_of_forall₂ h.flip hb
  exact ⟨a, ha, hR⟩

end IncrementalLR
