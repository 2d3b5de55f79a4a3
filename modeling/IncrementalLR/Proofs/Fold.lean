/-!
# Computations that can fail

A sequence of steps that gave a result gave one at every step. This takes such runs apart, and
carries an invariant along a fold.
-/

namespace IncrementalLR

variable {α β ε : Type}

theorem exists_of_bind_eq_ok {x : Except ε α} {f : α → Except ε β} {b : β}
    (h : x >>= f = .ok b) : ∃ a, x = .ok a ∧ f a = .ok b := by
  cases x with
  | error e => cases h
  | ok a => exact ⟨a, rfl, h⟩

/-- What holds of the items done so far and the state holds of all items in the end. -/
theorem foldlM_induction {f : β → α → Except ε β} (P : List α → β → Prop) {items : List α} {b b' : β}
    (h : items.foldlM f b = .ok b') (hinit : P [] b)
    (hstep : ∀ done a rest b b', items = done ++ a :: rest → P done b → f b a = .ok b' →
      P (done ++ [a]) b') : P items b' := by
  have hgeneral : ∀ rest done b, items = done ++ rest → rest.foldlM f b = .ok b' → P done b →
      P items b' := by
    intro rest
    induction rest with
    | nil =>
        intro done b heq hfold hdone
        cases hfold
        rwa [heq, List.append_nil]
    | cons a rest ih =>
        intro done b heq hfold hdone
        rw [List.foldlM_cons] at hfold
        obtain ⟨next, hnext, hfold⟩ := exists_of_bind_eq_ok hfold
        refine ih (done ++ [a]) next ?_ hfold (hstep done a rest b next heq hdone hnext)
        rw [heq, List.append_assoc, List.singleton_append]
  exact hgeneral items [] b rfl h hinit

/-- The same for a fold that cannot fail. -/
theorem foldl_induction {f : β → α → β} (P : List α → β → Prop) {items : List α} {b : β}
    (hinit : P [] b)
    (hstep : ∀ done a rest b, items = done ++ a :: rest → P done b → P (done ++ [a]) (f b a)) :
    P items (items.foldl f b) := by
  have hgeneral : ∀ rest done b, items = done ++ rest → P done b → P items (rest.foldl f b) := by
    intro rest
    induction rest with
    | nil =>
        intro done b heq hdone
        rwa [heq, List.append_nil]
    | cons a rest ih =>
        intro done b heq hdone
        refine ih (done ++ [a]) (f b a) ?_ (hstep done a rest b heq hdone)
        rw [heq, List.append_assoc, List.singleton_append]
  exact hgeneral items [] b rfl hinit

/-- Folds whose steps give the same results do so as a whole, whatever their errors are. -/
theorem foldlM_eq_ok_congr {ε' : Type} {f : β → α → Except ε β} {k : β → α → Except ε' β}
    (h : ∀ b a b', f b a = .ok b' ↔ k b a = .ok b') {items : List α} {b b' : β} :
    items.foldlM f b = .ok b' ↔ items.foldlM k b = .ok b' := by
  induction items generalizing b with
  | nil => simp [pure, Except.pure]
  | cons a items ih =>
      rw [List.foldlM_cons, List.foldlM_cons]
      constructor
      · intro hfold
        obtain ⟨next, hnext, hfold⟩ := exists_of_bind_eq_ok hfold
        rw [(h b a next).1 hnext]
        exact ih.1 hfold
      · intro hfold
        obtain ⟨next, hnext, hfold⟩ := exists_of_bind_eq_ok hfold
        rw [(h b a next).2 hnext]
        exact ih.2 hfold

theorem mem_foldl_choose (better : α → α → Bool) (first : α) (rest : List α) :
    rest.foldl (fun best a => if better a best then a else best) first ∈ first :: rest := by
  induction rest generalizing first with
  | nil => exact List.mem_cons_self
  | cons a rest ih =>
      rw [List.foldl_cons]
      by_cases hbetter : better a first = true
      · rw [if_pos hbetter]
        exact List.mem_cons_of_mem first (ih a)
      · rw [if_neg hbetter]
        rcases List.mem_cons.1 (ih first) with heq | hmem
        · rw [heq]
          exact List.mem_cons_self
        · exact List.mem_cons_of_mem first (List.mem_cons_of_mem a hmem)

/-- The one that is chosen is the greatest where the better one is greater. -/
theorem le_foldl_choose {better : α → α → Bool} {f : α → Int} {first : α} {rest : List α}
    (h : ∀ a ∈ first :: rest, ∀ b ∈ first :: rest, better b a = true ↔ f a < f b) :
    ∀ a ∈ first :: rest,
      f a ≤ f (rest.foldl (fun best a => if better a best then a else best) first) := by
  induction rest generalizing first with
  | nil =>
      intro a ha
      rw [List.mem_singleton.1 ha]
      exact Int.le_refl _
  | cons b rest ih =>
      rw [List.foldl_cons]
      have hfirst : first ∈ first :: b :: rest := List.mem_cons_self
      have hsecond : b ∈ first :: b :: rest := List.mem_cons_of_mem first List.mem_cons_self
      have hbetter := h first hfirst b hsecond
      generalize hchosen : (if better b first then b else first) = chosen
      have hsub : ∀ a ∈ chosen :: rest, a ∈ first :: b :: rest := by
        intro a ha
        rcases List.mem_cons.1 ha with rfl | ha
        · rw [← hchosen]
          split
          · exact hsecond
          · exact hfirst
        · exact List.mem_cons_of_mem first (List.mem_cons_of_mem b ha)
      have hle := ih fun a ha c hc => h a (hsub a ha) c (hsub c hc)
      have hbest := hle chosen List.mem_cons_self
      have hboth : f first ≤ f chosen ∧ f b ≤ f chosen := by
        rw [← hchosen]
        split
        · rename_i hyes
          exact ⟨Int.le_of_lt (hbetter.1 hyes), Int.le_refl _⟩
        · rename_i hno
          exact ⟨Int.le_refl _, Int.not_lt.1 (mt hbetter.2 hno)⟩
      intro a ha
      rcases List.mem_cons.1 ha with rfl | ha
      · exact Int.le_trans hboth.1 hbest
      · rcases List.mem_cons.1 ha with rfl | ha
        · exact Int.le_trans hboth.2 hbest
        · exact hle a (List.mem_cons_of_mem chosen ha)

/-- Every result of a list of computations is the result of one of them. -/
theorem exists_mem_of_mapM_eq_ok {f : α → Except ε β} {items : List α} {found : List β}
    (h : items.mapM f = .ok found) : ∀ b ∈ found, ∃ a ∈ items, f a = .ok b := by
  induction items generalizing found with
  | nil =>
      cases h
      simp
  | cons a items ih =>
      rw [List.mapM_cons] at h
      obtain ⟨first, hfirst, h⟩ := exists_of_bind_eq_ok h
      obtain ⟨others, hothers, h⟩ := exists_of_bind_eq_ok h
      cases h
      intro b hb
      rcases List.mem_cons.1 hb with rfl | hb
      · exact ⟨a, List.mem_cons_self, hfirst⟩
      · obtain ⟨a', ha', hb⟩ := ih hothers b hb
        exact ⟨a', List.mem_cons_of_mem a ha', hb⟩

theorem length_of_mapM_eq_some {f : α → Option β} {items : List α} {found : List β}
    (h : items.mapM f = some found) : found.length = items.length := by
  induction items generalizing found with
  | nil =>
      cases h
      rfl
  | cons a items ih =>
      rw [List.mapM_cons] at h
      obtain ⟨b, _, h⟩ := Option.bind_eq_some_iff.1 h
      obtain ⟨bs, hbs, h⟩ := Option.bind_eq_some_iff.1 h
      cases h
      rw [List.length_cons, List.length_cons, ih hbs]

theorem getElem?_of_mapM_eq_some {f : α → Option β} {items : List α} {found : List β}
    (h : items.mapM f = some found) (i : Nat) : found[i]? = items[i]?.bind f := by
  induction items generalizing found i with
  | nil =>
      cases h
      simp
  | cons a items ih =>
      rw [List.mapM_cons] at h
      obtain ⟨b, hb, h⟩ := Option.bind_eq_some_iff.1 h
      obtain ⟨rest, hrest, h⟩ := Option.bind_eq_some_iff.1 h
      cases h
      cases i with
      | zero => simp [hb]
      | succ i => simpa using ih hrest i

end IncrementalLR
