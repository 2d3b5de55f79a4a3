import IncrementalLR.Pattern.Reader
import IncrementalLR.Proofs.Pattern.Construction

/-!
# Counts of patterns that are read

The reader refuses a repetition whose least count is greater than its most, so the counts of every
expression that it gives are in order.
-/

namespace IncrementalLR.Pattern

variable {α β : Type} {P : β → Prop} {Q : α → Prop}

/-! ### What readers give -/

/-- Wherever the reader stands, what it gives has a property. -/
def Gives (P : α → Prop) (x : Parse α) : Prop :=
  ∀ s a s', x.run s = some (a, s') → P a

namespace Gives

theorem bind {x : Parse α} {f : α → Parse β} (hx : Gives Q x) (hf : ∀ a, Q a → Gives P (f a)) :
    Gives P (x >>= f) := by
  intro s b s' h
  rw [StateT.run_bind] at h
  obtain ⟨⟨a, t⟩, ha, hb⟩ := Option.bind_eq_some_iff.1 h
  exact hf a (hx s a t ha) t b s' hb

theorem bind_any {x : Parse α} {f : α → Parse β} (hf : ∀ a, Gives P (f a)) : Gives P (x >>= f) :=
  Gives.bind (fun _ _ _ _ => trivial) fun a _ => hf a

theorem of_pure {b : β} (h : P b) : Gives P (pure b : Parse β) := by
  intro s b' s' heq
  cases heq
  exact h

theorem of_failure : Gives P (failure : Parse β) := by
  intro s b s' h
  cases h

/-- What is guarded holds behind the guard. -/
theorem of_guard {p : Prop} [Decidable p] {f : Unit → Parse β} (h : p → Gives P (f ())) :
    Gives P (guard p >>= f) := by
  refine Gives.bind (Q := fun _ => p) ?_ fun _ hp => h hp
  intro s a s' heq
  by_cases hp : p
  · exact hp
  · rw [guard, if_neg hp] at heq
    cases heq

end Gives

/-! ### Expressions -/

/-- A count to a count is in order. -/
def InOrder (range : Nat × Option Nat) : Prop := ∀ m ∈ range.2, range.1 ≤ m

theorem gives_countsFrom (least : Nat) : Gives InOrder (countsFrom least) := by
  rw [countsFrom]
  refine Gives.bind_any fun _ => ?_
  split
  · refine Gives.bind_any fun _ => Gives.bind_any fun _ => ?_
    split
    · exact Gives.of_pure fun m hm => by simp at hm
    · refine Gives.bind_any fun most => Gives.of_guard fun hle => ?_
      exact Gives.of_pure fun m hm => by simp at hm; omega
  · exact Gives.of_pure fun m hm => by simp at hm; omega

theorem gives_counts : Gives InOrder counts := by
  rw [counts, countsInside]
  refine Gives.bind_any fun _ => Gives.bind_any fun _ => Gives.bind_any fun least => ?_
  refine Gives.bind (gives_countsFrom least) fun range hrange => ?_
  exact Gives.bind_any fun _ => Gives.of_guard fun _ => Gives.bind_any fun _ => Gives.of_pure hrange

/-- The expressions of parts that are read. -/
def PartsInOrder (parts : List Part) : Prop := ∀ part ∈ parts, part.expr.CountsInOrder

theorem PartsInOrder.cons {part : Part} {parts : List Part} (h : part.expr.CountsInOrder)
    (hparts : PartsInOrder parts) : PartsInOrder (part :: parts) :=
  List.forall_mem_cons.2 ⟨h, hparts⟩

theorem gives_repeatLast {least : Nat} {most : Option Nat} {parts : List Part}
    (hcounts : InOrder (least, most)) (hparts : PartsInOrder parts) :
    Gives PartsInOrder (repeatLast least most parts) := by
  cases parts with
  | nil => exact Gives.of_failure
  | cons part parts =>
      obtain ⟨hpart, hparts⟩ := List.forall_mem_cons.1 hparts
      exact Gives.of_guard fun _ => Gives.of_pure (.cons ⟨hcounts, hpart⟩ hparts)

/-- Parts that are put together one after the other are in order if each of them is. -/
theorem countsInOrder_foldl {f : Part → Part → Part}
    (hf : ∀ whole part : Part, whole.expr.CountsInOrder → part.expr.CountsInOrder →
      (f whole part).expr.CountsInOrder) {first : Part} {rest : List Part}
    (h : PartsInOrder (first :: rest)) : (rest.foldl f first).expr.CountsInOrder := by
  obtain ⟨hfirst, hrest⟩ := List.forall_mem_cons.1 h
  induction rest generalizing first with
  | nil => exact hfirst
  | cons part rest ih =>
      obtain ⟨hpart, hrest⟩ := List.forall_mem_cons.1 hrest
      have hnext := hf first part hfirst hpart
      exact ih (.cons hnext hrest) hnext hrest

theorem countsInOrder_sequencePart {parts : List Part} (h : PartsInOrder parts) :
    (sequencePart parts).expr.CountsInOrder := by
  match parts with
  | [] => trivial
  | [part] => exact h part List.mem_cons_self
  | last :: part :: others =>
      exact countsInOrder_foldl (f := fun whole part =>
        { expr := .concat part.expr whole.expr, depth := max whole.depth part.depth })
        (fun _ _ hwhole hpart => ⟨hpart, hwhole⟩) h

theorem countsInOrder_alternativesOf {parts : List Part} (h : PartsInOrder parts) :
    (alternativesOf parts).expr.CountsInOrder := by
  match parts with
  | [] => trivial
  | [part] => exact h part List.mem_cons_self
  | first :: part :: others =>
      exact countsInOrder_foldl (f := fun whole part =>
        { expr := .alt whole.expr part.expr, depth := max whole.depth part.depth })
        (fun _ _ hwhole hpart => ⟨hwhole, hpart⟩) h

theorem countsInOrder_ofBytes (bytes : List UInt8) : (Expr.ofBytes bytes).CountsInOrder := by
  fun_induction Expr.ofBytes bytes with
  | case1 => trivial
  | case2 => trivial
  | case3 _ _ _ ih => exact ⟨trivial, ih⟩

theorem countsInOrder_primitive (flags : Flags) (found : Primitive) :
    (found.expr flags).CountsInOrder := by
  cases found with
  | char c =>
      rw [Primitive.expr]
      split
      · trivial
      · exact countsInOrder_ofBytes _
  | byte b => trivial
  | set s => trivial
  | dot => trivial
  | look assertion => trivial

theorem gives_group {inside : Parse (List Part)} (h : Gives PartsInOrder inside) :
    Gives (fun part => part.expr.CountsInOrder) (group inside) := by
  rw [group]
  refine Gives.bind_any fun _ => Gives.bind_any fun head => ?_
  cases head with
  | settings flags => exact Gives.bind_any fun _ => Gives.of_pure trivial
  | group flags =>
      refine Gives.bind_any fun _ => Gives.bind h fun inner hinner => ?_
      exact Gives.bind_any fun _ => Gives.of_pure (countsInOrder_alternativesOf hinner)

theorem gives_alternatives (fuel : Nat) :
    Gives PartsInOrder (alternatives fuel) ∧ ∀ parts, PartsInOrder parts →
      Gives (fun part => part.expr.CountsInOrder) (sequence fuel parts) := by
  induction fuel with
  | zero =>
      refine ⟨?_, fun parts _ => ?_⟩
      · rw [alternatives]
        exact Gives.of_failure
      · rw [sequence]
        exact Gives.of_failure
  | succ fuel ih =>
      obtain ⟨hbars, hsequence⟩ := ih
      refine ⟨?_, ?_⟩
      · rw [alternatives]
        refine Gives.bind (hsequence [] (by simp [PartsInOrder])) fun part hpart => ?_
        refine Gives.bind_any fun c => ?_
        split
        · refine Gives.bind_any fun _ => Gives.bind hbars fun parts hparts => ?_
          exact Gives.of_pure (.cons hpart hparts)
        · exact Gives.of_pure (.cons hpart (by simp [PartsInOrder]))
      · intro parts hparts
        have hrepeat : ∀ (least : Nat) (most : Option Nat), InOrder (least, most) →
            Gives (fun part => part.expr.CountsInOrder)
              (do sequence fuel (← repeatLast least most parts)) :=
          fun least most hcounts => Gives.bind (gives_repeatLast hcounts hparts) hsequence
        rw [sequence]
        refine Gives.bind_any fun _ => Gives.bind_any fun s => Gives.bind_any fun c => ?_
        split
        · exact Gives.of_pure (countsInOrder_sequencePart hparts)
        · exact Gives.of_pure (countsInOrder_sequencePart hparts)
        · exact Gives.of_pure (countsInOrder_sequencePart hparts)
        · exact Gives.bind (gives_group hbars) fun part hpart => hsequence _ (.cons hpart hparts)
        · exact Gives.bind_any fun _ => hsequence _ (.cons trivial hparts)
        · exact Gives.bind_any fun _ => Gives.bind_any fun _ => hrepeat 0 (some 1) (by simp [InOrder])
        · exact Gives.bind_any fun _ => Gives.bind_any fun _ => hrepeat 0 none (by simp [InOrder])
        · exact Gives.bind_any fun _ => Gives.bind_any fun _ => hrepeat 1 none (by simp [InOrder])
        · refine Gives.bind gives_counts fun range hrange => ?_
          exact Gives.bind_any fun _ => hrepeat range.1 range.2 hrange
        · refine Gives.bind_any fun found => hsequence _ (.cons ?_ hparts)
          exact countsInOrder_primitive s.flags found

/-- The counts of an expression that is read are in order. -/
theorem countsInOrder_of_read? {source : String} {e : Expr} (h : read? source = some e) :
    e.CountsInOrder := by
  rw [read?] at h
  obtain ⟨⟨parts, s⟩, hparts, h⟩ := Option.bind_eq_some_iff.1 h
  have hinOrder := (gives_alternatives _).1 _ _ _ hparts
  simp only at h
  split at h
  · cases h
    exact countsInOrder_alternativesOf hinOrder
  · cases h

end IncrementalLR.Pattern
