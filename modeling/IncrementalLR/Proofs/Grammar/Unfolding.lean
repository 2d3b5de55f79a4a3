import Mathlib
import IncrementalLR.Proofs.Grammar.Derivation

/-!
# Unfolding auxiliary symbols

A repetition becomes an auxiliary symbol that the author of a grammar never sees. What a rule stands
for is therefore what its productions come to once the auxiliary symbols in them are rewritten, and
only these. The strings that this gives form languages, in which one string after another is a
product and a symbol that repeats itself on the left is a Kleene star.
-/

/-- A set of strings. -/
abbrev FormalLanguage (α : Type) : Type := Language α

namespace IncrementalLR.Grammar

open scoped Computability

variable {g : Grammar}

/-- Made for a repetition, or the augmented start symbol. -/
def IsAuxiliary (g : Grammar) (s : Symbol) : Prop := (g.symbolInfo s).kind = .auxiliary

/-- The symbol has a production with this right-hand side. -/
def Produces (g : Grammar) (s : Symbol) (rhs : List Symbol) : Prop :=
  ∃ p ∈ g.productions, p.lhs = s ∧ p.rhs = rhs

/-- One auxiliary symbol is replaced by the right-hand side of one of its productions. -/
def RewritesAuxiliary (g : Grammar) (u v : List Symbol) : Prop :=
  ∃ (s : Symbol) (rhs before after : List Symbol), g.IsAuxiliary s ∧ g.Produces s rhs ∧
    u = before ++ s :: after ∧ v = before ++ rhs ++ after

/-- What rewriting auxiliary symbols makes of a string once none of them is left. -/
def unfolding (g : Grammar) (u : List Symbol) : FormalLanguage Symbol :=
  {w | Relation.ReflTransGen g.RewritesAuxiliary u w ∧ ∀ s ∈ w, ¬ g.IsAuxiliary s}

/-- What one of the strings unfolds to. -/
def unfoldings (g : Grammar) (us : List (List Symbol)) : FormalLanguage Symbol :=
  {w | ∃ u ∈ us, w ∈ g.unfolding u}

/-- The strings that a symbol stands for: one of its productions, unfolded. -/
def generated (g : Grammar) (s : Symbol) : FormalLanguage Symbol :=
  {w | ∃ rhs, g.Produces s rhs ∧ w ∈ g.unfolding rhs}

/-- Unfolding from left to right: a symbol is kept, or it is auxiliary and replaced. -/
inductive Unfolds (g : Grammar) : List Symbol → List Symbol → Prop
  | nil : Unfolds g [] []
  | keep (s : Symbol) (rest w : List Symbol) (hs : ¬ g.IsAuxiliary s) (hrest : Unfolds g rest w) :
      Unfolds g (s :: rest) (s :: w)
  | replace (s : Symbol) (rhs rest w : List Symbol) (hs : g.IsAuxiliary s) (hrhs : g.Produces s rhs)
      (hrest : Unfolds g (rhs ++ rest) w) : Unfolds g (s :: rest) w

theorem Unfolds.append {u v y z : List Symbol} (hu : g.Unfolds u y) (hv : g.Unfolds v z) :
    g.Unfolds (u ++ v) (y ++ z) := by
  induction hu with
  | nil => exact hv
  | keep s rest w hs _ ih => exact .keep s _ _ hs ih
  | replace s rhs rest w hs hrhs _ ih =>
      rw [List.append_assoc] at ih
      exact .replace s rhs _ _ hs hrhs ih

theorem Unfolds.exists_of_append {u v w : List Symbol} (h : g.Unfolds (u ++ v) w) :
    ∃ y z, w = y ++ z ∧ g.Unfolds u y ∧ g.Unfolds v z := by
  generalize heq : u ++ v = x at h
  induction h generalizing u with
  | nil =>
      obtain ⟨rfl, rfl⟩ := List.append_eq_nil_iff.1 heq
      exact ⟨[], [], rfl, .nil, .nil⟩
  | keep s rest w hs hrest ih =>
      cases u with
      | nil =>
          subst heq
          exact ⟨[], _, rfl, .nil, .keep s rest w hs hrest⟩
      | cons t u =>
          obtain ⟨rfl, rfl⟩ := List.cons.inj heq
          obtain ⟨y, z, rfl, hy, hz⟩ := ih rfl
          exact ⟨t :: y, z, rfl, .keep t u y hs hy, hz⟩
  | replace s rhs rest w hs hrhs hrest ih =>
      cases u with
      | nil =>
          subst heq
          exact ⟨[], _, rfl, .nil, .replace s rhs rest w hs hrhs hrest⟩
      | cons t u =>
          obtain ⟨rfl, rfl⟩ := List.cons.inj heq
          obtain ⟨y, z, rfl, hy, hz⟩ := ih (List.append_assoc rhs u v)
          exact ⟨y, z, rfl, .replace t rhs u y hs hrhs hy, hz⟩

theorem unfolds_self {w : List Symbol} (h : ∀ s ∈ w, ¬ g.IsAuxiliary s) : g.Unfolds w w := by
  induction w with
  | nil => exact .nil
  | cons s rest ih =>
      exact .keep s rest rest (h s List.mem_cons_self)
        (ih fun t ht => h t (List.mem_cons_of_mem s ht))

theorem Unfolds.of_rewritesAuxiliary {u v w : List Symbol} (h : g.RewritesAuxiliary u v)
    (hv : g.Unfolds v w) : g.Unfolds u w := by
  obtain ⟨s, rhs, before, after, hs, hrhs, rfl, rfl⟩ := h
  rw [List.append_assoc] at hv
  obtain ⟨y, z, rfl, hy, hz⟩ := hv.exists_of_append
  exact hy.append (.replace s rhs after z hs hrhs hz)

theorem RewritesAuxiliary.cons {u v : List Symbol} (h : g.RewritesAuxiliary u v) (s : Symbol) :
    g.RewritesAuxiliary (s :: u) (s :: v) := by
  obtain ⟨t, rhs, before, after, ht, hrhs, rfl, rfl⟩ := h
  exact ⟨t, rhs, s :: before, after, ht, hrhs, rfl, rfl⟩

theorem mem_unfolding_iff {u w : List Symbol} : w ∈ g.unfolding u ↔ g.Unfolds u w := by
  constructor
  · rintro ⟨hrewrites, hw⟩
    induction hrewrites using Relation.ReflTransGen.head_induction_on with
    | refl => exact unfolds_self hw
    | head hstep _ ih => exact ih.of_rewritesAuxiliary hstep
  · intro h
    induction h with
    | nil => exact ⟨.refl, by simp⟩
    | keep s rest w hs _ ih =>
        obtain ⟨hrewrites, hw⟩ := ih
        refine ⟨hrewrites.lift (List.cons s) fun _ _ h => h.cons s, fun t ht => ?_⟩
        rcases List.mem_cons.1 ht with rfl | ht
        · exact hs
        · exact hw t ht
    | replace s rhs rest w hs hrhs _ ih =>
        exact ⟨.head ⟨s, rhs, [], rest, hs, hrhs, rfl, rfl⟩ ih.1, ih.2⟩

/-! ### The languages of strings -/

theorem unfolding_nil : g.unfolding [] = 1 := by
  ext w
  rw [mem_unfolding_iff, Language.mem_one]
  constructor
  · intro h
    cases h
    rfl
  · rintro rfl
    exact .nil

theorem unfolding_append (u v : List Symbol) :
    g.unfolding (u ++ v) = g.unfolding u * g.unfolding v := by
  ext w
  simp only [Language.mem_mul, mem_unfolding_iff]
  constructor
  · intro h
    obtain ⟨y, z, rfl, hy, hz⟩ := h.exists_of_append
    exact ⟨y, hy, z, hz, rfl⟩
  · rintro ⟨y, hy, z, hz, rfl⟩
    exact hy.append hz

/-- A symbol that is not auxiliary stands for itself. -/
theorem unfolding_singleton {s : Symbol} (hs : ¬ g.IsAuxiliary s) :
    g.unfolding [s] = {[s]} := by
  ext w
  rw [mem_unfolding_iff]
  constructor
  · intro h
    cases h with
    | keep _ _ w _ hrest =>
        cases hrest
        rfl
    | replace _ _ _ _ haux => exact absurd haux hs
  · rintro rfl
    exact .keep s [] [] hs .nil

theorem generated_eq_unfoldings {s : Symbol} {us : List (List Symbol)}
    (h : ∀ rhs, g.Produces s rhs ↔ rhs ∈ us) : g.generated s = g.unfoldings us := by
  ext w
  exact exists_congr fun rhs => and_congr_left' (h rhs)

theorem unfoldings_nil : g.unfoldings [] = 0 := by
  ext w
  constructor
  · rintro ⟨u, hu, _⟩
    exact absurd hu List.not_mem_nil
  · intro h
    exact absurd h (Language.notMem_zero w)

theorem unfoldings_singleton (u : List Symbol) : g.unfoldings [u] = g.unfolding u := by
  ext w
  constructor
  · rintro ⟨v, hv, hw⟩
    rwa [List.mem_singleton.1 hv] at hw
  · intro hw
    exact ⟨u, List.mem_singleton_self u, hw⟩

theorem unfoldings_append (us vs : List (List Symbol)) :
    g.unfoldings (us ++ vs) = g.unfoldings us + g.unfoldings vs := by
  ext w
  rw [Language.mem_add]
  constructor
  · rintro ⟨u, hu, hw⟩
    rcases List.mem_append.1 hu with hu | hu
    · exact .inl ⟨u, hu, hw⟩
    · exact .inr ⟨u, hu, hw⟩
  · rintro (⟨u, hu, hw⟩ | ⟨u, hu, hw⟩)
    · exact ⟨u, List.mem_append_left _ hu, hw⟩
    · exact ⟨u, List.mem_append_right _ hu, hw⟩

theorem le_of_forall_mem {l m : FormalLanguage Symbol} (h : ∀ w ∈ l, w ∈ m) : l ≤ m := h

/-- Every string of the first list before every string of the second. -/
theorem unfoldings_product (us vs : List (List Symbol)) :
    g.unfoldings (us.flatMap fun u => vs.map fun v => u ++ v)
      = g.unfoldings us * g.unfoldings vs := by
  ext w
  rw [Language.mem_mul]
  constructor
  · rintro ⟨x, hx, hw⟩
    obtain ⟨u, hu, hx⟩ := List.mem_flatMap.1 hx
    obtain ⟨v, hv, rfl⟩ := List.mem_map.1 hx
    rw [unfolding_append] at hw
    obtain ⟨y, hy, z, hz, rfl⟩ := Language.mem_mul.1 hw
    exact ⟨y, ⟨u, hu, hy⟩, z, ⟨v, hv, hz⟩, rfl⟩
  · rintro ⟨y, ⟨u, hu, hy⟩, z, ⟨v, hv, hz⟩, rfl⟩
    refine ⟨u ++ v, List.mem_flatMap.2 ⟨u, hu, List.mem_map.2 ⟨v, hv, rfl⟩⟩, ?_⟩
    rw [unfolding_append]
    exact Language.append_mem_mul hy hz

/-! ### Repetitions -/

section Repetition

variable {s : Symbol} {us : List (List Symbol)}

/-- The symbol stands for one of the strings, or for itself before one of them. -/
def Repeats (g : Grammar) (s : Symbol) (us : List (List Symbol)) : Prop :=
  g.IsAuxiliary s ∧ ∀ rhs, g.Produces s rhs ↔ rhs ∈ us.map (s :: ·) ++ us

theorem Repeats.unfoldings_le (h : g.Repeats s us) : g.unfoldings us ≤ g.unfolding [s] := by
  refine le_of_forall_mem fun w hw => ?_
  obtain ⟨u, hu, hw⟩ := hw
  rw [mem_unfolding_iff] at hw ⊢
  refine .replace s u [] w h.1 ((h.2 u).2 (List.mem_append_right _ hu)) ?_
  rwa [List.append_nil]

theorem Repeats.unfolding_mul_le (h : g.Repeats s us) :
    g.unfolding [s] * g.unfoldings us ≤ g.unfolding [s] := by
  refine le_of_forall_mem fun w hw => ?_
  obtain ⟨y, hy, z, ⟨u, hu, hz⟩, rfl⟩ := Language.mem_mul.1 hw
  rw [mem_unfolding_iff] at hy hz ⊢
  have hrhs : g.Produces s (s :: u) :=
    (h.2 _).2 (List.mem_append_left _ (List.mem_map_of_mem hu))
  refine .replace s (s :: u) [] _ h.1 hrhs ?_
  rw [List.append_nil]
  exact hy.append hz

/-- Unfolding takes blocks off behind the symbol until the first of them replaces it. The rest of
the string stays in view, as every block goes in front of it. -/
theorem Repeats.mem_of_unfolds (h : g.Repeats s us) {rest w : List Symbol}
    (hw : g.Unfolds (s :: rest) w) :
    w ∈ g.unfoldings us * (g.unfoldings us)∗ * g.unfolding rest := by
  have hblock : ∀ {u w : List Symbol}, u ∈ us → ∀ {rest : List Symbol}, g.Unfolds (u ++ rest) w →
      w ∈ g.unfoldings us * g.unfolding rest := by
    intro u w hu rest hw
    obtain ⟨y, z, rfl, hy, hz⟩ := hw.exists_of_append
    exact Language.append_mem_mul ⟨u, hu, mem_unfolding_iff.2 hy⟩ (mem_unfolding_iff.2 hz)
  generalize heq : s :: rest = x at hw
  induction hw generalizing rest with
  | nil => cases heq
  | keep t _ _ ht _ _ =>
      obtain ⟨rfl, _⟩ := List.cons.inj heq
      exact absurd h.1 ht
  | replace t rhs _ w _ hrhs hrest ih =>
      obtain ⟨rfl, rfl⟩ := List.cons.inj heq
      rcases List.mem_append.1 ((h.2 rhs).1 hrhs) with hrhs | hrhs
      · obtain ⟨u, hu, rfl⟩ := List.mem_map.1 hrhs
        obtain ⟨y, hy, z, hz, rfl⟩ := Language.mem_mul.1 (ih (List.cons_append).symm)
        have hz' := hblock hu (mem_unfolding_iff.1 hz)
        have hle : g.unfoldings us * (g.unfoldings us)∗ * (g.unfoldings us * g.unfolding rest)
            ≤ g.unfoldings us * (g.unfoldings us)∗ * g.unfolding rest := by
          rw [← mul_assoc, mul_assoc (g.unfoldings us)]
          gcongr
          exact kstar_mul_le_kstar
        exact hle (Language.append_mem_mul hy hz')
      · have hle : g.unfoldings us * g.unfolding rest
            ≤ g.unfoldings us * (g.unfoldings us)∗ * g.unfolding rest := by
          gcongr
          exact le_mul_of_one_le_right' one_le_kstar
        exact hle (hblock hrhs hrest)

/-- The symbol of a repetition stands for one or more of the strings. -/
theorem Repeats.unfolding_eq (h : g.Repeats s us) :
    g.unfolding [s] = g.unfoldings us * (g.unfoldings us)∗ := by
  refine le_antisymm (le_of_forall_mem fun w hw => ?_) ?_
  · have hmem := h.mem_of_unfolds (mem_unfolding_iff.1 hw)
    rwa [unfolding_nil, mul_one] at hmem
  · calc g.unfoldings us * (g.unfoldings us)∗
        ≤ g.unfolding [s] * (g.unfoldings us)∗ := by gcongr; exact h.unfoldings_le
      _ ≤ g.unfolding [s] := mul_kstar_le_self h.unfolding_mul_le

/-- Leaving the empty strings out of the strings to repeat changes nothing. -/
theorem kstar_unfoldings_filter (us : List (List Symbol)) :
    (g.unfoldings (us.filter fun u => !u.isEmpty))∗ = (g.unfoldings us)∗ := by
  refine le_antisymm ?_ ?_
  · refine kstar_mono (le_of_forall_mem fun w hw => ?_)
    obtain ⟨u, hu, hw⟩ := hw
    exact ⟨u, (List.mem_filter.1 hu).1, hw⟩
  · have hle : g.unfoldings us ≤ (g.unfoldings (us.filter fun u => !u.isEmpty))∗ := by
      refine le_of_forall_mem fun w hw => ?_
      obtain ⟨u, hu, hw⟩ := hw
      cases u with
      | nil =>
          rw [unfolding_nil, Language.mem_one] at hw
          rw [hw]
          exact Language.nil_mem_kstar _
      | cons s u =>
          refine (le_kstar : _ ≤ (g.unfoldings (us.filter fun u => !u.isEmpty))∗) ?_
          exact ⟨s :: u, List.mem_filter.2 ⟨hu, rfl⟩, hw⟩
    calc (g.unfoldings us)∗ ≤ (g.unfoldings (us.filter fun u => !u.isEmpty))∗∗ := kstar_mono hle
      _ = (g.unfoldings (us.filter fun u => !u.isEmpty))∗ := kstar_idem _

end Repetition

end IncrementalLR.Grammar
