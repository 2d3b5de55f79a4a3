import Mathlib.Data.Set.Subsingleton
import IncrementalLR.Proofs.Table.Transitions

/-!
# No action is lost unrecorded

In a cell of a terminal the automaton offers a shift and the reductions by complete items. They come
in a fixed order, and settling a conflict only takes some of them away. So the entry and the record of
the conflict share the actions that are offered between them.
-/

namespace IncrementalLR

variable {g : Grammar} {policy : ConflictPolicy} {t : Table} {state : StateId} {s : Symbol}

open KernelFollows (states)

/-- The place of an action in an entry: the shift, then the reductions by ascending production. -/
def Action.rank : Action → Nat
  | .accept => 1
  | .reduce p => p.toNat + 1
  | _ => 0

/-! ### The order of the candidates -/

namespace Compile

theorem fst_of_mem_insertComplete {prod : Nat} {set : SymbolSet} {found : List (Nat × SymbolSet)}
    {entry : Nat × SymbolSet} (h : entry ∈ insertComplete prod set found) :
    entry.1 = prod ∨ ∃ other ∈ found, other.1 = entry.1 := by
  induction found with
  | nil =>
      rw [List.mem_singleton.1 h]
      exact .inl rfl
  | cons first found ih =>
      rw [insertComplete] at h
      split at h
      · rcases List.mem_cons.1 h with rfl | h
        · exact .inl rfl
        · exact .inr ⟨entry, h, rfl⟩
      · split at h
        · rename_i heq
          rcases List.mem_cons.1 h with rfl | h
          · exact .inl heq.symm
          · exact .inr ⟨entry, List.mem_cons_of_mem _ h, rfl⟩
        · rcases List.mem_cons.1 h with rfl | h
          · exact .inr ⟨_, List.mem_cons_self, rfl⟩
          · rcases ih h with heq | ⟨other, hother, heq⟩
            · exact .inl heq
            · exact .inr ⟨other, List.mem_cons_of_mem _ hother, heq⟩

theorem ascending_insertComplete (prod : Nat) (set : SymbolSet) {found : List (Nat × SymbolSet)}
    (h : found.Pairwise fun a b => a.1 < b.1) :
    (insertComplete prod set found).Pairwise fun a b => a.1 < b.1 := by
  induction found with
  | nil => exact List.pairwise_singleton _ _
  | cons first found ih =>
      obtain ⟨hfirst, hfound⟩ := List.pairwise_cons.1 h
      rw [insertComplete]
      split
      · rename_i hlt
        refine List.pairwise_cons.2 ⟨fun other hother => ?_, h⟩
        rcases List.mem_cons.1 hother with rfl | hother
        · exact hlt
        · exact Nat.lt_trans hlt (hfirst other hother)
      · rename_i hge
        split
        · exact List.pairwise_cons.2 ⟨hfirst, hfound⟩
        · rename_i hne
          refine List.pairwise_cons.2 ⟨fun other hother => ?_, ih hfound⟩
          rcases fst_of_mem_insertComplete hother with heq | ⟨first', hmem, heq⟩
          · rw [heq]
            simp only
            omega
          · rw [← heq]
            exact hfirst first' hmem

/-- The reductions that are offered are different productions, by ascending number. -/
theorem ascending_reduces (q : Nat) (s : Symbol) :
    ((offerOf g q).candidates s).reduces.Pairwise (· < ·) := by
  have hcompletes : (offerOf g q).completes.Pairwise fun a b => a.1 < b.1 := by
    simp only [offer]
    generalize (List.filter _ _) = items
    induction items with
    | nil => exact List.Pairwise.nil
    | cons entry items ih => exact ascending_insertComplete _ _ ih
  rw [StateOffer.candidates, List.pairwise_filterMap]
  refine hcompletes.imp fun {a b} hlt p hp p' hp' => ?_
  simp only [Option.ite_none_right_eq_some, Option.some.injEq] at hp hp'
  rw [← hp.2, ← hp'.2]
  exact hlt

end Compile

namespace Table

theorem rank_reduceAction {p : Nat} (hp : p < 2 ^ 32) : (Candidates.reduceAction p).rank = p + 1 := by
  rw [Candidates.reduceAction]
  split
  · rename_i hzero
    rw [hzero]
    rfl
  · rw [Action.rank, Nat.toUInt32_eq, UInt32.toNat_ofNat_of_lt' hp]

/-- The actions that are offered differ, and come in order. -/
theorem ascending_actions (hg : g.WellFormed) (h : Table.compile g policy = .ok t) (hfit : t.EntriesFit)
    (q : Nat) : ((Compile.offerOf g q).candidates s).actions.Pairwise fun a b => a.rank < b.rank := by
  have hsize := hfit.productions
  rw [(compile_eq_ok h).1.productions, Array.size_map] at hsize
  have hrank : ∀ p ∈ ((Compile.offerOf g q).candidates s).reduces,
      (Candidates.reduceAction p).rank = p + 1 := fun p hp =>
    rank_reduceAction (Nat.lt_of_lt_of_le ((Compile.inRange_offerOf hg q).reduces s p hp) hsize)
  rw [Candidates.actions, List.pairwise_append]
  refine ⟨?_, ?_, ?_⟩
  · rw [Candidates.shiftAction]
    cases ((Compile.offerOf g q).candidates s).shift with
    | none => exact List.Pairwise.nil
    | some target => exact List.pairwise_singleton _ _
  · rw [List.pairwise_map]
    refine (Compile.ascending_reduces q s).imp_of_mem fun {p p'} hp hp' hlt => ?_
    rw [hrank p hp, hrank p' hp']
    exact Nat.succ_lt_succ hlt
  · intro shift hshift reduce hreduce
    obtain ⟨target, _, rfl⟩ := Option.map_eq_some_iff.1 (Option.mem_toList.1 hshift)
    obtain ⟨p, hp, rfl⟩ := List.mem_map.1 hreduce
    rw [hrank p hp]
    exact Nat.succ_pos p

/-- What a state offers on a terminal are the candidates of the cell. -/
theorem mem_actions_iff_offers (hs : g.isTerminal s = true) {q : Nat} {action : Action} :
    action ∈ ((Compile.offerOf g q).candidates s).actions ↔ Offers g q s action := by
  constructor
  · exact offers_of_mem_actions hs
  · intro hoffers
    rw [Compile.mem_actions]
    cases hoffers with
    | shift target _ hstep => exact .inl ⟨target, hstep, rfl⟩
    | goto target hnot => exact absurd hs (by simp [hnot])
    | reduce p _ hcomplete => exact .inr ⟨p, hcomplete, rfl⟩

theorem subsingleton_iff_of_nodup {α : Type} {xs : List α} (h : xs.Nodup) :
    {a | a ∈ xs}.Subsingleton ↔ xs.length ≤ 1 := by
  match xs with
  | [] => simp
  | [a] => simp
  | a :: b :: rest =>
      have hne : a ≠ b := by
        rintro rfl
        exact (List.nodup_cons.1 h).1 List.mem_cons_self
      constructor
      · exact fun hsingle => absurd (hsingle (by simp) (by simp)) hne
      · simp

/-- What is recorded of conflicts in a cell. -/
def resolutionsAt (t : Table) (state : StateId) (s : Symbol) : List Resolution :=
  t.resolutions.toList.filter fun r => r.state = state ∧ r.lookahead = s

/-- The actions of a terminal are those that its state offers, and nothing is recorded, where there is
at most one; otherwise one conflict is recorded, what it discarded and what is kept are a partition of
what is offered, and all the reductions are fragile. -/
theorem accounts_for_actions {d : GrammarDef} (hload : Grammar.load d = .ok g)
    (h : Table.compile g policy = .ok t) (hfit : t.EntriesFit) (hstate : state.toNat < t.stateCount)
    (hs : g.isTerminal s = true) :
    (t.actionList state s).Pairwise (fun a b => a.rank < b.rank) ∧
    ({action | Offers g state.toNat s action}.Subsingleton →
      (∀ action, action ∈ t.actionList state s ↔ Offers g state.toNat s action) ∧
        t.resolutionsAt state s = []) ∧
    (¬ {action | Offers g state.toNat s action}.Subsingleton →
      ∃ r, t.resolutionsAt state s = [r] ∧ r.kept = t.action state s ∧
        (t.actionList state s ++ r.discarded).Nodup ∧
        (∀ action, action ∈ t.actionList state s ++ r.discarded ↔ Offers g state.toNat s action) ∧
        ∀ p, Compile.Completes g state.toNat p s → t.isFragile state p.toUInt32 = true) := by
  have hg := Grammar.load_wellFormed hload
  obtain ⟨hfrom, _⟩ := compile_eq_ok h
  have hlt : s.index < t.symbols.size := by
    rw [hfrom.symbols]
    exact Nat.lt_trans (of_decide_eq_true hs) hg.augmented_lt
  obtain ⟨fillings, hfilled⟩ := exists_filledBy hg h
  obtain ⟨f, hf, hat⟩ := hfilled.exists_filledAt hg h hfit hstate hs hlt
  have hrecords : t.resolutionsAt state s = f.resolution?.toList := by
    have hfilter := hfilled.filter_resolutions hg hfrom hfit.toNumbersFit hf
    rwa [hat.place] at hfilter
  have hascending : ((Compile.offerOf g state.toNat).candidates s).actions.Pairwise
      fun a b => a.rank < b.rank := ascending_actions hg h hfit state.toNat
  have hnodup : ((Compile.offerOf g state.toNat).candidates s).actions.Nodup :=
    hascending.imp fun {a b} hlt heq => by
      rw [heq] at hlt
      exact Nat.lt_irrefl _ hlt
  have hclear : {action | Offers g state.toNat s action}.Subsingleton ↔ f.outcome.reason = none := by
    rw [Candidates.reason_eq_none_iff hat.settles, ← subsingleton_iff_of_nodup hnodup]
    simp only [mem_actions_iff_offers hs]
  rw [hat.actionList]
  refine ⟨hascending.sublist hat.settled.kept_sublist, ?_, ?_⟩
  · intro hsingle
    have hreason := hclear.1 hsingle
    rw [(Candidates.resolve_of_reason_none hat.settles hreason).2]
    refine ⟨fun action => mem_actions_iff_offers hs, ?_⟩
    rw [hrecords, Compile.Filling.resolution?, hreason]
    rfl
  · intro hmany
    obtain ⟨reason, hreason⟩ := Option.ne_none_iff_exists'.1 (mt hclear.2 hmany)
    refine ⟨_, by rw [hrecords, hat.resolution?_eq hreason]; rfl, rfl, ?_, ?_, ?_⟩
    · refine List.nodup_append.2 ⟨hnodup.sublist hat.settled.kept_sublist,
        hnodup.sublist hat.settled.discarded_sublist, ?_⟩
      rintro action hkept _ hdiscarded rfl
      exact (hat.settled.mem_discarded.1 hdiscarded).2 hkept
    · intro action
      rw [← mem_actions_iff_offers hs, List.mem_append, hat.settled.mem_discarded]
      constructor
      · rintro (hkept | ⟨hoffered, _⟩)
        · exact hat.settled.kept_subset hkept
        · exact hoffered
      · intro hoffered
        by_cases hkept : action ∈ f.outcome.kept
        · exact .inl hkept
        · exact .inr ⟨hoffered, hkept⟩
    · intro p hcompletes
      rw [isFragile, List.contains_iff_mem, hfilled.fragile]
      refine ⟨f, hf, ?_⟩
      rw [Compile.Filling.fragile, if_neg (by simp [hreason]), hat.place, Compile.Filling.candidates,
        hat.cell]
      exact List.mem_map_of_mem (Compile.mem_reduces.2 hcompletes)

end Table

/-- Where two reductions overrule a shift, all three actions are accounted for; where there is one
action only, it is in the entry. -/
theorem accounts_overruled : ∃ t, Table.compile .overruled .strict = .ok t ∧
    (∃ r, t.resolutionsAt 1 ⟨2⟩ = [r] ∧ (t.actionList 1 ⟨2⟩ ++ r.discarded).Nodup ∧
      ∀ action, action ∈ t.actionList 1 ⟨2⟩ ++ r.discarded ↔ Table.Offers .overruled 1 ⟨2⟩ action) ∧
    ∀ action, action ∈ t.actionList 0 ⟨1⟩ ↔ Table.Offers .overruled 0 ⟨1⟩ action := by
  obtain ⟨t, ht, hfit, hstates, hresolutions⟩ := exists_compile_overruled
  have hlast : (1 : StateId).toNat < t.stateCount := by rw [hstates]; decide
  have hfirst : (0 : StateId).toNat < t.stateCount := by rw [hstates]; decide
  have hx : Grammar.overruled.isTerminal ⟨2⟩ = true := by decide
  have ht' : Grammar.overruled.isTerminal ⟨1⟩ = true := by decide
  have hmany : t.resolutionsAt 1 ⟨2⟩ ≠ [] := by simp [Table.resolutionsAt, hresolutions]
  have hone : t.resolutionsAt 0 ⟨1⟩ = [] := by simp [Table.resolutionsAt, hresolutions]
  refine ⟨t, ht, ?_, ?_⟩
  · obtain ⟨_, hclear, hrecorded⟩ := Table.accounts_for_actions load_overruled ht hfit hlast hx
    obtain ⟨r, hr, _, hnodup, hmem, _⟩ := hrecorded fun hsingle => hmany (hclear hsingle).2
    exact ⟨r, hr, hnodup, hmem⟩
  · obtain ⟨_, hclear, hrecorded⟩ := Table.accounts_for_actions load_overruled ht hfit hfirst ht'
    refine (hclear ?_).1
    by_contra hnot
    obtain ⟨r, hr, _⟩ := hrecorded hnot
    rw [hone] at hr
    cases hr

end IncrementalLR
