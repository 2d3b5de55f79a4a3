import IncrementalLR.Proofs.Pattern.Closure

/-!
# Matches of a running automaton

A run keeps the states that are reached behind the byte read last, branches followed and assertions
still open. The next byte settles the assertions, so that the accepting states are then those that a
walk along the text reaches: a run reports each pattern at just the lengths at which it matches.
-/

namespace IncrementalLR.Pattern

open Relation (ReflTransGen)

variable {states : Array State} {entries : List Nat} {text : List UInt8}

/-! ### States that are reached -/

/-- A walk along the text from the first states reaches a state at a place. -/
inductive Reached (states : Array State) (entries : List Nat) (text : List UInt8) : Nat → Nat → Prop
  | entry (s : Nat) (hs : s ∈ entries) : Reached states entries text s 0
  | edge (s i t j : Nat) (h : Reached states entries text s i) (hedge : Edge states text s i t j) :
      Reached states entries text t j

theorem Reached.walk {s i n t j : Nat} (h : Reached states entries text s i)
    (hwalk : Walk states text n s i t j) : Reached states entries text t j := by
  induction hwalk with
  | refl => exact h
  | step n s i t j u k hedge _ ih => exact ih (.edge s i t j h hedge)

theorem reached_iff_exists_walk {t j : Nat} :
    Reached states entries text t j ↔ ∃ s ∈ entries, ∃ n, Walk states text n s 0 t j := by
  constructor
  · intro h
    induction h with
    | entry s hs => exact ⟨s, hs, 0, .refl s 0⟩
    | edge s i t j _ hedge ih =>
        obtain ⟨first, hfirst, n, hwalk⟩ := ih
        exact ⟨first, hfirst, n + 1, hwalk.trans hedge.walk⟩
  · rintro ⟨s, hs, n, hwalk⟩
    exact Reached.walk (.entry s hs) hwalk

/-- A state in which a walk stands as it comes to a place of the text. -/
def Arrives (states : Array State) (entries : List Nat) (text : List UInt8) : Nat → Nat → Prop
  | 0, s => s ∈ entries
  | i + 1, s => ∃ u b, Reached states entries text u i ∧ text[i]? = some b ∧ Reads states b u s

theorem reached_iff_arrives {i t : Nat} :
    Reached states entries text t i ↔ ∃ s, Arrives states entries text i s ∧
      ReflTransGen (Silent states (byteBefore text i) text[i]?) s t := by
  constructor
  · intro h
    cases h with
    | entry _ hs => exact ⟨t, hs, .refl⟩
    | edge u j _ _ h hedge =>
        induction h generalizing t i with
        | entry s hs =>
            cases hedge with
            | silent h => exact ⟨s, hs, .single h⟩
            | read b hb h => exact ⟨t, ⟨s, b, .entry s hs, hb, h⟩, .refl⟩
        | edge u' j' u j h hedge' ih =>
            cases hedge with
            | silent hsilent =>
                obtain ⟨s, hs, hreach⟩ := ih hedge'
                exact ⟨s, hs, hreach.tail hsilent⟩
            | read b hb hread => exact ⟨t, ⟨u, b, .edge u' j' u j h hedge', hb, hread⟩, .refl⟩
  · rintro ⟨s, hs, hreach⟩
    induction hreach with
    | refl =>
        cases i with
        | zero => exact .entry s hs
        | succ i =>
            obtain ⟨u, b, hu, hb, hread⟩ := hs
            exact .edge u i s (i + 1) hu (.read b hb hread)
    | tail _ hsilent ih => exact .edge _ i _ i ih (.silent hsilent)

theorem Branches.silent {before after : Option UInt8} {s t : Nat} (h : Branches states s t) :
    ReflTransGen (Silent states before after) s t := by
  refine ReflTransGen.mono (fun s t hnext => ?_) _ _ h
  rw [branchNext] at hnext
  split at hnext
  · rename_i hs
    simpa [Silent, hs] using hnext
  · cases hnext

/-! ### Runs -/

variable {exprs : List Expr} {r : Automaton.Run} {i : Nat}

/-- Where a run stands behind so many bytes of the text. -/
structure Stands (exprs : List Expr) (text : List UInt8) (i : Nat) (r : Automaton.Run) : Prop where
  before : r.before = byteBefore text i
  mem_states_iff : ∀ t, t ∈ r.states ↔ atRest (Automaton.ofExprs exprs).states t = true ∧
    ∃ s, Arrives (Automaton.ofExprs exprs).states (entriesOf exprs) text i s ∧
      Branches (Automaton.ofExprs exprs).states s t

theorem stands_begin (exprs : List Expr) (text : List UInt8) :
    Stands exprs text 0 ((Automaton.ofExprs exprs).begin none) :=
  ⟨rfl, fun _ => Automaton.mem_start_ofExprs_iff exprs⟩

/-- What is settled from a state that is reached is reached. -/
theorem reached_of_mem_lookNext (he : ∀ e ∈ exprs, e.CountsInOrder) {u v : Nat}
    (hu : Reached (Automaton.ofExprs exprs).states (entriesOf exprs) text u i)
    (hv : v ∈ (Automaton.ofExprs exprs).lookNext (byteBefore text i) text[i]? u) :
    atRest (Automaton.ofExprs exprs).states v = true ∧
      Reached (Automaton.ofExprs exprs).states (entriesOf exprs) text v i := by
  rw [Automaton.lookNext] at hv
  split at hv
  · rename_i assertion next hstate
    split at hv
    · rename_i hholds
      have hlt := Automaton.lt_of_mem_targets he hstate List.mem_cons_self
      obtain ⟨hrest, hbranches⟩ := (Automaton.mem_closure_ofExprs_iff exprs hlt).1 hv
      obtain ⟨first, hfirst, hsilent⟩ := reached_iff_arrives.1 hu
      refine ⟨hrest, reached_iff_arrives.2 ⟨first, hfirst, ?_⟩⟩
      exact (hsilent.tail (by simp [Silent, hstate, hholds])).trans hbranches.silent
    · cases hv
  · cases hv

/-- Over branches alone, whatever is reached without reading leads to settled states. The branches
behind it are left open, since a silent step may end between two of them. -/
theorem Stands.exists_looks_of_silent (he : ∀ e ∈ exprs, e.CountsInOrder)
    (h : Stands exprs text i r) {first t w : Nat}
    (hfirst : Arrives (Automaton.ofExprs exprs).states (entriesOf exprs) text i first)
    (hsilent : ReflTransGen (Silent (Automaton.ofExprs exprs).states (byteBefore text i) text[i]?)
      first t)
    (hw : atRest (Automaton.ofExprs exprs).states w = true)
    (hbranches : Branches (Automaton.ofExprs exprs).states t w) :
    ∃ s ∈ r.states, ReflTransGen (fun s t => t ∈ (Automaton.ofExprs exprs).lookNext
      (byteBefore text i) text[i]? s) s w := by
  induction hsilent generalizing w with
  | refl => exact ⟨w, (h.mem_states_iff w).2 ⟨hw, first, hfirst, hbranches⟩, .refl⟩
  | @tail u v _ hstep ih =>
      rw [Silent] at hstep
      split at hstep
      · rename_i a b hu
        refine ih hw (hbranches.head ?_)
        simpa [branchNext, hu] using hstep
      · rename_i assertion next hu
        obtain ⟨rfl, hholds⟩ := hstep
        obtain ⟨s, hs, hreach⟩ := ih (by simp [atRest, hu]) .refl
        have hlt := Automaton.lt_of_mem_targets he hu List.mem_cons_self
        refine ⟨s, hs, hreach.tail ?_⟩
        rw [Automaton.lookNext, hu]
        simp only [hholds, if_true]
        exact (Automaton.mem_closure_ofExprs_iff exprs hlt).2 ⟨hw, hbranches⟩
      · exact hstep.elim

/-- With the assertions settled, the states are those that are reached. -/
theorem Stands.mem_settled_iff (he : ∀ e ∈ exprs, e.CountsInOrder) (h : Stands exprs text i r)
    (t : Nat) :
    t ∈ (Automaton.ofExprs exprs).settled r text[i]? ↔
      atRest (Automaton.ofExprs exprs).states t = true ∧
        Reached (Automaton.ofExprs exprs).states (entriesOf exprs) text t i := by
  rw [Automaton.mem_settled_iff he, h.before]
  constructor
  · rintro ⟨s, hs, hreach⟩
    induction hreach with
    | refl =>
        obtain ⟨hrest, first, hfirst, hbranches⟩ := (h.mem_states_iff s).1 hs
        exact ⟨hrest, reached_iff_arrives.2 ⟨first, hfirst, hbranches.silent⟩⟩
    | tail _ hnext ih => exact reached_of_mem_lookNext he ih.2 hnext
  · rintro ⟨hrest, hreached⟩
    obtain ⟨first, hfirst, hsilent⟩ := reached_iff_arrives.1 hreached
    exact h.exists_looks_of_silent he hfirst hsilent hrest .refl

/-- What a fold adds to a list. -/
theorem mem_foldl_iff {f : List Nat → Nat → List Nat} {Q : Nat → Prop} {t : Nat}
    (hf : ∀ out s, t ∈ f out s ↔ t ∈ out ∨ Q s) (items out : List Nat) :
    t ∈ items.foldl f out ↔ t ∈ out ∨ ∃ s ∈ items, Q s := by
  induction items generalizing out with
  | nil => simp
  | cons s items ih =>
      rw [List.foldl_cons, ih, hf]
      simp [or_assoc]

theorem mem_insertAll {new old : List Nat} {t : Nat} :
    t ∈ Automaton.insertAll new old ↔ t ∈ old ∨ t ∈ new := by
  rw [Automaton.insertAll, mem_foldl_iff (Q := fun s => s = t), exists_eq_right]
  intro out s
  split
  · rename_i hold
    rw [List.contains_iff_mem] at hold
    exact ⟨.inl, fun h => h.elim id fun heq => heq ▸ hold⟩
  · rw [List.mem_cons, or_comm, eq_comm]

/-- What is reached over the next byte. -/
theorem mem_states_step_iff (a : Automaton) (r : Automaton.Run) (b : UInt8) {t : Nat} :
    t ∈ (a.step r b).states ↔
      ∃ s ∈ a.settled r (some b), ∃ next, Reads a.states b s next ∧ t ∈ a.closure next := by
  rw [Automaton.step]
  simp only
  rw [mem_foldl_iff (Q := fun s => ∃ next, Reads a.states b s next ∧ t ∈ a.closure next)]
  · simp
  · intro out s
    cases hs : a.states[s]? with
    | none => simp [Reads, hs]
    | some state =>
        cases state with
        | byte set next =>
            by_cases hset : set.contains b = true
            · simp [Reads, hs, hset, mem_insertAll, Automaton.closure]
            · simp [Reads, hs, hset]
        | _ => simp [Reads, hs]

theorem mem_acceptedIn_iff (a : Automaton) (states : List Nat) {p : Nat} :
    p ∈ a.acceptedIn states ↔ ∃ s ∈ states, a.states[s]? = some (.accept p) := by
  rw [Automaton.acceptedIn, List.mem_filterMap]
  refine exists_congr fun s => and_congr_right fun _ => ?_
  cases hs : a.states[s]? with
  | none => simp
  | some state => cases state <;> simp

/-- The patterns that the settled states accept are those that match so many bytes. -/
theorem Stands.mem_accepted_iff (he : ∀ e ∈ exprs, e.CountsInOrder) (h : Stands exprs text i r)
    {p : Nat} :
    p ∈ (Automaton.ofExprs exprs).acceptedIn ((Automaton.ofExprs exprs).settled r text[i]?) ↔
      ∃ e, exprs[p]? = some e ∧ e.Matches text 0 i := by
  rw [mem_acceptedIn_iff, ← exists_walk_iff_matches he]
  constructor
  · rintro ⟨t, ht, haccept⟩
    obtain ⟨_, hreached⟩ := (h.mem_settled_iff he t).1 ht
    obtain ⟨s, hs, n, hwalk⟩ := reached_iff_exists_walk.1 hreached
    exact ⟨s, hs, n, t, hwalk, haccept⟩
  · rintro ⟨s, hs, n, t, hwalk, haccept⟩
    refine ⟨t, (h.mem_settled_iff he t).2 ⟨by simp [atRest, haccept], ?_⟩, haccept⟩
    exact reached_iff_exists_walk.2 ⟨s, hs, n, hwalk⟩

/-- A step reports the matches that end before its byte, and stands behind it. -/
theorem Stands.step (he : ∀ e ∈ exprs, e.CountsInOrder) (h : Stands exprs text i r) {b : UInt8}
    (hb : text[i]? = some b) :
    Stands exprs text (i + 1) ((Automaton.ofExprs exprs).step r b) ∧
      ∀ p, p ∈ ((Automaton.ofExprs exprs).step r b).matched ↔
        ∃ e, exprs[p]? = some e ∧ e.Matches text 0 i := by
  refine ⟨⟨?_, ?_⟩, ?_⟩
  · rw [Automaton.step, byteBefore, if_neg (Nat.succ_ne_zero i), Nat.add_sub_cancel, hb]
  · intro t
    rw [mem_states_step_iff, ← hb]
    constructor
    · rintro ⟨s, hs, next, hread, ht⟩
      obtain ⟨hrest, hreached⟩ := (h.mem_settled_iff he s).1 hs
      obtain ⟨set, hstate, hset⟩ := hread
      have hlt := Automaton.lt_of_mem_targets he hstate List.mem_cons_self
      obtain ⟨hrest', hbranches⟩ := (Automaton.mem_closure_ofExprs_iff exprs hlt).1 ht
      exact ⟨hrest', next, ⟨s, b, hreached, hb, set, hstate, hset⟩, hbranches⟩
    · rintro ⟨hrest, next, ⟨s, b', hreached, hb', set, hstate, hset⟩, hbranches⟩
      rw [hb, Option.some.injEq] at hb'
      subst hb'
      have hlt := Automaton.lt_of_mem_targets he hstate List.mem_cons_self
      refine ⟨s, (h.mem_settled_iff he s).2 ⟨by simp [atRest, hstate], hreached⟩, next,
        ⟨set, hstate, hset⟩, ?_⟩
      exact (Automaton.mem_closure_ofExprs_iff exprs hlt).2 ⟨hrest, hbranches⟩
  · intro p
    rw [← h.mem_accepted_iff he, hb]
    rfl

theorem Stands.mem_finish_iff (he : ∀ e ∈ exprs, e.CountsInOrder) (h : Stands exprs text i r)
    (hend : text[i]? = none) {p : Nat} :
    p ∈ (Automaton.ofExprs exprs).finish r ↔ ∃ e, exprs[p]? = some e ∧ e.Matches text 0 i := by
  rw [← h.mem_accepted_iff he, hend]
  rfl

/-- Where a run has no states, no pattern matches so many bytes or more. -/
theorem Stands.not_matches (he : ∀ e ∈ exprs, e.CountsInOrder) (h : Stands exprs text i r)
    (hnone : r.states = []) {j : Nat} (hij : i ≤ j) {p : Nat} {e : Expr} (hp : exprs[p]? = some e) :
    ¬e.Matches text 0 j := by
  have hunreached : ∀ s, atRest (Automaton.ofExprs exprs).states s = true →
      ¬Reached (Automaton.ofExprs exprs).states (entriesOf exprs) text s j := by
    induction j, hij using Nat.le_induction with
    | base =>
        intro s hrest hreached
        obtain ⟨t, ht, _⟩ := (Automaton.mem_settled_iff he r).1
          ((h.mem_settled_iff he s).2 ⟨hrest, hreached⟩)
        rw [hnone] at ht
        cases ht
    | succ j _ ih =>
        intro s _ hreached
        obtain ⟨first, ⟨u, b, hu, _, set, hstate, _⟩, _⟩ := reached_iff_arrives.1 hreached
        exact ih u (by simp [atRest, hstate]) hu
  intro hmatch
  obtain ⟨s, hs, n, t, hwalk, haccept⟩ := (exists_walk_iff_matches he p j).2 ⟨e, hp, hmatch⟩
  exact hunreached t (by simp [atRest, haccept])
    (reached_iff_exists_walk.2 ⟨s, hs, n, hwalk⟩)

end IncrementalLR.Pattern
