import Mathlib.Logic.Relation
import IncrementalLR.Proofs.Fold
import IncrementalLR.Proofs.Lexer.Lookups

/-!
# What automata of patterns recognize

An automaton is walked from state to state along a text. Each expression adds states that are left
only through the state that comes next, after just the stretches of the text that the expression
matches. So from the first state of a pattern a walk reaches an accepting state where the pattern
matches, and no other.
-/

namespace IncrementalLR.Pattern

open Relation (ReflTransGen Comp)

variable {states all : Array State} {text : List UInt8}

/-! ### Walks -/

/-- What stands before a place of a text. -/
def byteBefore (text : List UInt8) (i : Nat) : Option UInt8 := if i = 0 then none else text[i - 1]?

/-- A state leads to another between two bytes, where nothing is read. -/
def Silent (states : Array State) (before after : Option UInt8) (s t : Nat) : Prop :=
  match states[s]? with
  | some (.branch a b) => t = a ∨ t = b
  | some (.look assertion next) => t = next ∧ assertion.holds before after = true
  | _ => False

/-- A state leads to another as a byte is read. -/
def Reads (states : Array State) (b : UInt8) (s t : Nat) : Prop :=
  ∃ set, states[s]? = some (.byte set t) ∧ set.contains b = true

/-- A state at a place of the text leads to another, at that place or at the next. -/
inductive Edge (states : Array State) (text : List UInt8) (s i t : Nat) : Nat → Prop
  | silent (h : Silent states (byteBefore text i) text[i]? s t) : Edge states text s i t i
  | read (b : UInt8) (hb : text[i]? = some b) (h : Reads states b s t) :
      Edge states text s i t (i + 1)

/-- `Walk states text n s i t j`: in `n` steps state `s` at place `i` leads to state `t` at place
`j`. -/
inductive Walk (states : Array State) (text : List UInt8) : Nat → Nat → Nat → Nat → Nat → Prop
  | refl (s i : Nat) : Walk states text 0 s i s i
  | step (n s i t j u k : Nat) (h : Edge states text s i t j) (rest : Walk states text n t j u k) :
      Walk states text (n + 1) s i u k

theorem Edge.walk {s i t j : Nat} (h : Edge states text s i t j) : Walk states text 1 s i t j :=
  .step 0 s i t j t j h (.refl t j)

theorem Walk.trans {n m s i t j u k : Nat} (h : Walk states text n s i t j)
    (h' : Walk states text m t j u k) : Walk states text (n + m) s i u k := by
  induction h with
  | refl => rwa [Nat.zero_add]
  | step n s i t j _ _ hedge _ ih =>
      rw [Nat.add_right_comm]
      exact .step _ _ _ _ _ _ _ hedge (ih h')

section

variable {s i t j a b next p : Nat} {set : ByteSet} {assertion : Look}

theorem Edge.of_branch (h : Edge states text s i t j) (hs : states[s]? = some (.branch a b)) :
    j = i ∧ (t = a ∨ t = b) := by
  cases h with
  | silent h => exact ⟨rfl, by simpa only [Silent, hs] using h⟩
  | read _ _ h =>
      obtain ⟨_, hs', _⟩ := h
      simp [hs] at hs'

theorem Edge.of_look (h : Edge states text s i t j)
    (hs : states[s]? = some (.look assertion next)) :
    j = i ∧ t = next ∧ assertion.holds (byteBefore text i) text[i]? = true := by
  cases h with
  | silent h => exact ⟨rfl, by simpa only [Silent, hs] using h⟩
  | read _ _ h =>
      obtain ⟨_, hs', _⟩ := h
      simp [hs] at hs'

theorem Edge.of_byte (h : Edge states text s i t j) (hs : states[s]? = some (.byte set next)) :
    j = i + 1 ∧ t = next ∧ ∃ b, text[i]? = some b ∧ set.contains b = true := by
  cases h with
  | silent h => simp [Silent, hs] at h
  | read b hb h =>
      obtain ⟨_, hs', hset⟩ := h
      rw [hs, Option.some.injEq, State.byte.injEq] at hs'
      obtain ⟨rfl, rfl⟩ := hs'
      exact ⟨rfl, rfl, b, hb, hset⟩

theorem Edge.not_of_accept (h : Edge states text s i t j) (hs : states[s]? = some (.accept p)) :
    False := by
  cases h with
  | silent h => simp [Silent, hs] at h
  | read _ _ h =>
      obtain ⟨_, hs', _⟩ := h
      simp [hs] at hs'

theorem Edge.first (text : List UInt8) (i : Nat) (hs : states[s]? = some (.branch a b)) :
    Edge states text s i a i :=
  .silent (by simp [Silent, hs])

theorem Edge.second (text : List UInt8) (i : Nat) (hs : states[s]? = some (.branch a b)) :
    Edge states text s i b i :=
  .silent (by simp [Silent, hs])

/-- A state that accepts a pattern leads nowhere. -/
theorem Walk.eq_of_accept {n : Nat} (h : Walk states text n s i t j)
    (hs : states[s]? = some (.accept p)) : t = s ∧ j = i := by
  cases h with
  | refl => exact ⟨rfl, rfl⟩
  | step _ _ _ _ _ _ _ hedge => exact (hedge.not_of_accept hs).elim

end

/-! ### States that join -/

/-- From a first state all walks to an accepting state lead through the next state, behind the
stretches of the text that a relation gives. -/
structure Joins (states : Array State) (text : List UInt8) (first next : Nat)
    (R : Nat → Nat → Prop) : Prop where
  sound : ∀ n i u j p, states[u]? = some (.accept p) → Walk states text n first i u j →
    ∃ k m, m ≤ n ∧ R i k ∧ Walk states text m next k u j
  complete : ∀ i k, R i k → ∃ n, Walk states text n first i next k

namespace Joins

variable {s a b c : Nat} {R S : Nat → Nat → Prop}

theorem congr (h : Joins states text a b R) (heq : ∀ i k, R i k ↔ S i k) :
    Joins states text a b S := by
  have hrel : R = S := by
    funext i k
    exact propext (heq i k)
  rwa [← hrel]

theorem refl (s : Nat) : Joins states text s s Eq := by
  refine ⟨?_, ?_⟩
  · intro n i u j p _ h
    exact ⟨i, n, Nat.le_refl n, rfl, h⟩
  · rintro i _ rfl
    exact ⟨0, .refl s i⟩

theorem comp (h : Joins states text a b R) (h' : Joins states text b c S) :
    Joins states text a c (Comp R S) := by
  refine ⟨?_, ?_⟩
  · intro n i u j p hu hwalk
    obtain ⟨k, m, hle, hR, hrest⟩ := h.sound n i u j p hu hwalk
    obtain ⟨k', m', hle', hS, hrest'⟩ := h'.sound m k u j p hu hrest
    exact ⟨k', m', Nat.le_trans hle' hle, ⟨k, hR, hS⟩, hrest'⟩
  · rintro i k ⟨j, hR, hS⟩
    obtain ⟨n, hwalk⟩ := h.complete i j hR
    obtain ⟨m, hwalk'⟩ := h'.complete j k hS
    exact ⟨n + m, hwalk.trans hwalk'⟩

theorem branch (hs : states[s]? = some (.branch a b)) (h : Joins states text a c R)
    (h' : Joins states text b c S) : Joins states text s c fun i k => R i k ∨ S i k := by
  refine ⟨?_, ?_⟩
  · intro n i u j p hu hwalk
    cases hwalk with
    | refl => simp_all
    | step n _ _ t i' _ _ hedge hrest =>
        obtain ⟨rfl, rfl | rfl⟩ := hedge.of_branch hs
        · obtain ⟨k, m, hle, hR, hrest⟩ := h.sound n _ u j p hu hrest
          exact ⟨k, m, Nat.le_succ_of_le hle, .inl hR, hrest⟩
        · obtain ⟨k, m, hle, hS, hrest⟩ := h'.sound n _ u j p hu hrest
          exact ⟨k, m, Nat.le_succ_of_le hle, .inr hS, hrest⟩
  · rintro i k (hR | hS)
    · obtain ⟨n, hwalk⟩ := h.complete i k hR
      exact ⟨1 + n, (Edge.first text i hs).walk.trans hwalk⟩
    · obtain ⟨n, hwalk⟩ := h'.complete i k hS
      exact ⟨1 + n, (Edge.second text i hs).walk.trans hwalk⟩

theorem byte {set : ByteSet} (hs : states[s]? = some (.byte set b)) :
    Joins states text s b fun i k => k = i + 1 ∧ ∃ x, text[i]? = some x ∧ set.contains x = true := by
  refine ⟨?_, ?_⟩
  · intro n i u j p hu hwalk
    cases hwalk with
    | refl => simp_all
    | step n _ _ t i' _ _ hedge hrest =>
        obtain ⟨rfl, rfl, hx⟩ := hedge.of_byte hs
        exact ⟨i + 1, n, Nat.le_succ n, ⟨rfl, hx⟩, hrest⟩
  · rintro i _ ⟨rfl, x, hx, hset⟩
    exact ⟨1, (Edge.read x hx ⟨set, hs, hset⟩).walk⟩

theorem look {assertion : Look} (hs : states[s]? = some (.look assertion b)) :
    Joins states text s b fun i k =>
      k = i ∧ assertion.holds (byteBefore text i) text[i]? = true := by
  refine ⟨?_, ?_⟩
  · intro n i u j p hu hwalk
    cases hwalk with
    | refl => simp_all
    | step n _ _ t i' _ _ hedge hrest =>
        obtain ⟨rfl, rfl, hholds⟩ := hedge.of_look hs
        exact ⟨i', n, Nat.le_succ n, ⟨rfl, hholds⟩, hrest⟩
  · rintro i _ ⟨rfl, hholds⟩
    exact ⟨1, (Edge.silent (by simp [Silent, hs, hholds])).walk⟩

/-- Around a loop a walk gets shorter each time, so that it leaves the loop after a number of
rounds. -/
theorem loop (hs : states[s]? = some (.branch a b)) (h : Joins states text a s R) :
    Joins states text s b (ReflTransGen R) := by
  refine ⟨?_, ?_⟩
  · intro n
    induction n using Nat.strong_induction_on with
    | h n ih =>
        intro i u j p hu hwalk
        cases hwalk with
        | refl => simp_all
        | step n _ _ t i' _ _ hedge hrest =>
            obtain ⟨rfl, rfl | rfl⟩ := hedge.of_branch hs
            · obtain ⟨k, m, hle, hR, hrest⟩ := h.sound n _ u j p hu hrest
              obtain ⟨k', m', hle', hRs, hrest'⟩ := ih m (Nat.lt_succ_of_le hle) k u j p hu hrest
              exact ⟨k', m', by omega, hRs.head hR, hrest'⟩
            · exact ⟨i', n, Nat.le_succ n, .refl, hrest⟩
  · intro i k hRs
    induction hRs using ReflTransGen.head_induction_on with
    | refl => exact ⟨1, (Edge.second text k hs).walk⟩
    | head hR _ ih =>
        obtain ⟨n, hwalk⟩ := h.complete _ _ hR
        obtain ⟨m, hwalk'⟩ := ih
        exact ⟨1 + n + m, ((Edge.first text _ hs).walk.trans hwalk).trans hwalk'⟩

end Joins

/-! ### Repetition -/

/-- So many times a relation, one after the other. -/
def Times (R : Nat → Nat → Prop) : Nat → Nat → Nat → Prop
  | 0 => Eq
  | n + 1 => Comp R (Times R n)

section

variable {R : Nat → Nat → Prop}

theorem comp_times_times (m n : Nat) : Comp (Times R m) (Times R n) = Times R (m + n) := by
  induction m with
  | zero => rw [Times, Relation.eq_comp, Nat.zero_add]
  | succ m ih => rw [Times, Relation.comp_assoc, ih, Nat.add_right_comm, Times]

theorem times_one : Times R 1 = R := Relation.comp_eq

theorem comp_times (n : Nat) : Comp (Times R n) R = Times R (n + 1) :=
  calc Comp (Times R n) R = Comp (Times R n) (Times R 1) := by rw [times_one]
    _ = Times R (n + 1) := comp_times_times n 1

theorem reflTransGen_iff_times {i k : Nat} : ReflTransGen R i k ↔ ∃ n, Times R n i k := by
  constructor
  · intro h
    induction h using ReflTransGen.head_induction_on with
    | refl => exact ⟨0, rfl⟩
    | head hR _ ih =>
        obtain ⟨n, hn⟩ := ih
        exact ⟨n + 1, _, hR, hn⟩
  · rintro ⟨n, hn⟩
    induction n generalizing i with
    | zero => rw [show i = k from hn]
    | succ n ih =>
        obtain ⟨j, hR, hrest⟩ := hn
        exact (ih hrest).head hR

/-- A number of times that two counts allow. -/
def Between (least : Nat) (most : Option Nat) (R : Nat → Nat → Prop) (i k : Nat) : Prop :=
  ∃ n, least ≤ n ∧ (∀ m ∈ most, n ≤ m) ∧ Times R n i k

theorem between_zero_none : Between 0 none R = ReflTransGen R := by
  funext i k
  simp [Between, reflTransGen_iff_times]

theorem between_succ_iff {i k : Nat} (m : Nat) :
    Between 0 (some (m + 1)) R i k ↔ Comp R (Between 0 (some m) R) i k ∨ i = k := by
  constructor
  · rintro ⟨n, _, hle, hn⟩
    have hle := hle _ rfl
    cases n with
    | zero => exact .inr hn
    | succ n =>
        obtain ⟨j, hR, hrest⟩ := hn
        exact .inl ⟨j, hR, n, Nat.zero_le n, by simpa using hle, hrest⟩
  · rintro (⟨j, hR, n, _, hle, hn⟩ | rfl)
    · exact ⟨n + 1, Nat.zero_le _, by simpa using hle m rfl, j, hR, hn⟩
    · exact ⟨0, Nat.le_refl 0, by simp, rfl⟩

/-- A number of times first, and then as many as the counts leave. -/
theorem comp_times_between {least : Nat} {most : Option Nat} (hcounts : ∀ m ∈ most, least ≤ m)
    {i k : Nat} :
    Comp (Times R least) (Between 0 (most.map (· - least)) R) i k ↔ Between least most R i k := by
  constructor
  · rintro ⟨j, hleast, n, _, hle, hn⟩
    refine ⟨least + n, Nat.le_add_right _ _, ?_, ?_⟩
    · intro m hm
      have := hle (m - least) (by rw [hm]; rfl)
      have := hcounts m hm
      omega
    · rw [← comp_times_times]
      exact ⟨j, hleast, hn⟩
  · rintro ⟨n, hleast, hle, hn⟩
    obtain ⟨rest, rfl⟩ := Nat.le.dest hleast
    rw [← comp_times_times] at hn
    obtain ⟨j, hfirst, hrest⟩ := hn
    refine ⟨j, hfirst, rest, Nat.zero_le rest, ?_, hrest⟩
    intro m' hm'
    obtain ⟨m, hm, rfl⟩ := Option.map_eq_some_iff.1 hm'
    have := hle m hm
    omega

theorem Expr.matches_times_iff {least : Nat} {most : Option Nat} {e : Expr} {i k : Nat} :
    Matches text i (.times least most e) k ↔ Between least most (Matches text · e ·) i k := by
  constructor
  · intro h
    generalize hwhole : Expr.times least most e = whole at h
    induction h generalizing least most with
    | none i _ _ =>
        cases hwhole
        exact ⟨0, Nat.le_refl 0, fun m _ => Nat.zero_le m, rfl⟩
    | more i j k _ _ _ hmost h hrest _ ih =>
        cases hwhole
        obtain ⟨n, hleast, hle, hn⟩ := ih rfl
        refine ⟨n + 1, by omega, ?_, j, h, hn⟩
        intro m hm
        have hpred := hle (m - 1) (by rw [hm]; rfl)
        have hpos : m ≠ 0 := by
          rintro rfl
          exact hmost hm
        omega
    | _ => cases hwhole
  · rintro ⟨n, hleast, hle, hn⟩
    induction n generalizing i least most with
    | zero =>
        obtain rfl : least = 0 := by omega
        obtain rfl : i = k := hn
        exact .none i most e
    | succ n ih =>
        obtain ⟨j, h, hrest⟩ := hn
        refine .more i j k least most e ?_ h (ih (by omega) ?_ hrest)
        · rintro rfl
          exact absurd (hle 0 rfl) (by omega)
        · intro m hm
          obtain ⟨m', hm', rfl⟩ := Option.map_eq_some_iff.1 hm
          have := hle m' hm'
          omega

end

/-- A match stays inside the text. -/
theorem Expr.Matches.le_length {e : Expr} {i k : Nat} (h : e.Matches text i k)
    (hi : i ≤ text.length) : k ≤ text.length := by
  induction h with
  | empty => exact hi
  | byte i _ _ hb _ => exact (List.getElem?_eq_some_iff.1 hb).1
  | look => exact hi
  | concat _ _ _ _ _ _ _ iha ihb => exact ihb (iha hi)
  | first _ _ _ _ _ ih => exact ih hi
  | second _ _ _ _ _ ih => exact ih hi
  | none => exact hi
  | more _ _ _ _ _ _ _ _ _ ih ihrest => exact ihrest (ih hi)

/-! ### Adding states -/

/-- The second array goes on where the first ends. -/
def Extends (states more : Array State) : Prop :=
  states.size ≤ more.size ∧ ∀ i < states.size, more[i]? = states[i]?

/-- The first array has what the second has from a place on. -/
def AgreesFrom (place : Nat) (all states : Array State) : Prop :=
  ∀ i, place ≤ i → i < states.size → all[i]? = states[i]?

def State.targets : State → List Nat
  | byte _ next => [next]
  | look _ next => [next]
  | branch a b => [a, b]
  | accept _ => []

/-- All states lead to states of the array. -/
def TargetsBelow (states : Array State) : Prop :=
  ∀ state ∈ states, ∀ t ∈ state.targets, t < states.size

section

variable {more rest : Array State} {place place' : Nat}

theorem Extends.refl (states : Array State) : Extends states states :=
  ⟨Nat.le_refl _, fun _ _ => rfl⟩

theorem Extends.trans (h : Extends states more) (h' : Extends more rest) : Extends states rest :=
  ⟨Nat.le_trans h.1 h'.1, fun i hi => (h'.2 i (Nat.lt_of_lt_of_le hi h.1)).trans (h.2 i hi)⟩

theorem Extends.push (states : Array State) (state : State) : Extends states (states.push state) := by
  refine ⟨by rw [Array.size_push]; omega, ?_⟩
  intro i hi
  rw [Array.getElem?_push_lt hi, Array.getElem?_eq_getElem hi]

theorem Extends.agreesFrom (h : Extends states all) (place : Nat) : AgreesFrom place all states :=
  fun i _ hi => h.2 i hi

theorem AgreesFrom.of_extends (h : AgreesFrom place all more) (hmore : Extends states more) :
    AgreesFrom place all states := by
  intro i hplace hi
  rw [h i hplace (Nat.lt_of_lt_of_le hi hmore.1), hmore.2 i hi]

theorem AgreesFrom.mono (h : AgreesFrom place all states) (hle : place ≤ place') :
    AgreesFrom place' all states :=
  fun i hplace hi => h i (Nat.le_trans hle hplace) hi

theorem AgreesFrom.getElem?_push {state : State} (h : AgreesFrom place all (states.push state))
    (hle : place ≤ states.size) : all[states.size]? = some state := by
  rw [h _ hle (by rw [Array.size_push]; omega), Array.getElem?_push_size]

theorem TargetsBelow.push (h : TargetsBelow states) {state : State}
    (hstate : ∀ t ∈ state.targets, t ≤ states.size) : TargetsBelow (states.push state) := by
  intro state' hmem t ht
  rw [Array.size_push]
  rcases Array.mem_push.1 hmem with hmem | rfl
  · exact Nat.lt_succ_of_lt (h state' hmem t ht)
  · exact Nat.lt_succ_of_le (hstate t ht)

end

/-- States are added that join the first of them to the state that comes next. What other states
there are makes no difference. -/
structure Builds (add : Nat → Array State → Nat × Array State)
    (R : List UInt8 → Nat → Nat → Prop) : Prop where
  extends_add : ∀ next states, Extends states (add next states).2
  below : ∀ next states, next < states.size → TargetsBelow states →
    (add next states).1 < (add next states).2.size ∧ TargetsBelow (add next states).2
  joins : ∀ next states all, AgreesFrom states.size all (add next states).2 →
    ∀ text, Joins all text (add next states).1 next (R text)

namespace Builds

variable {add add' : Nat → Array State → Nat × Array State} {R S : List UInt8 → Nat → Nat → Prop}

theorem congr (h : Builds add R) (heq : ∀ text i k, R text i k ↔ S text i k) : Builds add S :=
  ⟨h.extends_add, h.below, fun next states all hall text =>
    (h.joins next states all hall text).congr (heq text)⟩

theorem refl : Builds Prod.mk fun _ => Eq :=
  ⟨fun _ states => .refl states, fun _ _ hnext hstates => ⟨hnext, hstates⟩,
    fun next _ _ _ _ => .refl next⟩

/-- What is added later stands in front of what was added before. -/
theorem comp (h : Builds add R) (h' : Builds add' S) :
    Builds (fun next states => add' (add next states).1 (add next states).2)
      fun text => Comp (S text) (R text) := by
  refine ⟨?_, ?_, ?_⟩
  · intro next states
    exact (h.extends_add next states).trans (h'.extends_add _ _)
  · intro next states hnext hstates
    obtain ⟨hfirst, hbelow⟩ := h.below next states hnext hstates
    exact h'.below _ _ hfirst hbelow
  · intro next states all hall text
    have hbefore := hall.of_extends (h'.extends_add _ _)
    exact (h'.joins _ _ all (hall.mono (h.extends_add next states).1) text).comp
      (h.joins next states all hbefore text)

theorem push {state : Nat → State} (hbelow : ∀ next, ∀ t ∈ (state next).targets, t = next)
    (hjoins : ∀ next s all, all[s]? = some (state next) → ∀ text, Joins all text s next (R text)) :
    Builds (fun next states => (states.size, states.push (state next))) R := by
  refine ⟨?_, ?_, ?_⟩
  · intro next states
    exact .push states _
  · intro next states hnext hstates
    refine ⟨by rw [Array.size_push]; omega, hstates.push ?_⟩
    intro t ht
    rw [hbelow next t ht]
    exact Nat.le_of_lt hnext
  · intro next states all hall text
    exact hjoins next _ all (hall.getElem?_push (Nat.le_refl _)) text

/-- A branch in front of two ways to the state that comes next. -/
theorem alt (h : Builds add R) (h' : Builds add' S) :
    Builds (fun next states =>
        let first := add next states
        let second := add' next first.2
        (second.2.size, second.2.push (.branch first.1 second.1)))
      fun text i k => R text i k ∨ S text i k := by
  refine ⟨?_, ?_, ?_⟩
  · intro next states
    exact ((h.extends_add next states).trans (h'.extends_add _ _)).trans (.push _ _)
  · intro next states hnext hstates
    obtain ⟨hfirst, hstates₁⟩ := h.below next states hnext hstates
    obtain ⟨hsecond, hstates₂⟩ := h'.below next (add next states).2
      (Nat.lt_of_lt_of_le hnext (h.extends_add next states).1) hstates₁
    have hle := (h'.extends_add next (add next states).2).1
    refine ⟨by simp only [Array.size_push]; omega, hstates₂.push ?_⟩
    intro t ht
    simp only [State.targets, List.mem_cons, List.not_mem_nil, or_false] at ht
    omega
  · intro next states all hall text
    have hfirst := (h.extends_add next states).1
    have hsecond := (h'.extends_add next (add next states).2).1
    have hall' := hall.of_extends (.push _ _)
    refine Joins.branch (hall.getElem?_push (by omega)) ?_ ?_
    · exact h.joins next states all (hall'.of_extends (h'.extends_add _ _)) text
    · exact h'.joins next _ all (hall'.mono hfirst) text

theorem addCopies (h : Builds add R) (n : Nat) :
    Builds (addExpr.addCopies n add) fun text => Times (R text) n := by
  induction n with
  | zero => exact refl
  | succ n ih =>
      refine (h.comp ih).congr fun text i k => ?_
      rw [comp_times]

theorem extends_addOptional (h : Builds add R) (n done next : Nat) (states : Array State) :
    Extends states (addExpr.addOptional n done add next states).2 := by
  induction n generalizing next states with
  | zero => exact .refl states
  | succ n ih => exact ((h.extends_add next states).trans (.push _ _)).trans (ih _ _)

theorem below_addOptional (h : Builds add R) (n : Nat) {done next : Nat} {states : Array State}
    (hdone : done < states.size) (hnext : next < states.size) (hstates : TargetsBelow states) :
    (addExpr.addOptional n done add next states).1
        < (addExpr.addOptional n done add next states).2.size ∧
      TargetsBelow (addExpr.addOptional n done add next states).2 := by
  induction n generalizing next states with
  | zero => exact ⟨hnext, hstates⟩
  | succ n ih =>
      obtain ⟨hfirst, hadded⟩ := h.below next states hnext hstates
      have hle := (h.extends_add next states).1
      refine ih (by rw [Array.size_push]; omega) (by rw [Array.size_push]; omega) (hadded.push ?_)
      intro t ht
      simp only [State.targets, List.mem_cons, List.not_mem_nil, or_false] at ht
      omega

/-- Each copy may be left for the state at the end. -/
theorem joins_addOptional (h : Builds add R) (n m done next : Nat) (states : Array State)
    (hall : AgreesFrom states.size all (addExpr.addOptional n done add next states).2)
    (hnext : Joins all text next done (Between 0 (some m) (R text))) :
    Joins all text (addExpr.addOptional n done add next states).1 done
      (Between 0 (some (m + n)) (R text)) := by
  induction n generalizing m next states with
  | zero => exact hnext
  | succ n ih =>
      have hle := (h.extends_add next states).1
      have hpushed := hall.of_extends (h.extends_addOptional n done (add next states).2.size _)
      have hcopy := (h.joins next states all (hpushed.of_extends (.push _ _)) text).comp hnext
      have hbranch := (hcopy.branch (hpushed.getElem?_push hle) (.refl done)).congr
        (S := Between 0 (some (m + 1)) (R text)) fun i k => (between_succ_iff m).symm
      rw [show m + (n + 1) = m + 1 + n by omega]
      exact ih _ _ _ (hall.mono (by rw [Array.size_push]; omega)) hbranch

/-- A branch that is put in front of the body leads into it again from its end. -/
theorem loop (h : Builds add R) :
    Builds (fun (next : Nat) (states : Array State) =>
        let body := add states.size (states.push (.branch next next))
        (states.size, body.2.set! states.size (.branch body.1 next)))
      fun text => ReflTransGen (R text) := by
  have hsize : ∀ (next : Nat) (states : Array State),
      states.size < (add states.size (states.push (.branch next next))).2.size := by
    intro next states
    have hle := (h.extends_add states.size (states.push (.branch next next))).1
    rw [Array.size_push] at hle
    omega
  refine ⟨?_, ?_, ?_⟩
  · intro next states
    obtain ⟨_, hbody⟩ := (Extends.push states (.branch next next)).trans (h.extends_add states.size _)
    refine ⟨?_, ?_⟩
    · simp only [Array.set!_eq_setIfInBounds, Array.size_setIfInBounds]
      exact Nat.le_of_lt (hsize next states)
    · intro i hi
      simp only [Array.set!_eq_setIfInBounds]
      rw [Array.getElem?_setIfInBounds_ne (by omega)]
      exact hbody i hi
  · intro next states hnext hstates
    have hbranch : TargetsBelow (states.push (.branch next next)) := by
      refine hstates.push ?_
      intro t ht
      simp only [State.targets, List.mem_cons, List.not_mem_nil, or_false, or_self] at ht
      omega
    obtain ⟨hfirst, hadded⟩ := h.below states.size _ (by rw [Array.size_push]; omega) hbranch
    have hlt := hsize next states
    simp only [Array.set!_eq_setIfInBounds]
    refine ⟨by rw [Array.size_setIfInBounds]; exact hlt, ?_⟩
    intro state hmem t ht
    rw [Array.size_setIfInBounds]
    rcases Array.mem_or_eq_of_mem_setIfInBounds hmem with hmem | rfl
    · exact hadded state hmem t ht
    · simp only [State.targets, List.mem_cons, List.not_mem_nil, or_false] at ht
      omega
  · intro next states all hall text
    have hlt := hsize next states
    simp only [Array.set!_eq_setIfInBounds] at hall
    refine Joins.loop (a := (add states.size (states.push (.branch next next))).1) ?_ ?_
    · rw [hall _ (Nat.le_refl _) (by rw [Array.size_setIfInBounds]; exact hlt),
        Array.getElem?_setIfInBounds_self_of_lt hlt]
    · refine h.joins _ _ all ?_ text
      intro i hplace hi
      rw [Array.size_push] at hplace
      rw [hall i (by omega) (by rw [Array.size_setIfInBounds]; exact hi),
        Array.getElem?_setIfInBounds_ne (by omega)]

theorem optional (h : Builds add R) (n : Nat) :
    Builds (fun next states => addExpr.addOptional n next add next states)
      fun text => Between 0 (some n) (R text) := by
  refine ⟨?_, ?_, ?_⟩
  · intro next states
    exact h.extends_addOptional n next next states
  · intro next states hnext hstates
    exact h.below_addOptional n hnext hnext hstates
  · intro next states all hall text
    have hnone : Joins all text next next (Between 0 (some 0) (R text)) := by
      refine (Joins.refl next).congr fun i k => ⟨fun h => ⟨0, Nat.le_refl 0, by simp, h⟩, ?_⟩
      rintro ⟨n, _, hle, hn⟩
      obtain rfl : n = 0 := Nat.le_zero.1 (hle 0 rfl)
      exact hn
    have hjoins := h.joins_addOptional n 0 next next states hall hnone
    rwa [Nat.zero_add] at hjoins

/-- Copies in front of optional copies or of a loop. -/
theorem times {body : Expr}
    (h : Builds (addExpr body) fun text i k => Expr.Matches text i body k) {least : Nat}
    {most : Option Nat} (hcounts : ∀ m ∈ most, least ≤ m) :
    Builds (addExpr (.times least most body))
      fun text i k => Expr.Matches text i (.times least most body) k := by
  have hcopies := h.addCopies least
  cases most with
  | some m =>
      refine ((h.optional (m - least)).comp hcopies).congr fun text i k => ?_
      rw [Expr.matches_times_iff, ← comp_times_between hcounts, Option.map_some]
  | none =>
      refine (h.loop.comp hcopies).congr fun text i k => ?_
      rw [Expr.matches_times_iff, ← comp_times_between hcounts, Option.map_none, between_zero_none]

end Builds

/-- No repetition in the expression has a greater least count than its most. -/
def Expr.CountsInOrder : Expr → Prop
  | empty => True
  | byte _ => True
  | look _ => True
  | concat a b => a.CountsInOrder ∧ b.CountsInOrder
  | alt a b => a.CountsInOrder ∧ b.CountsInOrder
  | times least most body => (∀ m ∈ most, least ≤ m) ∧ body.CountsInOrder

/-- The states of an expression join by what it matches. -/
theorem builds_addExpr {e : Expr} (he : e.CountsInOrder) :
    Builds (addExpr e) fun text i k => e.Matches text i k := by
  induction e with
  | empty =>
      refine Builds.refl.congr fun text i k => ⟨?_, ?_⟩
      · rintro rfl
        exact .empty i
      · intro h
        cases h
        rfl
  | byte set =>
      refine (Builds.push (fun next t ht => by simpa [State.targets] using ht)
        fun next s all hs text => Joins.byte hs).congr fun text i k => ⟨?_, ?_⟩
      · rintro ⟨rfl, b, hb, hset⟩
        exact .byte i set b hb hset
      · intro h
        cases h with
        | byte _ _ b hb hset => exact ⟨rfl, b, hb, hset⟩
  | look assertion =>
      refine (Builds.push (fun next t ht => by simpa [State.targets] using ht)
        fun next s all hs text => Joins.look hs).congr fun text i k => ⟨?_, ?_⟩
      · rintro ⟨rfl, hholds⟩
        exact .look k assertion hholds
      · intro h
        cases h with
        | look _ _ hholds => exact ⟨rfl, hholds⟩
  | concat a b iha ihb =>
      refine ((ihb he.2).comp (iha he.1)).congr fun text i k => ⟨?_, ?_⟩
      · rintro ⟨j, ha, hb⟩
        exact .concat i j k a b ha hb
      · intro h
        cases h with
        | concat _ j _ _ _ ha hb => exact ⟨j, ha, hb⟩
  | alt a b iha ihb =>
      refine ((iha he.1).alt (ihb he.2)).congr fun text i k => ⟨?_, ?_⟩
      · rintro (ha | hb)
        · exact .first i k a b ha
        · exact .second i k a b hb
      · intro h
        cases h with
        | first _ _ _ _ ha => exact .inl ha
        | second _ _ _ _ hb => exact .inr hb
  | times least most body ih => exact (ih he.2).times he.1

/-! ### Automata of several patterns -/

/-- The first states and all states of the patterns so far. -/
structure Recognizes (exprs : List Expr) (found : List Nat × Array State) : Prop where
  targets : TargetsBelow found.2
  entries : ∀ s ∈ found.1, s < found.2.size
  length : found.1.length = exprs.length
  joins : ∀ (p : Nat) (e : Expr) (s : Nat), exprs[p]? = some e → found.1[p]? = some s →
    ∀ all, Extends found.2 all → ∃ t, all[t]? = some (.accept p) ∧
      ∀ text, Joins all text s t fun i k => e.Matches text i k

theorem recognizes_nil : Recognizes [] ([], #[]) :=
  ⟨by simp [TargetsBelow], by simp, rfl, by simp⟩

theorem Recognizes.addPattern {exprs : List Expr} {found : List Nat × Array State}
    (h : Recognizes exprs found) {e : Expr} (he : e.CountsInOrder) :
    Recognizes (exprs ++ [e]) (addPattern found e) := by
  have hbuilds := builds_addExpr he
  let next := found.2.size
  let pushed := found.2.push (.accept found.1.length)
  have hsize : pushed.size = next + 1 := Array.size_push _
  have hadded : Extends pushed (addExpr e next pushed).2 := hbuilds.extends_add next pushed
  have hmore : Extends found.2 (addExpr e next pushed).2 := (Extends.push _ _).trans hadded
  obtain ⟨hfirst, htargets⟩ := hbuilds.below next pushed (by omega)
    (h.targets.push fun t ht => absurd ht (by simp [State.targets]))
  refine ⟨htargets, ?_, ?_, ?_⟩
  · intro s hs
    rcases List.mem_append.1 hs with hs | hs
    · exact Nat.lt_of_lt_of_le (h.entries s hs) hmore.1
    · rw [List.mem_singleton.1 hs]
      exact hfirst
  · simp only [Pattern.addPattern, List.length_append, List.length_cons, List.length_nil, h.length]
  · intro p e' s he' hs all hall
    by_cases hp : p < exprs.length
    · rw [List.getElem?_append_left hp] at he'
      rw [Pattern.addPattern, List.getElem?_append_left (by rw [h.length]; exact hp)] at hs
      exact h.joins p e' s he' hs all (hmore.trans hall)
    · have hlast : p = exprs.length := by
        have hlt := (List.getElem?_eq_some_iff.1 he').1
        rw [List.length_append, List.length_singleton] at hlt
        omega
      subst hlast
      rw [List.getElem?_append_right (Nat.le_refl _), Nat.sub_self] at he'
      rw [Pattern.addPattern, ← h.length, List.getElem?_append_right (Nat.le_refl _),
        Nat.sub_self] at hs
      cases he'
      cases hs
      refine ⟨next, ?_, fun text => hbuilds.joins next pushed all (hall.agreesFrom _) text⟩
      rw [(hadded.trans hall).2 next (by omega), Array.getElem?_push_size, h.length]

theorem recognizes_foldl {exprs : List Expr} (he : ∀ e ∈ exprs, e.CountsInOrder) :
    Recognizes exprs (exprs.foldl addPattern ([], #[])) := by
  induction exprs using List.reverseRecOn with
  | nil => exact recognizes_nil
  | append_singleton exprs e ih =>
      rw [List.foldl_append]
      exact (ih fun e' he' => he e' (List.mem_append_left _ he')).addPattern
        (he e (List.mem_append_right _ (List.mem_singleton_self e)))

/-- The states in which the patterns start. -/
def entriesOf (exprs : List Expr) : List Nat := (exprs.foldl addPattern ([], #[])).1

/-- A walk from the first states accepts a pattern where the pattern matches. -/
theorem exists_walk_iff_matches {exprs : List Expr} (he : ∀ e ∈ exprs, e.CountsInOrder) (p k : Nat) :
    (∃ s ∈ entriesOf exprs, ∃ n t, Walk (Automaton.ofExprs exprs).states text n s 0 t k ∧
        (Automaton.ofExprs exprs).states[t]? = some (.accept p)) ↔
      ∃ e, exprs[p]? = some e ∧ e.Matches text 0 k := by
  have hrec := recognizes_foldl he
  rw [Automaton.states_ofExprs]
  have hjoins : ∀ (p : Nat) (e : Expr) (s : Nat), exprs[p]? = some e →
      (entriesOf exprs)[p]? = some s → _ :=
    fun p e s hp hs => hrec.joins p e s hp hs _ (.refl _)
  constructor
  · rintro ⟨s, hs, n, t, hwalk, ht⟩
    obtain ⟨q, hq, rfl⟩ := List.mem_iff_getElem.1 hs
    have hq' : q < exprs.length := by rwa [← hrec.length]
    obtain ⟨t', ht', hjoin⟩ := hjoins q _ _ (List.getElem?_eq_getElem hq')
      (List.getElem?_eq_getElem hq)
    obtain ⟨k', m, _, hmatch, hrest⟩ := (hjoin text).sound n 0 t k p ht hwalk
    obtain ⟨rfl, rfl⟩ := hrest.eq_of_accept ht'
    rw [ht, Option.some.injEq, State.accept.injEq] at ht'
    subst ht'
    exact ⟨_, List.getElem?_eq_getElem hq', hmatch⟩
  · rintro ⟨e, hp, hmatch⟩
    have hlt := (List.getElem?_eq_some_iff.1 hp).1
    have hlt' : p < (entriesOf exprs).length := by
      rw [entriesOf, hrec.length]
      exact hlt
    obtain ⟨t, ht, hjoin⟩ := hjoins p e _ hp (List.getElem?_eq_getElem hlt')
    obtain ⟨n, hwalk⟩ := (hjoin text).complete 0 k hmatch
    exact ⟨_, List.getElem_mem hlt', n, t, hwalk, ht⟩

end IncrementalLR.Pattern
