import Mathlib.Logic.Function.Iterate
import IncrementalLR.Proofs.Automaton.First
import IncrementalLR.Proofs.Table.Acceptance

/-!
# The rounds of first sets

The first sets are computed in rounds over the productions. A round reads every right-hand side from
left to right, up to the first symbol that is not nullable, and each symbol that it reads hands its
terminals on to the symbol on the left, which has nothing to hand on to itself. The rounds go on as
long as they change something. They come to an end, and then the sets say of every symbol, and of every
sequence of symbols, whether it derives the empty string and with which terminals the strings that it
derives start. This needs no symbol to derive a string of terminals at all.
-/

namespace IncrementalLR.FirstSets

variable {g : Grammar}

/-- The sets with more terminals for one symbol. -/
def grow (f : FirstSets) (s : Symbol) (set : SymbolSet) : FirstSets :=
  { f with first := f.first.modify s.index fun old => old.union set }

/-- Reads a right-hand side for the symbol on the left. -/
def readRhs (lhs : Symbol) : List Symbol → FirstSets → FirstSets
  | [], f => { f with nullable := f.nullable.insert lhs }
  | s :: rest, f =>
    let next := if s = lhs then f else f.grow lhs (f.firstOf s)
    if next.nullable.contains s then readRhs lhs rest next else next

def round (g : Grammar) (f : FirstSets) : FirstSets :=
  g.productions.foldl (fun f p => readRhs p.lhs p.rhs f) f

/-- The sets after some rounds. -/
def rounds (g : Grammar) (n : Nat) : FirstSets := (round g)^[n] (initial g)

/-! ### Reading a right-hand side -/

variable {f : FirstSets} {lhs s : Symbol} {set set' : SymbolSet}

theorem firstOf_grow_of_ne (h : s ≠ lhs) : (f.grow lhs set).firstOf s = f.firstOf s :=
  getD_modify_of_ne (fun heq => h (Symbol.index_injective heq.symm)) _ _

theorem grow_empty : f.grow lhs SymbolSet.empty = f := by
  have hid : (fun old : SymbolSet => old.union SymbolSet.empty) = id :=
    funext SymbolSet.union_empty
  rw [grow, hid, modify_id]

theorem grow_grow : (f.grow lhs set).grow lhs set' = f.grow lhs (set.union set') := by
  have hcomp : (fun old : SymbolSet => old.union set') ∘ (fun old : SymbolSet => old.union set)
      = fun old => old.union (set.union set') := funext fun old => SymbolSet.union_assoc old set set'
  rw [grow, grow, grow, modify_modify, hcomp]

/-- A symbol has nothing to hand on to itself. -/
theorem grow_self_union : f.grow s (set.union ((f.firstOf s).union set')) = f.grow s (set.union set') := by
  refine congrArg (FirstSets.mk · f.nullable) (modify_congr fun old hold => ?_)
  have hfirst : f.firstOf s = old := by
    rw [firstOf, Array.getD_eq_getD_getElem?, hold, Option.getD_some]
  rw [hfirst]
  refine SymbolSet.ext fun i => ?_
  simp only [SymbolSet.union, Nat.testBit_or]
  cases old.bits.testBit i <;> simp

/-- With what has been handed on so far, the rest of the right-hand side adds what it starts with. -/
theorem readRhs_grow (symbols : List Symbol) (set : SymbolSet) :
    readRhs lhs symbols (f.grow lhs set)
      = { f.grow lhs (set.union (f.ofSeq symbols).1) with
          nullable := if (f.ofSeq symbols).2 then f.nullable.insert lhs else f.nullable } := by
  induction symbols generalizing set with
  | nil =>
      rw [ofSeq, SymbolSet.union_empty]
      rfl
  | cons s rest ih =>
      have hnullable : ∀ set, (f.grow lhs set).nullable = f.nullable := fun _ => rfl
      rw [readRhs, ofSeq]
      by_cases hs : s = lhs
      · subst hs
        simp only [if_true, hnullable]
        split
        · rw [ih, grow_self_union]
        · rw [← SymbolSet.union_empty (f.firstOf s), grow_self_union, SymbolSet.union_empty]
          rfl
      · simp only [if_neg hs, firstOf_grow_of_ne hs, grow_grow, hnullable]
        split
        · rw [ih, SymbolSet.union_assoc]
        · rfl

theorem readRhs_eq_addProduction (f : FirstSets) (p : Production) :
    readRhs p.lhs p.rhs f = f.addProduction p := by
  have h : readRhs p.lhs p.rhs (f.grow p.lhs SymbolSet.empty) = _ :=
    readRhs_grow p.rhs SymbolSet.empty
  rw [grow_empty, SymbolSet.empty_union] at h
  exact h

theorem round_eq_addAll (g : Grammar) : round g = addAll g := by
  funext f
  rw [round, addAll]
  simp only [readRhs_eq_addProduction]

/-! ### The last round -/

/-- The fuel counts the rounds that change something. -/
theorem exists_iterate_eq_close (g : Grammar) (fuel : Nat) (f : FirstSets) :
    ∃ n, (∀ i < n, (addAll g)^[i + 1] f ≠ (addAll g)^[i] f) ∧ (addAll g)^[n] f = close g fuel f := by
  induction fuel generalizing f with
  | zero => exact ⟨0, by simp, rfl⟩
  | succ fuel ih =>
      rw [close]
      split
      · exact ⟨0, by simp, rfl⟩
      · rename_i hne
        obtain ⟨n, hchanges, hend⟩ := ih (addAll g f)
        refine ⟨n + 1, fun i hi => ?_, hend⟩
        cases i with
        | zero => exact hne
        | succ i => exact hchanges i (by omega)

/-- The first round that changes nothing ends with the sets. -/
theorem exists_rounds_eq_ofGrammar (hg : g.WellFormed) :
    ∃ n, (∀ i < n, rounds g (i + 1) ≠ rounds g i) ∧ rounds g (n + 1) = rounds g n ∧
      rounds g n = ofGrammar g := by
  obtain ⟨n, hchanges, hend⟩ := exists_iterate_eq_close g
    (g.symbols.size * (g.terminalCount + 1) + 1) (initial g)
  have hrounds : ∀ i, rounds g i = (addAll g)^[i] (initial g) := fun i => by
    rw [rounds, round_eq_addAll]
  have hlast : rounds g n = ofGrammar g := (hrounds n).trans hend
  refine ⟨n, fun i hi => ?_, ?_, hlast⟩
  · rw [hrounds, hrounds]
    exact hchanges i hi
  · rw [rounds, Function.iterate_succ_apply', ← rounds, hlast, round_eq_addAll]
    exact addAll_close hg (within_initial hg) (by omega)

/-- The rounds for a loaded grammar come to an end. Then a symbol is nullable just when it derives the
empty string, its first set holds a terminal just when the symbol derives a string that starts with
it, and the same goes for sequences of symbols. -/
theorem ofGrammar_exact {d : GrammarDef} (hload : Grammar.load d = .ok g) :
    (∃ n, (∀ i < n, rounds g (i + 1) ≠ rounds g i) ∧ rounds g (n + 1) = rounds g n ∧
      rounds g n = ofGrammar g) ∧
    (∀ s, (ofGrammar g).nullable.contains s = true ↔ g.Derives [s] []) ∧
    (∀ s x, ((ofGrammar g).firstOf s).contains x = true ↔
      g.isTerminal x = true ∧ ∃ w, g.Derives [s] (x :: w)) ∧
    ∀ symbols, (((ofGrammar g).ofSeq symbols).2 = true ↔ g.Derives symbols []) ∧
      ∀ x, ((ofGrammar g).ofSeq symbols).1.contains x = true ↔
        g.isTerminal x = true ∧ ∃ w, g.Derives symbols (x :: w) := by
  have hg := Grammar.load_wellFormed hload
  refine ⟨exists_rounds_eq_ofGrammar hg, fun s => ?_, fun s x => ?_, fun symbols =>
    ⟨ofSeq_snd_iff hg, fun x => contains_ofSeq_iff hg⟩⟩
  · rw [← ofSeq_snd_iff hg, ofSeq_singleton_snd]
  · rw [← contains_ofSeq_singleton, contains_ofSeq_iff hg, Grammar.Starts]

/-- A rule of one optional token derives the empty string, in a row with itself too, and in front of
the token nothing but the token can start. -/
theorem ofGrammar_exact_optionalToken : Grammar.load .optionalToken = .ok .optionalToken ∧
    Grammar.optionalToken.Derives [⟨3⟩, ⟨3⟩] [] ∧
    ¬ Grammar.optionalToken.Derives [⟨3⟩, ⟨1⟩] [] ∧
    ∀ x w, Grammar.optionalToken.isTerminal x = true →
      Grammar.optionalToken.Derives [⟨3⟩, ⟨1⟩] (x :: w) → x = ⟨1⟩ := by
  obtain ⟨-, -, -, hseq⟩ := ofGrammar_exact load_optionalToken
  refine ⟨load_optionalToken, (hseq _).1.1 (by decide +kernel), fun hnil => ?_,
    fun x w hx hw => ?_⟩
  · have hnull := (hseq _).1.2 hnil
    revert hnull
    decide +kernel
  · have hstart := ((hseq _).2 x).2 ⟨hx, w, hw⟩
    have hset : ((ofGrammar .optionalToken).ofSeq [⟨3⟩, ⟨1⟩]).1 = SymbolSet.singleton ⟨1⟩ := by
      decide +kernel
    rwa [hset, SymbolSet.contains_singleton, decide_eq_true_iff] at hstart

end IncrementalLR.FirstSets
