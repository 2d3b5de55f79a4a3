import IncrementalLR.Proofs.Language
import IncrementalLR.Proofs.Table.Lookups

/-!
# Lookups of the lexer

As it runs, the lexer looks up the terminals of a lex mode and the kinds of the patterns that match.
The automaton accepts no pattern but those it was made from, so that in a closed table all of these
lookups are in bounds, and so are those that make the lexer.
-/

namespace IncrementalLR

/-! ### Patterns of an automaton -/

namespace Pattern

variable {n : Nat} {states : Array State}

/-- The automaton accepts patterns below a bound only. -/
def AcceptsBelow (n : Nat) (states : Array State) : Prop :=
  ∀ i, State.accept i ∈ states → i < n

theorem AcceptsBelow.push (h : AcceptsBelow n states) {state : State}
    (hstate : ∀ i, state = .accept i → i < n) : AcceptsBelow n (states.push state) := by
  intro i hi
  rcases Array.mem_push.1 hi with hi | hi
  · exact h i hi
  · exact hstate i hi.symm

theorem AcceptsBelow.set! (h : AcceptsBelow n states) (place first second : Nat) :
    AcceptsBelow n (states.set! place (.branch first second)) := by
  intro i hi
  rw [Array.set!_eq_setIfInBounds] at hi
  rcases Array.mem_or_eq_of_mem_setIfInBounds hi with hi | hi
  · exact h i hi
  · cases hi

/-- Adding states keeps the patterns below the bound. -/
def KeepsBelow (n : Nat) (add : Nat → Array State → Nat × Array State) : Prop :=
  ∀ next states, AcceptsBelow n states → AcceptsBelow n (add next states).2

theorem keepsBelow_addCopies (count : Nat) {add : Nat → Array State → Nat × Array State}
    (hadd : KeepsBelow n add) : KeepsBelow n (addExpr.addCopies count add) := by
  induction count with
  | zero => exact fun _ _ h => h
  | succ count ih => exact fun next states h => ih _ _ (hadd next states h)

theorem keepsBelow_addOptional (count done : Nat) {add : Nat → Array State → Nat × Array State}
    (hadd : KeepsBelow n add) : KeepsBelow n (addExpr.addOptional count done add) := by
  induction count with
  | zero => exact fun _ _ h => h
  | succ count ih =>
      exact fun next states h => ih _ _ ((hadd next states h).push fun _ hi => State.noConfusion hi)

theorem keepsBelow_addExpr (e : Expr) : KeepsBelow n (addExpr e) := by
  induction e with
  | empty => exact fun _ _ h => h
  | byte set => exact fun _ _ h => h.push fun _ hi => State.noConfusion hi
  | look assertion => exact fun _ _ h => h.push fun _ hi => State.noConfusion hi
  | concat a b iha ihb => exact fun next states h => iha _ _ (ihb next states h)
  | alt a b iha ihb =>
      exact fun next states h =>
        (ihb next _ (iha next states h)).push fun _ hi => State.noConfusion hi
  | times least most body ih =>
      intro next states h
      cases most with
      | some most =>
          rw [addExpr]
          exact keepsBelow_addCopies least ih _ _ (keepsBelow_addOptional _ _ ih _ _ h)
      | none =>
          rw [addExpr]
          refine keepsBelow_addCopies least ih _ _ (AcceptsBelow.set! (ih _ _ ?_) _ _ _)
          exact h.push fun _ hi => State.noConfusion hi

/-- The first states of the patterns so far and all states, with one more pattern. -/
def addPattern (found : List Nat × Array State) (e : Expr) : List Nat × Array State :=
  let added := addExpr e found.2.size (found.2.push (.accept found.1.length))
  (found.1 ++ [added.1], added.2)

theorem Automaton.states_ofExprs (exprs : List Expr) :
    (Automaton.ofExprs exprs).states = (exprs.foldl addPattern ([], #[])).2 :=
  rfl

theorem acceptsBelow_foldl_addPattern (exprs : List Expr) {found : List Nat × Array State}
    (h : AcceptsBelow (found.1.length + exprs.length) found.2) :
    AcceptsBelow (found.1.length + exprs.length) (exprs.foldl addPattern found).2 := by
  induction exprs generalizing found with
  | nil => exact h
  | cons e exprs ih =>
      have hnext : AcceptsBelow (found.1.length + (e :: exprs).length) (addPattern found e).2 := by
        refine keepsBelow_addExpr e _ _ (h.push fun i hi => ?_)
        cases hi
        simp
      have hlength : found.1.length + (e :: exprs).length
          = (addPattern found e).1.length + exprs.length := by
        simp only [addPattern, List.length_append, List.length_cons, List.length_nil]
        omega
      rw [hlength] at hnext ⊢
      exact ih hnext

/-- An automaton accepts the patterns that it was made from. -/
theorem Automaton.lt_of_mem_acceptedIn {exprs : List Expr} {numbers : List Nat} {i : Nat}
    (h : i ∈ (Automaton.ofExprs exprs).acceptedIn numbers) : i < exprs.length := by
  let initial : List Nat × Array State := ([], #[])
  have hnone : AcceptsBelow (initial.1.length + exprs.length) initial.2 :=
    fun i hi => absurd hi (by simp [initial])
  have hstates := acceptsBelow_foldl_addPattern exprs hnone
  rw [List.length_nil, Nat.zero_add, ← Automaton.states_ofExprs] at hstates
  obtain ⟨number, _, haccept⟩ := List.mem_filterMap.1 h
  split at haccept
  · rename_i hstate
    cases haccept
    exact hstates i (Array.mem_of_getElem? hstate)
  · cases haccept

end Pattern

/-! ### Runs of the lexer -/

namespace Lexer

/-- What a run in a lex mode looks up: the terminals of the mode, the kinds of patterns that match,
and whether tokens, words and keywords are among the terminals. -/
inductive RunLooksUp (lexer : Lexer) (mode : LexMode) : Lookup → Prop
  | row : RunLooksUp lexer mode (.mode mode)
  | pattern (states : List Nat) (i : Nat) (hi : i ∈ lexer.automaton.acceptedIn states) :
      RunLooksUp lexer mode (.pattern i)
  | token (s : Symbol) (literal : Bool) (hs : .token s literal ∈ lexer.patterns) :
      RunLooksUp lexer mode (.terminal s)
  | word (s : Symbol) (i : Nat) (hs : lexer.word = some (s, i)) :
      RunLooksUp lexer mode (.terminal s)
  | keyword (spelled : List UInt8) (s : Symbol) (hs : lexer.keywords[spelled]? = some s) :
      RunLooksUp lexer mode (.terminal s)

/-- What is looked up for a token in a lex mode. Where nothing is found the mode of errors is tried;
an external scanner is told only whether a symbol is a valid terminal. -/
def LooksUp (lexer : Lexer) (mode : LexMode) (k : Lookup) : Prop :=
  lexer.RunLooksUp mode k ∨ lexer.RunLooksUp LexMode.error k

/-- The lookups that fill the rows of the lex modes. -/
def buildLookups (t : Table) : List Lookup :=
  t.lexModes.toList.flatMap fun mode => mode.toList.map Lookup.terminal

/-- The lexer was made from the table. -/
structure MadeFrom (lexer : Lexer) (t : Table) : Prop where
  terminalCount : lexer.terminalCount = t.terminalCount
  valid : lexer.valid.size = t.lexModes.size
  patterns : ∀ states, ∀ i ∈ lexer.automaton.acceptedIn states, i < lexer.patterns.size
  tokens : ∀ (s : Symbol) (literal : Bool), .token s literal ∈ lexer.patterns →
    ∃ token ∈ t.lexical.tokens, token.symbol = s
  word : ∀ (s : Symbol) (i : Nat), lexer.word = some (s, i) →
    ∃ token ∈ t.lexical.tokens, token.symbol = s
  keywords : ∀ (spelled : List UInt8) (s : Symbol), lexer.keywords[spelled]? = some s →
    ∃ k ∈ t.lexical.keywords, k.2 = s
  externals : lexer.externals = t.externals

theorem madeFrom_ofTable {t : Table} {lexer : Lexer} (h : Lexer.ofTable t = .ok lexer) :
    lexer.MadeFrom t := by
  rw [Lexer.ofTable] at h
  simp only at h
  split at h
  · cases h
  · rename_i exprs hexprs
    cases h
    have hlength : exprs.length = t.lexical.tokens.size + t.lexical.skips.size := by
      have hmap := length_of_mapM_eq_some hexprs
      simpa using hmap
    refine ⟨rfl, Array.size_map, fun states i hi => ?_, fun s literal hs => ?_, fun s i hs => ?_,
      fun spelled s hs => ?_, rfl⟩
    · have hlt := Pattern.Automaton.lt_of_mem_acceptedIn hi
      rw [hlength] at hlt
      simpa using hlt
    · rcases Array.mem_append.1 hs with hs | hs
      · obtain ⟨token, hmem, heq⟩ := Array.mem_map.1 hs
        rw [PatternKind.token.injEq] at heq
        exact ⟨token, hmem, heq.1⟩
      · obtain ⟨skip, _, heq⟩ := Array.mem_map.1 hs
        cases heq
    · exact mem_wordPattern hs
    · simp only at hs
      rw [← Array.foldl_toList] at hs
      refine keywords_foldl_insert (P := fun s => ∃ k ∈ t.lexical.keywords, k.2 = s) ?_ ?_ hs
      · exact fun k hk => ⟨k, Array.mem_toList_iff.1 hk, rfl⟩
      · intro key s hs
        simp at hs

variable {l : Language} {k : Lookup}

theorem inBounds_of_runLooksUp (hlexer : l.lexer.MadeFrom l.table) (ht : l.table.IsClosed)
    {mode : LexMode} (hmode : mode.toNat < l.table.lexModes.size)
    (h : l.lexer.RunLooksUp mode k) : k.InBounds l := by
  have hterminal : ∀ s : Symbol, s.index < l.table.terminalCount → (Lookup.terminal s).InBounds l :=
    fun s hs => Nat.lt_of_lt_of_eq hs hlexer.terminalCount.symm
  cases h with
  | row => exact Nat.lt_of_lt_of_eq hmode hlexer.valid.symm
  | pattern states i hi => exact hlexer.patterns states i hi
  | token s literal hs =>
      obtain ⟨token, htoken, rfl⟩ := hlexer.tokens s literal hs
      exact hterminal _ (ht.tokens token htoken)
  | word s i hs =>
      obtain ⟨token, htoken, rfl⟩ := hlexer.word s i hs
      exact hterminal _ (ht.tokens token htoken)
  | keyword spelled s hs =>
      obtain ⟨keyword, hkeyword, rfl⟩ := hlexer.keywords spelled s hs
      exact hterminal _ (ht.keywords keyword hkeyword)

theorem inBounds_of_looksUp (hlexer : l.lexer.MadeFrom l.table) (ht : l.table.IsClosed)
    {mode : LexMode} (hmode : mode.toNat < l.table.lexModes.size) (h : l.lexer.LooksUp mode k) :
    k.InBounds l :=
  h.elim (inBounds_of_runLooksUp hlexer ht hmode)
    (inBounds_of_runLooksUp hlexer ht ht.size_lexModes)

theorem inBounds_buildLookups (hlexer : l.lexer.MadeFrom l.table) (ht : l.table.IsClosed)
    (h : k ∈ buildLookups l.table) : k.InBounds l := by
  obtain ⟨mode, hmode, hk⟩ := List.mem_flatMap.1 h
  obtain ⟨s, hs, rfl⟩ := List.mem_map.1 hk
  exact Nat.lt_of_lt_of_eq
    (ht.lexModes mode (Array.mem_toList_iff.1 hmode) s (Array.mem_toList_iff.1 hs))
    hlexer.terminalCount.symm

end Lexer

end IncrementalLR
