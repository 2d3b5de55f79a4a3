import IncrementalLR.Proofs.Parse.Recovery

/-!
# What a recovery leads to

A recovery that neither moves its version on nor closes it at the end of the text leaves it in states
that consume its lookahead: this was tried out on the states, the stack has come to the same states,
and the lexer gives the same token in the mode that holds there.
-/

namespace IncrementalLR

namespace ParseSetting

/-- The lookahead was lexed where the version stands, and is consumed in the states of its stack. -/
structure Consumes (setting : ParseSetting) (v : Version) (t : Subtree) : Prop where
  lookahead : v.lookahead = some t
  lexes : ∃ mode, setting.Lexes v.position.bytes mode t
  states : ∃ fuel out,
    Recovery.consume setting.table t.symbol fuel v.stack.structuralStates = some out

/-- What a recovery makes of the only version. -/
inductive Recovered (setting : ParseSetting) (v : Version) (s : ParseState) : Prop
  | closed (hversions : s.versions = []) (h : s.accepted ≠ [])
  | moved (w : Version) (hversions : s.versions = [w]) (h : v.position.bytes < w.position.bytes)
  | resumed (w : Version) (t : Subtree) (hversions : s.versions = [w]) (haccepted : s.accepted = [])
      (hposition : w.position = v.position) (h : setting.Consumes w t)

variable {g : Grammar} {policy : ConflictPolicy} {setting : ParseSetting} {old : Option ReuseCursor}
  {s : ParseState} {v : Version} {lookahead : Subtree} {more : List Subtree}

/-- Tokens that can be consumed one after the other are put in, and lead to the states to which the
trial led. -/
theorem CompiledFrom.exists_insertAll (h : setting.CompiledFrom g policy) {symbols : List Symbol}
    (hsymbols : symbols ⊆ Recovery.insertable setting.table) {states : List StateId}
    (hv : s.versions = [v]) (hpath : v.stack.Path g setting.table)
    (hstates : symbols.foldlM (Recovery.simulate setting.table) v.stack.structuralStates
      = some states) :
    ∃ stack : Stack, stack.structuralStates = states ∧
      (symbols.foldl (fun s symbol => setting.insertMissing 0 symbol Recovery.simulationLimit s)
        s).versions = [{ v with stack := stack }] ∧
      (symbols.foldl (fun s symbol => setting.insertMissing 0 symbol Recovery.simulationLimit s)
        s).accepted = s.accepted := by
  induction symbols generalizing s v with
  | nil => exact ⟨v.stack, Option.some.inj hstates, hv, rfl⟩
  | cons symbol symbols ih =>
      obtain ⟨hsymbol, hothers⟩ := List.cons_subset.1 hsymbols
      rw [List.foldlM_cons] at hstates
      obtain ⟨after, hafter, hrest⟩ := Option.bind_eq_some_iff.1 hstates
      obtain ⟨stack, _, hpath', rfl, hset⟩ :=
        h.exists_insertMissing hsymbol (i := 0) (by rw [hv]; rfl) hpath hafter
      rw [hv] at hset
      obtain ⟨stack', hstates', hversions, haccepted⟩ :=
        ih hothers hset hpath' hrest
      exact ⟨stack', hstates', hversions, haccepted.trans (accepted_insertMissing ..)⟩

/-- Skipped text leaves the states of the stack as they are. -/
theorem structuralStates_skipVersion (tokens : List Subtree) (popped skipped id : Nat)
    (relexed : Subtree) :
    (setting.skipVersion v tokens popped skipped id relexed).stack.structuralStates
      = { v.stack with frames := v.stack.frames.drop popped }.structuralStates := by
  rw [skipVersion]
  simp only
  split
  · rfl
  · exact Stack.structuralStates_push_other false (by simp [Subtree.isStructural])

theorem symbol_of_sameToken {a b : Subtree} (h : sameToken a b = true) : a.symbol = b.symbol := by
  rw [sameToken, Bool.and_eq_true, Bool.and_eq_true] at h
  exact eq_of_beq h.1.1

theorem consumes_of_simulate {t token : Subtree} {mode : LexMode} {states : List StateId}
    (hlookahead : v.lookahead = some t) (hlex : setting.Lexes v.position.bytes mode t)
    (hsame : sameToken t token = true) (hstates : v.stack.structuralStates = states)
    (h : (Recovery.simulate setting.table states token.symbol).isSome = true) :
    setting.Consumes v t := by
  obtain ⟨out, hout⟩ := Option.isSome_iff_exists.1 h
  refine ⟨hlookahead, ⟨mode, hlex⟩, Recovery.simulationLimit, out, ?_⟩
  rw [hstates, symbol_of_sameToken hsame]
  exact hout

theorem versions_setVersion (hv : s.versions = [v]) (w : Version) :
    (s.setVersion 0 w).versions = [w] := by
  rw [ParseState.setVersion, hv]
  rfl

/-- A version that has skipped tokens has moved on. One that has only taken off subtrees goes on with
its lookahead. -/
theorem recovered_skip {popped skipped id : Nat} {relexed : Subtree} {mode : LexMode}
    (hpos : lookahead.symbol ≠ Symbol.eof → 0 < lookahead.total.bytes)
    (heof : lookahead.symbol = Symbol.eof → more = [])
    (hresumes : Plan.Resumes setting.table v.stack (lookahead :: more) (.skip popped skipped))
    (hlexes : setting.Lexes
      (setting.skipVersion v (lookahead :: more) popped skipped id relexed).position.bytes mode
      relexed)
    (hsame : ((lookahead :: more)[skipped]?).any (sameToken relexed) = true)
    (hversions : s.versions = [setting.skipVersion v (lookahead :: more) popped skipped id relexed])
    (haccepted : s.accepted = []) : setting.Recovered v s := by
  obtain ⟨_, _, token, htoken, hconsumed⟩ := hresumes
  rw [htoken, Option.any_some] at hsame
  cases skipped with
  | zero =>
      exact .resumed _ relexed hversions haccepted rfl
        (consumes_of_simulate rfl hlexes hsame (structuralStates_skipVersion _ popped 0 _ _)
          hconsumed)
  | succ skipped =>
      have hne : lookahead.symbol ≠ Symbol.eof := by
        intro hsymbol
        rw [heof hsymbol] at htoken
        cases htoken
      refine .moved _ hversions ?_
      have hpos := hpos hne
      rw [bytes_skipVersion, List.take_succ_cons, Subtree.totalAll, Length.bytes_add]
      omega

/-- The plan that is carried out moves the version on, or resumes it where it stands. -/
theorem CompiledFrom.recovered_carryOut (h : setting.CompiledFrom g policy)
    (hs : s.Sound (setting.reaching old)) (hv : s.versions = [v]) (haccepted : s.accepted = [])
    (hpath : v.stack.Path g setting.table)
    (hpos : lookahead.symbol ≠ Symbol.eof → 0 < lookahead.total.bytes)
    (heof : lookahead.symbol = Symbol.eof → more = []) {plans : List Plan}
    (hplans : ∀ plan ∈ plans, Plan.Resumes setting.table v.stack (lookahead :: more) plan)
    (hdone : (setting.carryOut 0 v lookahead (lookahead :: more) s plans).1 = true) :
    setting.Recovered v (setting.carryOut 0 v lookahead (lookahead :: more) s plans).2 := by
  induction plans generalizing s with
  | nil => cases hdone
  | cons plan plans ih =>
      obtain ⟨hresumes, hothers⟩ := List.forall_mem_cons.1 hplans
      cases plan with
      | insert symbols state =>
          obtain ⟨hlexes, hsound, hversions⟩ :=
            lex_spec hs v.position.bytes (setting.table.lexMode state)
          have hkept : (setting.lex s v.position.bytes (setting.table.lexMode state)).2.accepted
              = s.accepted := accepted_lex ..
          rw [carryOut] at hdone ⊢
          simp only at hdone ⊢
          split
          · rename_i hsame
            obtain ⟨hinsertable, _, states, token, hsimulated, htoken, hconsumed⟩ := hresumes
            cases htoken
            obtain ⟨stack, hstates, hset, hnothing⟩ :=
              h.exists_insertAll hinsertable (hversions.trans hv) hpath hsimulated
            rw [setLookahead, hset]
            exact .resumed { v with stack := stack, lookahead := some _ } _
              (versions_setVersion hset _) (hnothing.trans (hkept.trans haccepted)) rfl
              (consumes_of_simulate rfl hlexes hsame hstates hconsumed)
          · rename_i hfails
            rw [if_neg hfails] at hdone
            exact ih hsound (hversions.trans hv) (hkept.trans haccepted) hothers hdone
      | skip popped skipped =>
          obtain ⟨hlexes, hsound, hversions⟩ := lex_spec hs
            (((lookahead :: more).take skipped).foldl (fun p token => p + token.total)
              v.position).bytes
            (setting.table.lexMode { v.stack with frames := v.stack.frames.drop popped }.state)
          rw [carryOut] at hdone ⊢
          simp only at hdone ⊢
          split
          · rename_i hsame
            exact recovered_skip hpos heof hresumes hlexes hsame
              (versions_setVersion (hversions.trans hv) _) ((accepted_lex ..).trans haccepted)
          · rename_i hfails
            rw [if_neg hfails] at hdone
            exact ih hsound (hversions.trans hv) ((accepted_lex ..).trans haccepted) hothers hdone

theorem upcoming_of_eof (position : Length) (heof : lookahead.symbol = Symbol.eof) (limit : Nat) :
    (setting.upcoming s position lookahead limit).1 = [] := by
  cases limit with
  | zero => rfl
  | succ limit => rw [upcoming, if_pos (beq_iff_eq.2 heof)]

/-- A recovery closes its version, moves it on or resumes it. -/
theorem CompiledFrom.recovered_recover (h : setting.CompiledFrom g policy)
    (hold : ∀ start ∈ old, ∃ root, start = ReuseCursor.ofRoot root ∧ AppliedRoot setting.table root)
    (hs : s.Sound (setting.reaching old)) (hv : s.versions = [v]) (haccepted : s.accepted = [])
    (hlookahead : v.lookahead = some lookahead) (hleaf : lookahead.isLeaf = true)
    (hpos : lookahead.symbol ≠ Symbol.eof → 0 < lookahead.total.bytes) :
    setting.Recovered v (setting.recover s 0 v lookahead) := by
  have hreached : setting.Reached old v := hs.of_getElem? (i := 0) (by rw [hv]; rfl)
  have hpath := (h.onPath_of_reached hold hreached).stack
  obtain ⟨hmore, hsound, hversions⟩ := upcoming_spec hs (v.position + lookahead.total) lookahead
    setting.options.maxSkippedTokens
  have heof : lookahead.symbol = Symbol.eof → (setting.upcoming s (v.position + lookahead.total)
      lookahead setting.options.maxSkippedTokens).1 = [] := fun heof => upcoming_of_eof _ heof _
  have hnothing : (setting.upcoming s (v.position + lookahead.total) lookahead
      setting.options.maxSkippedTokens).2.accepted = [] := (accepted_upcoming ..).trans haccepted
  have hsingle := hversions.trans hv
  rw [recover]
  simp only
  generalize setting.upcoming s (v.position + lookahead.total) lookahead
    setting.options.maxSkippedTokens = looked at *
  obtain ⟨more, s'⟩ := looked
  generalize hplans : (setting.insertPlans v.stack lookahead ++ _).mergeSort _ = plans
  have hresumes : ∀ plan ∈ plans.map (·.2), Plan.Resumes setting.table v.stack
      (lookahead :: more) plan := by
    intro plan hplan
    obtain ⟨⟨cost, _⟩, hmem, rfl⟩ := List.mem_map.1 hplan
    rw [← hplans] at hmem
    exact resumes_of_mem_plans hmem
  obtain ⟨_, hkept⟩ := carryOut_spec (i := 0) hsound (by rw [hsingle]; rfl) hlookahead hleaf hmore
    (fun symbols state hmem => (hresumes (.insert symbols state) hmem).1)
  split
  · rename_i hdone
    exact h.recovered_carryOut hsound hsingle hnothing hpath hpos heof hresumes hdone
  · rename_i hdone
    have hfails := Bool.eq_false_iff.2 hdone
    have hkept := (hkept hfails).trans hsingle
    split
    · rw [accept, hkept]
      exact .closed (by rw [ParseState.removeVersion, hkept]; rfl)
        (List.append_ne_nil_of_right_ne_nil _ (List.cons_ne_nil _ _))
    · rename_i hsymbol
      have hpos := hpos (mt beq_iff_eq.2 hsymbol)
      refine .moved _ (versions_setVersion hkept _) ?_
      rw [Length.bytes_add]
      omega

end ParseSetting

end IncrementalLR
