import IncrementalLR.Proofs.Parse.Attempts
import IncrementalLR.Proofs.Parse.Marks

/-!
# Recovery leaves marks

The symbols of an insertion were tried out on the states of the stack, and putting them in does to the
stack what the trial did to its states; so the first of them becomes a missing token on the stack.
Every other plan, and skipping the lookahead, puts skipped text there. Only a stack that is closed at
the end of the text may stay without a mark, and then it is not over the start symbol.
-/

namespace IncrementalLR

open Subtree (anyError structuralSymbols)

namespace Recovery

/-- The simulation takes the first of the actions. -/
theorem firstAction_eq (t : Table) (state : StateId) (s : Symbol) :
    firstAction t state s = ((t.actionList state s).head?).getD .error := by
  rw [firstAction, Table.actionList]
  cases t.action state s with
  | ambig entry => simp [List.head?_eq_getElem?]
  | _ => rfl

end Recovery

/-- What is accepted is marked, or it is not over the start symbol. -/
def Accepted.Marked (start : Symbol) (a : Accepted) : Prop :=
  anyError a.trees = true ∨ structuralSymbols a.trees ≠ [start]

namespace ParseSetting

variable {g : Grammar} {policy : ConflictPolicy} {setting : ParseSetting} {s : ParseState} {i : Nat}
  {v : Version}

/-! ### Plans -/

/-- The token that the plan counts on can be consumed once it is carried out. The plan puts in symbols
that can be consumed before, or takes off or skips something. -/
def Plan.Resumes (table : Table) (stack : Stack) (tokens : List Subtree) : Plan → Prop
  | .insert symbols _ => symbols ⊆ Recovery.insertable table ∧ symbols ≠ [] ∧
      ∃ states lookahead, symbols.foldlM (Recovery.simulate table) stack.structuralStates = some states ∧
        tokens[0]? = some lookahead ∧ (Recovery.simulate table states lookahead.symbol).isSome = true
  | .skip popped skipped => popped ≤ stack.frames.length ∧ (popped ≠ 0 ∨ skipped ≠ 0) ∧
      ∃ token, tokens[skipped]? = some token ∧ (Recovery.simulate table
        { stack with frames := stack.frames.drop popped }.structuralStates token.symbol).isSome = true

theorem exists_skip_of_mem_resumePlans {states : List StateId} {popped : Nat} {covered : Length}
    {skipped : Nat} {passed : Length} {tokens : List Subtree} {cost : Cost} {plan : Plan}
    (h : (cost, plan) ∈ setting.resumePlans states popped covered skipped passed tokens) :
    ∃ k token, plan = .skip popped (skipped + k) ∧ (popped ≠ 0 ∨ skipped + k ≠ 0) ∧
      tokens[k]? = some token ∧
      (Recovery.simulate setting.table states token.symbol).isSome = true := by
  induction tokens generalizing skipped passed with
  | nil => cases h
  | cons token rest ih =>
      rw [resumePlans] at h
      rcases List.mem_append.1 h with h | h
      · split at h
        · cases h
        · rename_i hresumes
          cases List.mem_singleton.1 h
          simp only [Bool.or_eq_true, Bool.and_eq_true, beq_iff_eq, not_or, Option.isNone_iff_eq_none]
            at hresumes
          obtain ⟨⟨⟨hsome, _⟩, _⟩, hstates⟩ := hresumes
          exact ⟨0, token, rfl, by tauto, rfl, Option.isSome_iff_ne_none.2 hstates⟩
      · obtain ⟨k, found, rfl, hsome, hfound, hstates⟩ := ih h
        have hsum : skipped + 1 + k = skipped + (k + 1) := by omega
        rw [hsum] at hsome ⊢
        exact ⟨k + 1, found, rfl, hsome, hfound, hstates⟩

theorem exists_skip_of_mem_skipPlans {tokens : List Subtree} {base : StateId} {popped : Nat}
    {covered : Length} {frames : List Stack.Frame} {cost : Cost} {plan : Plan}
    (h : (cost, plan) ∈ setting.skipPlans tokens base popped covered frames) :
    ∃ n k token, plan = .skip (popped + n) k ∧ n ≤ frames.length ∧ (popped + n ≠ 0 ∨ k ≠ 0) ∧
      tokens[k]? = some token ∧ (Recovery.simulate setting.table
        (Stack.mk base (frames.drop n)).structuralStates token.symbol).isSome = true := by
  have hhere : ∀ {popped : Nat} {covered : Length} {frames : List Stack.Frame},
      (cost, plan) ∈ setting.resumePlans (Stack.mk base frames).structuralStates popped covered 0
        Length.zero tokens →
      ∃ n k token, plan = .skip (popped + n) k ∧ n ≤ frames.length ∧ (popped + n ≠ 0 ∨ k ≠ 0) ∧
        tokens[k]? = some token ∧ (Recovery.simulate setting.table
          (Stack.mk base (frames.drop n)).structuralStates token.symbol).isSome = true := by
    intro popped covered frames h
    obtain ⟨k, token, rfl, hsome, htoken, hstates⟩ := exists_skip_of_mem_resumePlans h
    rw [Nat.zero_add] at hsome ⊢
    exact ⟨0, k, token, rfl, Nat.zero_le _, hsome, htoken, hstates⟩
  induction frames generalizing popped covered with
  | nil =>
      rw [skipPlans] at h
      simp only at h
      split at h
      · cases h
      · rw [List.append_nil] at h
        exact hhere h
  | cons top below ih =>
      rw [skipPlans] at h
      simp only at h
      split at h
      · cases h
      · rcases List.mem_append.1 h with h | h
        · exact hhere h
        · obtain ⟨n, k, token, rfl, hle, hsome, htoken, hstates⟩ := ih h
          have hsum : popped + 1 + n = popped + (n + 1) := by omega
          rw [hsum] at hsome ⊢
          exact ⟨n + 1, k, token, rfl, Nat.succ_le_succ hle, hsome, htoken, hstates⟩

theorem resumes_of_mem_skipPlans {stack : Stack} {tokens : List Subtree} {cost : Cost} {plan : Plan}
    (h : (cost, plan) ∈ setting.skipPlans tokens stack.base 0 Length.zero stack.frames) :
    Plan.Resumes setting.table stack tokens plan := by
  obtain ⟨n, k, token, rfl, hle, hsome, htoken, hstates⟩ := exists_skip_of_mem_skipPlans h
  rw [Nat.zero_add] at hsome ⊢
  exact ⟨hle, hsome, token, htoken, hstates⟩

theorem resumes_of_mem_insertPlans {stack : Stack} {lookahead : Subtree} {more : List Subtree}
    {cost : Cost} {plan : Plan} (h : (cost, plan) ∈ setting.insertPlans stack lookahead) :
    Plan.Resumes setting.table stack (lookahead :: more) plan := by
  rw [insertPlans] at h
  split at h
  · cases h
  · split at h
    · cases h
    · rename_i insertion hfound
      simp only at h
      split at h
      · cases List.mem_singleton.1 h
        obtain ⟨hinsertable, hne, hcomes, hlookahead⟩ := Recovery.spec_of_missingTokens hfound
        exact ⟨hinsertable, hne, insertion.states, lookahead, hcomes, rfl, hlookahead⟩
      · cases h

/-- The plans of a recovery. -/
theorem resumes_of_mem_plans {stack : Stack} {lookahead : Subtree} {more : List Subtree}
    {cost : Cost} {plan : Plan} (h : (cost, plan) ∈ (setting.insertPlans stack lookahead ++
      setting.skipPlans (lookahead :: more) stack.base 0 Length.zero stack.frames).mergeSort
        fun a b => a.1 ≤ b.1) :
    Plan.Resumes setting.table stack (lookahead :: more) plan := by
  rcases List.mem_append.1 (List.mem_mergeSort.1 h) with h | h
  · exact resumes_of_mem_insertPlans h
  · exact resumes_of_mem_skipPlans h

/-! ### Missing tokens -/

theorem CompiledFrom.ne_eof_of_insertable (h : setting.CompiledFrom g policy) {symbol : Symbol}
    (hsymbol : symbol ∈ Recovery.insertable setting.table) : symbol ≠ Symbol.eof := by
  obtain ⟨hfrom, _⟩ := Table.compile_eq_ok h.table
  have hcount := Table.terminalCount_le h.grammar hfrom
  exact ((Recovery.mem_insertable_iff hcount).1 hsymbol).2.1

/-- A token that can be consumed in the states of the stack is put in, and leads to the states to which
the trial led. -/
theorem CompiledFrom.exists_insertMissing (h : setting.CompiledFrom g policy) {symbol : Symbol}
    (hsymbol : symbol ∈ Recovery.insertable setting.table) {fuel : Nat} {states : List StateId}
    (hv : s.versions[i]? = some v) (hpath : v.stack.Path g setting.table)
    (hconsume : Recovery.consume setting.table symbol fuel v.stack.structuralStates = some states) :
    ∃ stack : Stack, stack.hasError = true ∧ stack.Path g setting.table ∧
      stack.structuralStates = states ∧ (setting.insertMissing i symbol fuel s).versions
        = s.versions.set i { v with stack := stack } := by
  obtain ⟨hfrom, _⟩ := Table.compile_eq_ok h.table
  induction fuel generalizing s v with
  | zero => cases hconsume
  | succ fuel ih =>
      obtain ⟨rest, hrest⟩ := hpath.exists_structuralStates
      have htoken := h.hasToken_of_insertable hsymbol
      rw [hrest, Recovery.consume, Recovery.firstAction_eq] at hconsume
      rw [insertMissing, hv]
      simp only
      cases haction : (setting.table.actionList v.stack.state symbol).head? with
      | none =>
          rw [haction] at hconsume
          cases hconsume
      | some action =>
          have hmem := List.mem_of_mem_head? haction
          rw [haction, Option.getD_some] at hconsume
          cases action with
          | shift next =>
              simp only at hconsume ⊢
              rw [Option.some.injEq] at hconsume
              obtain ⟨hstep, _, hne⟩ := h.step?_of_shift htoken.has hmem
              have hstructural : (Subtree.ofMissing setting.table s.nextId symbol
                  (setting.table.lexMode v.stack.state)).isStructural = true := bne_iff_ne.2 hne
              refine ⟨_, ?_, hpath.push_structural (applied_ofMissing s.nextId _ htoken) hstructural
                hstep, ?_, rfl⟩
              · rw [Stack.hasError_push]
                rfl
              · rw [Stack.structuralStates_push false hstructural, hrest, hconsume]
          | accept =>
              rcases htoken with rfl | ⟨hterminal, _⟩
              · cases hmem
              · exact absurd (Table.eq_eof_of_accept h.grammar h.table hterminal hmem)
                  (h.ne_eof_of_insertable hsymbol)
          | reduce p =>
              have hreduces := hpath.reduces h.grammar h.table h.fit htoken.has hmem
              simp only at hconsume ⊢
              rw [← hrest, reduceStates_structuralStates h.grammar hfrom hpath hreduces s.isForked
                s.nextId, Option.bind_some] at hconsume
              obtain ⟨stack, herror, hpath', hstates, hversions⟩ := ih (getElem?_reduce hv p)
                (path_reduceStack h.grammar h.table h.fit h.fitTable hpath hreduces _ _) hconsume
              refine ⟨stack, herror, hpath', hstates, hversions.trans ?_⟩
              rw [reduce, hv]
              exact List.set_set ..
          | error => cases hconsume
          | goto => cases hconsume
          | ambig => cases hconsume

/-! ### Recoveries -/

/-- Once all versions of a fresh parse are marked, they stay marked. -/
def CompiledFrom.marking (h : setting.CompiledFrom g policy) : setting.Invariant none where
  Holds v := setting.Reached none v ∧ v.stack.hasError = true
  Accepts := Accepted.Marked setting.table.startSymbol
  moves := fun ⟨hreached, herror⟩ hmove =>
    ⟨.move _ _ hreached hmove, h.hasError_of_moves hreached herror hmove⟩
  accepts := by
    rintro v a ⟨_, herror⟩ haccepted
    refine .inl ?_
    rw [haccepted.trees, Stack.anyError_trees]
    exact herror

theorem CompiledFrom.sound_marking (h : setting.CompiledFrom g policy)
    (hs : s.Sound (setting.reaching none)) (hversions : ∀ v ∈ s.versions, v.stack.hasError = true)
    (haccepted : ∀ a ∈ s.accepted, a.Marked setting.table.startSymbol) : s.Sound h.marking where
  versions v hv := ⟨hs.versions v hv, hversions v hv⟩
  accepted := haccepted
  cache := hs.cache
  reuse := hs.reuse
  input := hs.input
  alive := hs.alive

theorem accepted_lex (position : Nat) (mode : LexMode) :
    (setting.lex s position mode).2.accepted = s.accepted := by
  rw [lex]
  simp only
  split
  · rfl
  · rfl

theorem accepted_nextToken (v : Version) : (setting.nextToken s v).2.accepted = s.accepted := by
  rw [nextToken]
  cases s.reuse with
  | none => exact accepted_lex ..
  | some cursor =>
      by_cases hforked : s.isForked = true
      · simp only [if_pos hforked]
        exact accepted_lex ..
      · simp only [if_neg hforked]
        cases (cursor.take setting.table v.position.bytes v.stack.state).1 with
        | none => exact accepted_lex ..
        | some tree =>
            simp only
            split
            · rfl
            · rfl

theorem accepted_fetch (v : Version) : (setting.fetch s v).2.accepted = s.accepted := by
  rw [fetch]
  split
  · rfl
  · exact accepted_nextToken v

theorem accepted_upcoming (position : Length) (last : Subtree) (limit : Nat) :
    (setting.upcoming s position last limit).2.accepted = s.accepted := by
  induction limit generalizing s position last with
  | zero => rfl
  | succ limit ih =>
      rw [upcoming]
      split
      · rfl
      · exact (ih _ _).trans (accepted_lex ..)

theorem accepted_insertMissing (symbol : Symbol) (fuel : Nat) :
    (setting.insertMissing i symbol fuel s).accepted = s.accepted := by
  induction fuel generalizing s with
  | zero => rfl
  | succ fuel ih =>
      rw [insertMissing]
      split
      · rfl
      · simp only
        split
        · rw [ih, reduce]
          split
          · rfl
          · rfl
        · rfl
        · rfl

theorem accepted_insertAll (symbols : List Symbol) (fuel : Nat) :
    (symbols.foldl (fun s symbol => setting.insertMissing i symbol fuel s) s).accepted
      = s.accepted := by
  induction symbols generalizing s with
  | nil => rfl
  | cons symbol symbols ih => exact ih.trans (accepted_insertMissing symbol fuel)

theorem accepted_setLookahead (tree : Subtree) :
    (setLookahead s i tree).accepted = s.accepted := by
  rw [setLookahead]
  split
  · rfl
  · rfl

theorem accepted_carryOut (lookahead : Subtree) (tokens : List Subtree) (plans : List Plan) :
    (setting.carryOut i v lookahead tokens s plans).2.accepted = s.accepted := by
  induction plans generalizing s with
  | nil => rfl
  | cons plan plans ih =>
      cases plan with
      | insert symbols state =>
          rw [carryOut]
          simp only
          split
          · exact (accepted_setLookahead _).trans ((accepted_insertAll ..).trans (accepted_lex ..))
          · exact ih.trans (accepted_lex ..)
      | skip popped skipped =>
          rw [carryOut]
          simp only
          split
          · exact accepted_lex ..
          · exact ih.trans (accepted_lex ..)

theorem CompiledFrom.sound_marking_carryOut (h : setting.CompiledFrom g policy)
    (hs : s.Sound (setting.reaching none)) (hv : s.versions = [v]) (haccepted : s.accepted = [])
    {lookahead : Subtree} (hlookahead : v.lookahead = some lookahead)
    (hleaf : lookahead.isLeaf = true) {more : List Subtree}
    (hmore : setting.LexesAll (v.position + lookahead.total) more) {plans : List Plan}
    (hplans : ∀ plan ∈ plans, Plan.Resumes setting.table v.stack (lookahead :: more) plan)
    (hdone : (setting.carryOut 0 v lookahead (lookahead :: more) s plans).1 = true) :
    (setting.carryOut 0 v lookahead (lookahead :: more) s plans).2.Sound h.marking := by
  induction plans generalizing s with
  | nil => cases hdone
  | cons plan plans ih =>
      obtain ⟨hresumes, hothers⟩ := List.forall_mem_cons.1 hplans
      have hfirst : s.versions[0]? = some v := by rw [hv]; rfl
      have hreached := hs.of_getElem? hfirst
      cases plan with
      | insert symbols state =>
          obtain ⟨hlexes, hsound, hversions⟩ :=
            lex_spec hs v.position.bytes (setting.table.lexMode state)
          have hkept : (setting.lex s v.position.bytes (setting.table.lexMode state)).2.accepted
              = s.accepted := accepted_lex ..
          rw [carryOut] at hdone ⊢
          simp only at hdone ⊢
          split
          · obtain ⟨hinsertable, hne, after, _, hsimulated, _⟩ := hresumes
            obtain ⟨first, rest, rfl⟩ := List.exists_cons_of_ne_nil hne
            obtain ⟨hsymbol, hrest⟩ := List.cons_subset.1 hinsertable
            rw [List.foldlM_cons] at hsimulated
            obtain ⟨states, hstates, _⟩ := Option.bind_eq_some_iff.1 hsimulated
            obtain ⟨stack, herror, _, _, hset⟩ := h.exists_insertMissing hsymbol
              (by rw [hversions, hfirst]) (h.onPath_of_fresh hreached).stack hstates
            obtain ⟨hinserted, hposition⟩ :=
              sound_insertMissing hsound hsymbol Recovery.simulationLimit (i := 0)
            have hmarked := h.sound_marking hinserted (by simpa [hset, hversions, hv] using herror)
              (by simp [accepted_insertMissing, hkept, haccepted])
            obtain ⟨hall, hposition'⟩ :=
              sound_insertAll hmarked hrest Recovery.simulationLimit (i := 0)
            rw [hposition, hversions, hfirst] at hposition'
            exact sound_setLookahead hall hposition' hlexes
          · rename_i hfails
            rw [if_neg hfails] at hdone
            exact ih hsound (hversions.trans hv) (hkept.trans haccepted) hothers hdone
      | skip popped skipped =>
          obtain ⟨hlexes, hsound, hversions⟩ := lex_spec hs
            (((lookahead :: more).take skipped).foldl (fun p token => p + token.total)
              v.position).bytes
            (setting.table.lexMode { v.stack with frames := v.stack.frames.drop popped }.state)
          rw [carryOut] at hdone ⊢
          simp only at hdone ⊢
          split
          · obtain ⟨hle, hsome, _⟩ := hresumes
            have hskips : ((v.stack.frames.take popped).map (·.tree)).reverse ++
                (lookahead :: more).take skipped ≠ [] := by
              intro hnil
              have hlength := congrArg List.length hnil
              simp only [List.length_append, List.length_reverse, List.length_map, List.length_take,
                List.length_cons, List.length_nil] at hlength
              omega
            refine h.sound_marking ((hsound.withNextId _).setVersion (.move v _ hreached
              (.skip v lookahead _ more popped skipped _ _ hlookahead hleaf hmore hlexes))) ?_
              (by simp [ParseState.setVersion, accepted_lex, haccepted])
            intro w hw
            simp only [ParseState.setVersion, hversions, hv, List.set_cons_zero,
              List.mem_singleton] at hw
            rw [hw]
            exact hasError_skipVersion (.inr hskips)
          · rename_i hfails
            rw [if_neg hfails] at hdone
            exact ih hsound (hversions.trans hv) ((accepted_lex ..).trans haccepted) hothers hdone

/-- A stack that is closed at the end of the text without a mark is not over the start symbol, for
then there would have been an action. -/
theorem CompiledFrom.marked_of_actionList_eof (h : setting.CompiledFrom g policy)
    (hreached : setting.Reached none v)
    (hnone : setting.table.actionList v.stack.state Symbol.eof = []) {a : Accepted}
    (ha : a.trees = v.stack.trees) : a.Marked setting.table.startSymbol := by
  obtain ⟨hfrom, _⟩ := Table.compile_eq_ok h.table
  refine .inr fun hsole => ?_
  rw [ha, hfrom.startSymbol] at hsole
  exact (h.onPath_of_fresh hreached).stack.actionList_eof_ne_nil h.grammar h.table h.fit hsole hnone

theorem CompiledFrom.sound_marking_recover (h : setting.CompiledFrom g policy)
    (hs : s.Sound (setting.reaching none)) (hv : s.versions = [v]) (haccepted : s.accepted = [])
    {lookahead : Subtree} (hlookahead : v.lookahead = some lookahead)
    (hleaf : lookahead.isLeaf = true)
    (hnone : setting.table.actionList v.stack.state lookahead.symbol = []) :
    (setting.recover s 0 v lookahead).Sound h.marking := by
  have hrecovered := sound_recover (i := 0) hs (by rw [hv]; rfl) hlookahead hleaf
  obtain ⟨hmore, hsound, hversions⟩ := upcoming_spec hs (v.position + lookahead.total) lookahead
    setting.options.maxSkippedTokens
  have hnothing : (setting.upcoming s (v.position + lookahead.total) lookahead
      setting.options.maxSkippedTokens).2.accepted = [] := (accepted_upcoming ..).trans haccepted
  have hsingle := hversions.trans hv
  rw [recover] at hrecovered ⊢
  simp only at hrecovered ⊢
  generalize setting.upcoming s (v.position + lookahead.total) lookahead
    setting.options.maxSkippedTokens = looked at *
  obtain ⟨more, s'⟩ := looked
  generalize hplans : (setting.insertPlans v.stack lookahead ++ _).mergeSort _ = plans
    at hrecovered ⊢
  have hresumes : ∀ plan ∈ plans.map (·.2), Plan.Resumes setting.table v.stack
      (lookahead :: more) plan := by
    intro plan hplan
    obtain ⟨⟨cost, _⟩, hmem, rfl⟩ := List.mem_map.1 hplan
    rw [← hplans] at hmem
    exact resumes_of_mem_plans hmem
  have hreached : setting.Reached none v := hs.of_getElem? (i := 0) (by rw [hv]; rfl)
  have hinsertable : ∀ symbols state, .insert symbols state ∈ plans.map (·.2) →
      symbols ⊆ Recovery.insertable setting.table :=
    fun symbols state hmem => (hresumes (.insert symbols state) hmem).1
  obtain ⟨_, hkept⟩ := carryOut_spec (i := 0) hsound (by rw [hsingle]; rfl) hlookahead hleaf hmore
    hinsertable
  split at hrecovered
  · rename_i hdone
    rw [if_pos hdone]
    exact h.sound_marking_carryOut hsound hsingle hnothing hlookahead hleaf hmore hresumes hdone
  · rename_i hdone
    have hfails := Bool.eq_false_iff.2 hdone
    have hkept := (hkept hfails).trans hsingle
    have hnothing : (setting.carryOut 0 v lookahead (lookahead :: more) s'
        (plans.map (·.2))).2.accepted = [] := (accepted_carryOut ..).trans hnothing
    rw [if_neg hdone]
    split at hrecovered
    · rename_i heof
      rw [if_pos heof]
      rw [eq_of_beq heof] at hnone
      generalize (setting.carryOut 0 v lookahead _ _ _).2 = s' at hrecovered hkept hnothing ⊢
      refine h.sound_marking hrecovered ?_ ?_
      · simp [accept, hkept, ParseState.removeVersion]
      · simp only [accept, hkept, hnothing, List.getElem?_cons_zero, List.nil_append,
          List.mem_singleton]
        rintro a rfl
        exact h.marked_of_actionList_eof hreached hnone rfl
    · rename_i heof
      rw [if_neg heof]
      refine h.sound_marking hrecovered ?_ (by simp [ParseState.setVersion, hnothing])
      simp [ParseState.setVersion, hkept, hasError_ofSkipped]

/-! ### Every recovery leaves a mark -/

/-- What an operation does to the versions if it begins a recovery. -/
def CompiledFrom.Recovers (h : setting.CompiledFrom g policy) (before : Nat × Nat)
    (result : ParseState × Option ParseStatus) : Prop :=
  result.1.attempts = before ∨ result.2 ≠ none ∨ result.1.Sound h.marking

theorem CompiledFrom.recovers_handleError (h : setting.CompiledFrom g policy)
    (hs : s.Sound (setting.reaching none)) (hv : s.versions[i]? = some v) {lookahead : Subtree}
    (hlookahead : v.lookahead = some lookahead) (hleaf : lookahead.isLeaf = true)
    (hnone : setting.table.actionList v.stack.state lookahead.symbol = []) :
    h.Recovers s.attempts (setting.handleError s i v lookahead) := by
  have hsettled := (isFresh_of_reached (hs.of_getElem? hv)).settled
  rw [handleError, breakPending_of_settled hsettled]
  simp only
  split
  · exact .inl rfl
  · rename_i hothers
    rw [if_neg Bool.false_ne_true]
    split
    · exact .inr (.inl (Option.some_ne_none _))
    · obtain ⟨hforked, hnothing⟩ : s.isForked = false ∧ s.accepted = [] := by simpa using hothers
      obtain ⟨hsingle, rfl⟩ := ParseState.eq_singleton hforked hv
      have hset := hs.setVersion (i := 0) (hs.of_getElem? hv)
      refine .inr (.inr (h.sound_marking_recover (v := v) ?_ ?_ ?_ hlookahead hleaf hnone))
      · exact ⟨hset.versions, hset.accepted, hset.cache, hset.reuse, hset.input, hset.alive⟩
      · simp [ParseState.setVersion, hsingle]
      · exact hnothing

theorem CompiledFrom.recovers_advance (h : setting.CompiledFrom g policy)
    (hs : s.Sound (setting.reaching none)) (i : Nat) :
    h.Recovers s.attempts (setting.advance s i) := by
  cases hv : s.versions[i]? with
  | none =>
      rw [advance, hv]
      exact .inl rfl
  | some v =>
      obtain ⟨hsound, hset⟩ := sound_looking hs hv
      have hcount : (setting.looking s i v).attempts = s.attempts := attempts_fetch v
      have hoperation := operation_advance setting hv
      generalize setting.advance s i = result at hoperation ⊢
      rw [← hcount]
      cases hoperation with
      | reused => exact .inl (attempts_advanceReused ..)
      | extra => exact .inl (attempts_shift ..)
      | error hleaf hnone => exact h.recovers_handleError hsound hset rfl hleaf hnone
      | actions => exact .inl ((attempts_apply ..).trans (attempts_fork ..))

end ParseSetting

end IncrementalLR
