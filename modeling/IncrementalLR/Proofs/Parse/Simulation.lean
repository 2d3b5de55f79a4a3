import IncrementalLR.Proofs.Parse.Advancing
import IncrementalLR.Proofs.Parse.Recovery

/-!
# Trials on states

A recovery tries out on the states of a stack what would become of a token. A version that holds the
token makes the same reductions: extras and skipped text stand between the frames that count, but they
are neither counted nor do they change the state. So the trial ends as the version does, and with the
states that the version then has.
-/

namespace IncrementalLR

namespace ParseSetting

/-- The version at a place takes in the token that it holds, with so many operations. Each does the
first action of its cell: these are reductions, until the token is shifted or the version is accepted.
No cell on the way is empty, so no error is handled. The stack is that from which the version goes on,
or with which it is accepted. -/
inductive TakesIn (setting : ParseSetting) (i : Nat) (token : Subtree) :
    Nat → ParseState → Stack → Prop
  | shift (s s' : ParseState) (v : Version) (next : StateId) (others : List Action)
      (hv : s.versions[i]? = some v) (hlookahead : v.lookahead = some token)
      (hactions : setting.table.actionList v.stack.state token.symbol = .shift next :: others)
      (hadvance : setting.advance s i = (s', none))
      (hshifted : s'.versions[i]? = some (shiftVersion v next token false)) :
      TakesIn setting i token 1 s (v.stack.push next token false)
  | accept (s s' : ParseState) (v : Version) (others : List Action) (before : List Accepted)
      (a : Accepted) (hv : s.versions[i]? = some v) (hlookahead : v.lookahead = some token)
      (hactions : setting.table.actionList v.stack.state token.symbol = .accept :: others)
      (hadvance : setting.advance s i = (s', none)) (haccepted : s'.accepted = before ++ [a])
      (htrees : a.trees = v.stack.trees) : TakesIn setting i token 1 s v.stack
  | reduce (s s' : ParseState) (v : Version) (p : ProductionId) (others : List Action) (count : Nat)
      (after : Stack) (hv : s.versions[i]? = some v) (hlookahead : v.lookahead = some token)
      (hactions : setting.table.actionList v.stack.state token.symbol = .reduce p :: others)
      (hadvance : setting.advance s i = (s', none)) (h : TakesIn setting i token count s' after) :
      TakesIn setting i token (count + 1) s after

variable {g : Grammar} {policy : ConflictPolicy} {setting : ParseSetting} {s : ParseState} {i : Nat}
  {v : Version} {token : Subtree} {action : Action} {others : List Action}

/-- The forks of a version come behind it, and then it does the first action itself. -/
theorem exists_advance_eq_apply (hv : s.versions[i]? = some v) (hlookahead : v.lookahead = some token)
    (hleaf : token.isLeaf = true)
    (hactions : setting.table.actionList v.stack.state token.symbol = action :: others) :
    ∃ s' : ParseState, s'.versions[i]? = some v ∧
      setting.advance s i = (setting.apply s' i token action, none) := by
  have hfetch : setting.fetch s v = (token, s) := by
    rw [fetch, hlookahead]
  have hself : { v with lookahead := some token } = v := by
    rw [← hlookahead]
  have hlooking : (setting.looking s i v).versions[i]? = some v := by
    rw [looking, hfetch, hself]
    exact ParseState.getElem?_setVersion hv v
  have hoperation := operation_advance setting hv
  rw [hfetch, hself] at hoperation
  generalize setting.advance s i = result at hoperation ⊢
  cases hoperation with
  | reused hnode =>
      rw [hleaf] at hnode
      cases hnode
  | extra _ hnone =>
      rw [hactions] at hnone
      cases hnone
  | error _ hnone =>
      rw [hactions] at hnone
      cases hnone
  | actions ambigs first rest _ hfirst =>
      rw [hactions] at hfirst
      cases hfirst
      obtain ⟨made, hmade, _⟩ := exists_fork setting v token
        ((setting.looking s i v).count fun c => { c with ambigs := ambigs }) others
      refine ⟨_, ?_, rfl⟩
      rw [hmade]
      exact (List.getElem?_append_left (List.getElem?_eq_some_iff.1 hlooking).1).trans hlooking

/-- One round of the trial on the states of a stack. -/
theorem consume_structuralStates (hpath : v.stack.Path g setting.table) (symbol : Symbol)
    (fuel : Nat) : Recovery.consume setting.table symbol (fuel + 1) v.stack.structuralStates =
      match ((setting.table.actionList v.stack.state symbol).head?).getD .error with
      | .shift next => some (next :: v.stack.structuralStates)
      | .accept => some v.stack.structuralStates
      | .reduce p => (Recovery.reduceStates setting.table p v.stack.structuralStates).bind
          (Recovery.consume setting.table symbol fuel)
      | .error | .goto _ | .ambig _ => none := by
  obtain ⟨rest, hrest⟩ := hpath.exists_structuralStates
  rw [hrest, ← Recovery.firstAction_eq]
  rfl

section Compiled

variable (h : setting.CompiledFrom g policy) (hleaf : token.isLeaf = true)
  (hextra : token.flags.extra = false) (hhas : setting.table.Has token.symbol)

include h hhas

/-- The states that a reduction leaves are those of the trial, and the stack is a path again. -/
theorem CompiledFrom.reduceStates_eq (hpath : v.stack.Path g setting.table) {p : ProductionId}
    (hactions : setting.table.actionList v.stack.state token.symbol = .reduce p :: others)
    (forked : Bool) (id : Nat) :
    Recovery.reduceStates setting.table p v.stack.structuralStates
        = some (setting.reduceStack forked p id v.stack).1.structuralStates ∧
      (setting.reduceStack forked p id v.stack).1.Path g setting.table := by
  obtain ⟨hfrom, _⟩ := Table.compile_eq_ok h.table
  have hreduces : v.stack.Reduces setting.table p := by
    apply hpath.reduces h.grammar h.table h.fit hhas
    rw [hactions]
    exact List.mem_cons_self
  exact ⟨reduceStates_structuralStates h.grammar hfrom hpath hreduces forked id,
    path_reduceStack h.grammar h.table h.fit h.fitTable hpath hreduces forked id⟩

include hextra

/-- A token that is shifted counts on the stack. -/
theorem CompiledFrom.structuralStates_shift {next : StateId}
    (hactions : setting.table.actionList v.stack.state token.symbol = .shift next :: others) :
    (v.stack.push next token false).structuralStates = next :: v.stack.structuralStates := by
  have hshift : .shift next ∈ setting.table.actionList v.stack.state token.symbol := by
    rw [hactions]
    exact List.mem_cons_self
  obtain ⟨_, _, hne⟩ := h.step?_of_shift hhas hshift
  exact Stack.structuralStates_push false (by simp [Subtree.isStructural, hextra, hne])

include hleaf

/-- Where the trial succeeds, the version takes the token in. -/
theorem CompiledFrom.exists_takesIn (hv : s.versions[i]? = some v)
    (hlookahead : v.lookahead = some token) (hpath : v.stack.Path g setting.table) {fuel : Nat}
    {states : List StateId}
    (hconsume : Recovery.consume setting.table token.symbol fuel v.stack.structuralStates
      = some states) :
    ∃ count ≤ fuel, ∃ after, setting.TakesIn i token count s after ∧
      after.structuralStates = states := by
  induction fuel generalizing s v with
  | zero => cases hconsume
  | succ fuel ih =>
      rw [consume_structuralStates hpath] at hconsume
      cases hactions : setting.table.actionList v.stack.state token.symbol with
      | nil =>
          rw [hactions] at hconsume
          cases hconsume
      | cons action others =>
          rw [hactions, List.head?_cons, Option.getD_some] at hconsume
          obtain ⟨s', hs', hadvance⟩ := exists_advance_eq_apply hv hlookahead hleaf hactions
          cases action with
          | shift next =>
              have hshifted : (shift s' i next token).versions[i]?
                  = some (shiftVersion v next token false) := by
                rw [shift, hs']
                exact ParseState.getElem?_setVersion hs' _
              refine ⟨1, Nat.le_add_left 1 fuel, _,
                .shift s _ v next others hv hlookahead hactions hadvance hshifted, ?_⟩
              rw [h.structuralStates_shift hextra hhas hactions]
              exact Option.some.inj hconsume
          | accept =>
              refine ⟨1, Nat.le_add_left 1 fuel, _, .accept s _ v others s'.accepted
                { trees := v.stack.trees
                  trailing := (v.lookahead.map (·.padding)).getD Length.zero
                  errorCost := v.stack.errorCost
                  dynamicPrecedence := v.stack.dynamicPrecedence }
                hv hlookahead hactions hadvance ?_ rfl, Option.some.inj hconsume⟩
              rw [apply, accept, hs']
          | reduce p =>
              obtain ⟨hstates, hpath'⟩ := h.reduceStates_eq hhas hpath hactions s'.isForked s'.nextId
              simp only [hstates, Option.bind_some] at hconsume
              obtain ⟨count, hcount, after, htakes, hafter⟩ :=
                ih (getElem?_reduce hs' p) hlookahead hpath' hconsume
              exact ⟨count + 1, Nat.succ_le_succ hcount, after,
                .reduce s _ v p others count after hv hlookahead hactions hadvance htakes, hafter⟩
          | error => cases hconsume
          | goto => cases hconsume
          | ambig => cases hconsume

/-- Where the version takes the token in, the trial succeeds, with the states of the version. -/
theorem CompiledFrom.consume_of_takesIn {count fuel : Nat} {after : Stack}
    (htakes : setting.TakesIn i token count s after) (hcount : count ≤ fuel)
    (hv : s.versions[i]? = some v) (hpath : v.stack.Path g setting.table) :
    Recovery.consume setting.table token.symbol fuel v.stack.structuralStates
      = some after.structuralStates := by
  induction htakes generalizing v fuel with
  | shift s s' w next others hw hlookahead hactions hadvance hshifted =>
      obtain rfl : v = w := Option.some.inj (hv.symm.trans hw)
      obtain ⟨fuel, rfl⟩ := Nat.exists_eq_add_of_le' hcount
      rw [consume_structuralStates hpath, hactions, h.structuralStates_shift hextra hhas hactions]
      rfl
  | accept s s' w others before a hw hlookahead hactions =>
      obtain rfl : v = w := Option.some.inj (hv.symm.trans hw)
      obtain ⟨fuel, rfl⟩ := Nat.exists_eq_add_of_le' hcount
      rw [consume_structuralStates hpath, hactions]
      rfl
  | reduce s s' w p others count after hw hlookahead hactions hadvance htakes ih =>
      obtain rfl : v = w := Option.some.inj (hv.symm.trans hw)
      obtain ⟨before, hbefore, happlied⟩ := exists_advance_eq_apply hv hlookahead hleaf hactions
      obtain ⟨fuel, rfl⟩ := Nat.exists_eq_succ_of_ne_zero (by omega : fuel ≠ 0)
      obtain ⟨hstates, hpath'⟩ :=
        h.reduceStates_eq hhas hpath hactions before.isForked before.nextId
      obtain rfl : s' = setting.reduce before i p :=
        congrArg Prod.fst (hadvance.symm.trans happlied)
      rw [consume_structuralStates hpath, hactions, List.head?_cons, Option.getD_some]
      simp only [hstates, Option.bind_some]
      exact ih (Nat.le_of_succ_le_succ hcount) (getElem?_reduce hbefore p) hpath'

end Compiled

end ParseSetting

variable {d : GrammarDef} {policy : ConflictPolicy} {l : Language} {scanner : Option ExternalScanner}
  {number : Nat} {p : Parser} {old : Option Tree}

/-- A trial of a token on the states of a stack succeeds if and only if a version that holds the token
on that stack takes it in with as many operations at most, and with the states that the version then
has. -/
theorem Parser.simulate_eq_some_iff (hl : Language.load d policy = .ok l)
    (hfit : l.table.EntriesFit) (hapart : l.table.ExtrasApart)
    (hp : p.language = { l with scanner := scanner, id := number })
    (hbases : p.bases = RepetitionBases.ofTable l.table)
    (hold : ∀ tree ∈ old, tree.language.isSame p.language = true → tree.Made p.language)
    (text : ByteArray) {w : Version} (hw : (p.setting text).Reached (p.cursor? old) w)
    {token : Subtree} (hleaf : token.isLeaf = true) (hextra : token.flags.extra = false)
    (hterminal : l.table.isTerminal token.symbol = true) {s : ParseState} {i : Nat}
    (hv : s.versions[i]? = some { w with lookahead := some token }) (states : List StateId) :
    Recovery.simulate l.table w.stack.structuralStates token.symbol = some states ↔
      ∃ count ≤ Recovery.simulationLimit, ∃ after,
        (p.setting text).TakesIn i token count s after ∧ after.structuralStates = states := by
  obtain ⟨g, hsetting⟩ := Parser.setting_compiledFrom hl hfit hapart hp hbases text
  have htable := Parser.table_setting hp text
  have hcursor := Parser.appliedRoot_cursor?_of_made hl hfit hapart hp hold
  rw [← htable] at hcursor hterminal ⊢
  have hpath := (hsetting.onPath_of_reached hcursor hw).stack
  have hhas : (p.setting text).table.Has token.symbol := by
    obtain ⟨hfrom, _⟩ := Table.compile_eq_ok hsetting.table
    rw [Table.isTerminal, hfrom.terminalCount, decide_eq_true_eq] at hterminal
    rw [Table.Has, hfrom.symbols]
    exact .inr (Nat.lt_trans hterminal hsetting.grammar.augmented_lt)
  constructor
  · intro hsimulate
    exact hsetting.exists_takesIn hleaf hextra hhas hv rfl hpath hsimulate
  · rintro ⟨count, hcount, after, htakes, rfl⟩
    exact hsetting.consume_of_takesIn (v := { w with lookahead := some token }) hleaf hextra hhas
      htakes hcount hv hpath

/-- A version in front of the text holds a token. -/
theorem simulate_optionalToken : ∃ l, Language.load .optionalToken .strict = .ok l ∧
    let p := Parser.ofLanguage { l with scanner := none, id := 1 }
    let setting := p.setting "x".toUTF8
    let token := Subtree.ofToken l.table 0 ⟨⟨1⟩, Length.zero, ⟨1, ⟨0, 1⟩⟩, 1, LexMode.error⟩
    let s := (ParseState.start l.table.startState none 1).setVersion 0
      { setting.startVersion with lookahead := some token }
    ∀ states, Recovery.simulate l.table [l.table.startState] token.symbol = some states ↔
      ∃ count ≤ Recovery.simulationLimit, ∃ after,
        setting.TakesIn 0 token count s after ∧ after.structuralStates = states := by
  obtain ⟨t, ht, _⟩ := exists_compile_optionalToken
  obtain ⟨l, hl, rfl⟩ := Language.exists_load load_optionalToken ht (by decide +kernel)
  obtain ⟨hfit, hapart⟩ := apart_optionalToken ht
  obtain ⟨hfrom, _⟩ := Table.compile_eq_ok ht
  refine ⟨l, hl, ?_⟩
  intro p setting token s
  have hold : ∀ tree ∈ (none : Option Tree), tree.language.isSame p.language = true →
      tree.Made p.language := nofun
  have hextra : token.flags.extra = false := by
    have hinfo : (l.table.symbolInfo ⟨1⟩).extra = false := by
      rw [Table.symbolInfo, hfrom.symbols]
      decide +kernel
    exact hinfo
  have hterminal : l.table.isTerminal token.symbol = true := by
    rw [Table.isTerminal, hfrom.terminalCount]
    exact decide_eq_true (Nat.lt_succ_self 1)
  have hv : s.versions[0]? = some { setting.startVersion with lookahead := some token } := rfl
  exact Parser.simulate_eq_some_iff hl hfit hapart rfl rfl hold _ .start rfl hextra hterminal hv

end IncrementalLR
