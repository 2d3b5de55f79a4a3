import IncrementalLR.Proofs.Parse.Productions
import IncrementalLR.Proofs.Table.Transitions

/-!
# States of frames

Only the parts of right-hand sides change the state of a stack, and each of them by the transition that
the table gives for its symbol. Whatever pushes a frame has either looked up this transition, or it took
a shift or a goto of the table, which are the same; or it repeats the state below.
-/

namespace IncrementalLR

/-- The frame holds the state to which its subtree leads from the state below it, or that state itself
if the subtree is no part of a right-hand side. -/
structure Stack.Frame.Leads (t : Table) (below : StateId) (frame : Stack.Frame) : Prop where
  structural : frame.tree.isStructural = true →
    t.nextState? below frame.tree.symbol = some frame.state
  other : frame.tree.isStructural = false → frame.state = below

/-- Every frame of the stack leads on from what is below it. -/
def Stack.Leads (t : Table) (s : Stack) : Prop :=
  ∀ (above : List Stack.Frame) (frame : Stack.Frame) (below : List Stack.Frame),
    s.frames = above ++ frame :: below → frame.Leads t (Stack.mk s.base below).state

namespace Table

variable {g : Grammar} {policy : ConflictPolicy} {t : Table} {state next : StateId} {s : Symbol}

/-- A goto is a transition. -/
theorem nextState?_of_goto? (h : t.goto? state s = some next) : t.nextState? state s = some next := by
  rw [goto?] at h
  split at h
  · rename_i target haction
    rw [nextState?, haction]
    exact h
  · cases h

/-- A shift is a transition, also beside other actions. -/
theorem nextState?_of_shift (hg : g.WellFormed) (h : Table.compile g policy = .ok t)
    (hfit : t.EntriesFit) (hs : t.Has s) (hshift : .shift next ∈ t.actionList state s) :
    t.nextState? state s = some next := by
  obtain ⟨found, hfound⟩ := exists_nextState?_of_shift hshift
  have hstep := step?_of_nextState? hg h hfit hs hfound
  have hsame : found.toNat = next.toNat := by
    apply Option.some.inj
    rw [← hstep]
    exact (step?_of_shift hg h hfit hs hshift).2
  rw [hfound, UInt32.toNat_inj.1 hsame]

end Table

namespace Stack.Leads

variable {t : Table} {s : Stack} {tree : Subtree} {trees : List Subtree} {next : StateId}

theorem ofBase (t : Table) (base : StateId) : (Stack.ofBase base).Leads t := by
  intro above frame below h
  simp [Stack.ofBase] at h

theorem of_suffix (h : s.Leads t) {frames : List Frame} (hsuffix : frames <:+ s.frames) :
    { s with frames := frames }.Leads t := by
  obtain ⟨front, hfront⟩ := hsuffix
  intro above frame below hframes
  apply h (front ++ above) frame below
  rw [← hfront, show frames = _ from hframes, List.append_assoc]

theorem push_frame (h : s.Leads t) {frame : Frame} (hframe : frame.Leads t s.state) :
    { s with frames := frame :: s.frames }.Leads t := by
  intro above other below hframes
  rcases List.cons_eq_append_iff.1 hframes with ⟨_, hcons⟩ | ⟨above, _, hbelow⟩
  · cases hcons
    exact hframe
  · exact h above other below hbelow

theorem push (h : s.Leads t) (pending : Bool)
    (hnext : tree.isStructural = true → t.nextState? s.state tree.symbol = some next)
    (hother : tree.isStructural = false → next = s.state) : (s.push next tree pending).Leads t :=
  h.push_frame ⟨hnext, hother⟩

theorem push_other (h : s.Leads t) (pending : Bool) (hother : tree.isStructural = false) :
    (s.push s.state tree pending).Leads t := by
  refine h.push pending (fun hstructural => ?_) fun _ => rfl
  rw [hother] at hstructural
  cases hstructural

theorem pushAll (h : s.Leads t) (hothers : ∀ tree ∈ trees, tree.isStructural = false) :
    (s.pushAll s.state trees).Leads t := by
  induction trees generalizing s with
  | nil => exact h
  | cons tree rest ih =>
      obtain ⟨hother, hothers⟩ := List.forall_mem_cons.1 hothers
      exact ih (h.push_other false hother) hothers

end Stack.Leads

namespace ParseSetting

variable {g : Grammar} {policy : ConflictPolicy} {setting : ParseSetting} {old : Option ReuseCursor}
  {s : Stack} {v v' : Version}

/-- Skipped text repeats the state below it. -/
theorem leads_skipVersion (h : v.stack.Leads setting.table) (tokens : List Subtree)
    (popped skipped id : Nat) (relexed : Subtree) :
    (setting.skipVersion v tokens popped skipped id relexed).stack.Leads setting.table := by
  have hresumed := h.of_suffix (List.drop_suffix popped v.stack.frames)
  unfold skipVersion
  simp only
  split
  · exact hresumed
  · exact hresumed.push_other false (by simp [Subtree.isStructural])

/-- A reduction goes on by a goto, or it makes skipped text. -/
theorem leads_reduceStack (h : s.Leads setting.table) {p : ProductionId}
    (hne : (setting.table.production p).lhs ≠ Symbol.error) (forked : Bool) (id : Nat) :
    (setting.reduceStack forked p id s).1.Leads setting.table := by
  have hrest : s.popTrailing.2.Leads setting.table := h.of_suffix (List.dropWhile_suffix _)
  have hbelow := hrest.of_suffix (Stack.suffix_popFrames (setting.table.production p).rhs.size _ [])
  unfold reduceStack
  simp only
  split
  · rename_i next hgoto
    refine Stack.Leads.pushAll (hbelow.push false (fun _ => ?_) fun hother => ?_)
      s.structural_popTrailing
    · rw [Subtree.symbol_interior]
      exact Table.nextState?_of_goto? hgoto
    · simp [Subtree.isStructural, hne] at hother
  · exact hbelow.push_other false (by simp [Subtree.isStructural])

/-- Children are pushed with the states that were looked up for them. -/
theorem leads_pushPending {children : List Subtree} {pushes : List (StateId × Subtree)}
    (h : s.Leads setting.table) (hpushes : childStates? setting.table s.state children = some pushes) :
    (pushPending s pushes).Leads setting.table := by
  induction children generalizing s pushes with
  | nil =>
      cases hpushes
      exact h
  | cons child rest ih =>
      rw [childStates?] at hpushes
      by_cases hstructural : child.isStructural = true
      · rw [if_pos hstructural] at hpushes
        cases hnext : setting.table.nextState? s.state child.symbol with
        | none =>
            rw [hnext] at hpushes
            cases hpushes
        | some next =>
            rw [hnext] at hpushes
            obtain ⟨tail, htail, rfl⟩ := Option.map_eq_some_iff.1 hpushes
            have hpushed : (s.push next child !child.isLeaf).Leads setting.table := by
              refine h.push _ (fun _ => hnext) fun hother => ?_
              rw [hstructural] at hother
              cases hother
            have hall := ih hpushed htail
            exact hall
      · rw [if_neg hstructural] at hpushes
        obtain ⟨tail, htail, rfl⟩ := Option.map_eq_some_iff.1 hpushes
        have hpushed := h.push_other (!child.isLeaf) (Bool.eq_false_iff.2 hstructural)
        have hall := ih hpushed htail
        exact hall

section Compiled

variable (h : setting.CompiledFrom g policy)

include h

/-- A pending node that is kept gets back the state that it had. -/
theorem CompiledFrom.leads_breakPending (hpath : s.Path g setting.table)
    (hleads : s.Leads setting.table) : (breakPending setting.table s).2.Leads setting.table := by
  fun_induction breakPending setting.table s with
  | case1 => exact hleads
  | case2 =>
      rename_i s top below hframes hpending rest _ state
      obtain ⟨base, frames⟩ := s
      subst hframes
      have hrest : rest.Leads setting.table := hleads.of_suffix (List.suffix_cons top below)
      have htop := hleads [] top below rfl
      cases hpath with
      | push s frame hbelow hframe =>
          obtain ⟨hnode, _⟩ := hframe.pending hpending
          refine hrest.push false (fun hstructural => ?_) fun hother => ?_
          · have hnext : setting.table.nextState? rest.state top.tree.symbol = some top.state :=
              htop.structural hstructural
            simp only [state, hnext, Option.getD_some]
          · have herror : top.tree.symbol = Symbol.error := hframe.tree.error_of_node hnode hother
            simp only [state]
            rw [herror, Table.nextState?_error h.grammar h.table h.fit]
            rfl
  | case3 =>
      rename_i s top below hframes _ rest pushes hpushes ih
      obtain ⟨base, frames⟩ := s
      subst hframes
      cases hpath with
      | push s frame hbelow hframe =>
          exact ih (path_pushPending h.grammar h.table h.fit hbelow hframe.tree.child hpushes)
            (leads_pushPending (hleads.of_suffix (List.suffix_cons top _)) hpushes)
  | case4 => exact hleads

theorem CompiledFrom.leads_of_moves (hv : v.OnPath g setting.table)
    (hleads : v.stack.Leads setting.table) (hmove : setting.Moves old v v') :
    v'.stack.Leads setting.table := by
  obtain ⟨hfrom, _⟩ := Table.compile_eq_ok h.table
  cases hmove with
  | lex mode tree hlex => exact hleads
  | reuse start cursor tree hstart hcursor htree hoffset haccepts => exact hleads
  | enter lookahead hlookahead hnode => exact hleads
  | reduce s p forked id hs haction =>
      have hne := Table.lhs_ne_error h.grammar hfrom (h.reduces hv hs haction).lt
      exact leads_reduceStack hleads hne forked id
  | shift lookahead next hlookahead hleaf haction =>
      have happlied := applied_lookahead hv hlookahead hleaf
      obtain ⟨_, hextra, hne⟩ := h.step?_of_shift happlied.has haction
      refine hleads.push false (fun _ => ?_) fun hother => ?_
      · exact Table.nextState?_of_shift h.grammar h.table h.fit happlied.has haction
      · -- a token that the table shifts is a part, as no right-hand side has an extra
        rcases happlied.of_not_structural hother with herror | ⟨_, hfound⟩
        · exact absurd herror hne
        · rw [hextra] at hfound
          cases hfound
  | shiftExtra lookahead hlookahead hleaf hextra hnone =>
      exact hleads.push_other false (by simp [Subtree.isStructural, hextra])
  | shiftReused lookahead target next hlookahead hnode haction hnext =>
      refine hleads.push true (fun _ => hnext) fun hother => ?_
      have hpath := h.path_shiftReused hv hlookahead hnode haction hnext
      have herror : lookahead.symbol = Symbol.error :=
        (hpath.applied _ List.mem_cons_self).error_of_node hnode hother
      rw [herror, Table.nextState?_error h.grammar h.table h.fit] at hnext
      cases hnext
  | breakPending lookahead hlookahead hleaf hnone => exact h.leads_breakPending hv.stack hleads
  | missing s next id hs haction =>
      have hhas := h.hasToken_of_insertable hs
      have hmem := List.mem_of_mem_head? haction
      obtain ⟨_, _, hne⟩ := h.step?_of_shift hhas.has hmem
      refine hleads.push false (fun _ => ?_) fun hother => ?_
      · exact Table.nextState?_of_shift h.grammar h.table h.fit hhas.has hmem
      · have hstructural : (Subtree.ofMissing setting.table id s
            (setting.table.lexMode v.stack.state)).isStructural = true := bne_iff_ne.2 hne
        rw [hstructural] at hother
        cases hother
  | skip lookahead relexed more popped skipped id mode hlookahead hleaf hmore hrelexed =>
      exact leads_skipVersion hleads _ popped skipped id relexed
  | skipLookahead lookahead id hlookahead hleaf =>
      exact hleads.push_other false (by simp [Subtree.isStructural])

theorem CompiledFrom.leads_stack
    (hold : ∀ start ∈ old, ∃ root, start = ReuseCursor.ofRoot root ∧ AppliedRoot setting.table root)
    (hreached : setting.Reached old v) : v.stack.Leads setting.table := by
  induction hreached with
  | start => exact Stack.Leads.ofBase _ _
  | move v v' hv hmove ih => exact h.leads_of_moves (h.onPath_of_reached hold hv) ih hmove

end Compiled

end ParseSetting

variable {d : GrammarDef} {policy : ConflictPolicy} {l : Language} {scanner : Option ExternalScanner}
  {number : Nat} {p : Parser} {old : Option Tree}

/-- Every frame of a stack leads on from what is below it, so the states of the parts are a path of the
automaton from its start, and a reduction takes off its right-hand side. -/
theorem Parser.leads_of_reached (hl : Language.load d policy = .ok l)
    (hfit : l.table.EntriesFit) (hapart : l.table.ExtrasApart)
    (hp : p.language = { l with scanner := scanner, id := number })
    (hbases : p.bases = RepetitionBases.ofTable l.table)
    (hold : ∀ tree ∈ old, tree.language.isSame p.language = true → tree.Made p.language)
    (text : ByteArray) {v : Version} (hv : (p.setting text).Reached (p.cursor? old) v) :
    v.stack.Leads l.table ∧
      (∃ g, Grammar.load d = .ok g ∧ StackPath g (v.stack.structuralStates.map UInt32.toNat)
        (v.stack.parts.map (·.tree.symbol))) ∧
      ∀ (s : Symbol) (i : ProductionId), (p.setting text).ActsOn v s →
        .reduce i ∈ l.table.actionList v.stack.state s → v.stack.Reduces l.table i := by
  obtain ⟨g, hg, _⟩ := Language.exists_compiledFrom_of_load hl
  have hsetting := Parser.setting_compiledFrom_of_load hl hfit hapart hp hbases hg text
  have htable := Parser.table_setting hp text
  have hcursor := Parser.appliedRoot_cursor?_of_made hl hfit hapart hp hold
  rw [← htable] at hcursor ⊢
  have hpath := hsetting.onPath_of_reached hcursor hv
  obtain ⟨hfrom, _⟩ := Table.compile_eq_ok hsetting.table
  refine ⟨hsetting.leads_stack hcursor hv, ⟨g, hg, hpath.stack.stackPath hfrom⟩, ?_⟩
  intro s i hs haction
  exact hsetting.reduces hpath hs haction

/-- A missing token stands on the stack at the end of the text. -/
theorem leads_optionalToken : ∃ l, Language.load .optionalToken .strict = .ok l ∧
    let p := Parser.ofLanguage { l with scanner := none, id := 1 }
    let setting := p.setting "".toUTF8
    let missing := Subtree.ofMissing l.table 0 ⟨1⟩ (l.table.lexMode l.table.startState)
    let token := Subtree.ofToken l.table 1 (setting.language.lex setting.text 0 LexMode.error)
    let v : Version := ⟨(Stack.ofBase l.table.startState).push 1 missing false, Length.zero, some token⟩
    setting.Reached (p.cursor? none) v ∧ v.stack.Leads l.table ∧ v.stack.Reduces l.table 1 := by
  obtain ⟨l, hl, htable⟩ :=
    Language.exists_load load_optionalToken compile_optionalToken (by decide +kernel)
  obtain ⟨hfit, hapart⟩ := apart_optionalToken (htable ▸ compile_optionalToken)
  refine ⟨l, hl, ?_⟩
  intro p setting missing token v
  have hinsertable : ⟨1⟩ ∈ Recovery.insertable setting.table := by
    change ⟨1⟩ ∈ Recovery.insertable l.table
    rw [htable]
    decide +kernel
  have hshift : (setting.table.actionList l.table.startState ⟨1⟩).head? = some (.shift 1) := by
    change (l.table.actionList l.table.startState ⟨1⟩).head? = _
    rw [htable]
    decide +kernel
  have hreached : setting.Reached (p.cursor? none) v :=
    .move _ _ (.move _ _ .start (.missing _ ⟨1⟩ 1 0 hinsertable hshift))
      (.lex _ LexMode.error token ⟨1, rfl⟩)
  have hold : ∀ tree ∈ (none : Option Tree), tree.language.isSame p.language = true →
      tree.Made p.language := nofun
  obtain ⟨hleads, _, hreduces⟩ :=
    Parser.leads_of_reached hl hfit hapart rfl rfl hold "".toUTF8 hreached
  refine ⟨hreached, hleads, hreduces token.symbol 1 (.token token rfl rfl) ?_⟩
  have hscanner : ∀ x ∈ (none : Option ExternalScanner), x.ReadsForward :=
    fun x hx => absurd hx (Option.not_mem_none x)
  have heof : token.symbol = Symbol.eof :=
    (ParseSetting.lex_size (Parser.setting_wellFormed hl hscanner rfl _) LexMode.error).1
  change .reduce 1 ∈ l.table.actionList 1 token.symbol
  rw [heof, htable]
  decide +kernel

end IncrementalLR
