import IncrementalLR.Proofs.Parse.Advancing
import IncrementalLR.Proofs.Parse.Climbing

/-!
# The way to a token

A recovery that resumed its version where it stands has left it in front of a token that its states
consume. Until then the version makes reductions, by the first action of its state each time, and
others may be forked off it. These wait behind it, for it comes first of those that are at the same
place. One of them can take its place when they are merged, but then the two have the same outline,
and so the token is consumed in the states of that one too.
-/

namespace IncrementalLR

open Recovery (ConsumesOn Overtakes firstAction)

open Stack (outlineTop popOutline)

namespace Version

/-- The best of the versions that merge with one is that one, or another with the same states. -/
theorem absorb_sameStates (v : Version) (rest : List Version) :
    (v.absorb rest).1 = v ∨
      (v.absorb rest).1 ∈ rest ∧ v.stack.sameStates (v.absorb rest).1.stack = true := by
  fun_induction absorb v rest with
  | case1 v => exact .inl rfl
  | case2 v w rest hmerges ih =>
      have hsame : v.stack.sameStates w.stack = true := by
        rw [merges, Bool.and_eq_true] at hmerges
        exact hmerges.2
      by_cases hbetter : w.better v = true
      · simp only [if_pos hbetter] at ih ⊢
        refine .inr ?_
        rcases ih with heq | ⟨hmem, hsame'⟩
        · rw [heq]
          exact ⟨List.mem_cons_self, hsame⟩
        · refine ⟨List.mem_cons_of_mem w hmem, ?_⟩
          rw [Stack.sameStates_iff] at hsame hsame' ⊢
          exact ⟨hsame.1.trans hsame'.1, hsame.2.trans hsame'.2⟩
      · simp only [if_neg hbetter] at ih ⊢
        exact ih.imp_right (And.imp_left (List.mem_cons_of_mem w))
  | case3 v w rest _ best others heq ih =>
      rw [heq] at ih
      exact ih.imp_right (And.imp_left (List.mem_cons_of_mem w))

/-- Merging leaves a version wherever there was one. -/
theorem exists_bytes_mergeAll {versions : List Version} {v : Version} (hv : v ∈ versions) :
    ∃ w ∈ mergeAll versions, w.position.bytes = v.position.bytes := by
  refine exists_mem_mergeAll (P := fun _ => True)
    (R := fun x u => x.position.bytes = u.position.bytes) (fun _ => rfl)
    (fun _ _ _ hab hbc => hab.trans hbc) (fun a b _ _ hmerges => ?_) versions
    (fun _ _ => trivial) v hv
  have hposition : a.position.bytes = b.position.bytes := by
    rw [merges, Bool.and_eq_true, Bool.and_eq_true] at hmerges
    exact eq_of_beq hmerges.1.1
  split
  · exact ⟨hposition.symm, rfl⟩
  · exact ⟨rfl, hposition⟩

theorem condense_zero (versions : List Version) : condense 0 versions = [] := by
  rw [condense]
  split
  · exact List.take_zero
  · rename_i hlength
    exact List.length_eq_zero_iff.1 (Nat.eq_zero_of_not_pos hlength)

theorem condense_eq_mergeAll {limit : Nat} {versions : List Version}
    (hlimit : versions.length ≤ limit) : condense limit versions = mergeAll versions := by
  rw [condense, if_neg (Nat.not_lt_of_le ((mergeAll_subperm versions).length_le.trans hlimit))]

end Version

namespace ParseSetting

/-- The first version consumes the lookahead of all, and has gone on since the others were forked off
it. -/
structure BeforeToken (setting : ParseSetting) (place : Nat) (t : Subtree) (main : Version)
    (forks : List Version) : Prop where
  same : ∀ v ∈ main :: forks, v.position.bytes = place ∧ v.lookahead = some t
  consumes : setting.Consumes main t
  overtakes : ∀ w ∈ forks, Overtakes setting.table t.symbol setting.table.startState
    main.stack.outline w.stack.outline

variable {g : Grammar} {policy : ConflictPolicy} {setting : ParseSetting} {old : Option ReuseCursor}
  {s : ParseState} {place : Nat} {t : Subtree} {main w : Version} {forks : List Version}
  {p : ProductionId}

/-! ### Reductions -/

theorem CompiledFrom.consumes_reduce (h : setting.CompiledFrom g policy)
    (hpath : main.stack.Path g setting.table) (hconsumes : setting.Consumes main t)
    (hfirst : firstAction setting.table main.stack.state t.symbol = .reduce p)
    (hreduces : main.stack.Reduces setting.table p) (forked : Bool) (id : Nat) :
    setting.Consumes { main with stack := (setting.reduceStack forked p id main.stack).1 } t := by
  obtain ⟨hfrom, _⟩ := Table.compile_eq_ok h.table
  obtain ⟨fuel, out, hout⟩ := hconsumes.states
  obtain ⟨rest, hrest⟩ := hpath.exists_structuralStates
  refine ⟨hconsumes.lookahead, hconsumes.lexes, ?_⟩
  cases fuel with
  | zero => cases hout
  | succ fuel =>
      have hreduce := reduceStates_structuralStates h.grammar hfrom hpath hreduces forked id
      rw [hrest] at hout hreduce
      rw [Recovery.consume, hfirst] at hout
      simp only at hout
      rw [hreduce, Option.bind_some] at hout
      exact ⟨fuel, out, hout⟩

/-- After a reduction the version has gone further beyond those that were forked off before, and
beyond those that are forked off it now. -/
theorem CompiledFrom.overtakes_reduce (h : setting.CompiledFrom g policy)
    (hpath : main.stack.Path g setting.table) (hconsumes : setting.Consumes main t)
    (hfirst : firstAction setting.table main.stack.state t.symbol = .reduce p)
    (hreduces : main.stack.Reduces setting.table p) (forked : Bool) (id : Nat) :
    (∀ w : Version, Overtakes setting.table t.symbol setting.table.startState main.stack.outline
        w.stack.outline →
      Overtakes setting.table t.symbol setting.table.startState
        (setting.reduceStack forked p id main.stack).1.outline w.stack.outline) ∧
      ∀ (q : ProductionId) (forked' : Bool) (id' : Nat), main.stack.Reduces setting.table q →
        Overtakes setting.table t.symbol setting.table.startState
          (setting.reduceStack forked p id main.stack).1.outline
          (setting.reduceStack forked' q id' main.stack).1.outline := by
  obtain ⟨hfrom, _⟩ := Table.compile_eq_ok h.table
  obtain ⟨next, hgoto, hbase, houtline⟩ := outline_reduceStack h.grammar hfrom hreduces forked id
  have hnext : ConsumesOn setting.table t.symbol next := by
    obtain ⟨rest, hrest⟩ := (path_reduceStack h.grammar h.table h.fit h.fitTable hpath hreduces forked
      id).exists_structuralStates
    obtain ⟨fuel, out, hout⟩ :=
      (h.consumes_reduce hpath hconsumes hfirst hreduces forked id).states
    rw [hrest, Stack.state_eq_outlineTop, houtline, Stack.outlineTop_replicate] at hout
    exact ⟨fuel, rest, out, hout⟩
  rw [Stack.state_eq_outlineTop] at hfirst
  rw [houtline]
  rw [hpath.base_eq] at hgoto hfirst
  refine ⟨fun w hw => hw.reduce hfirst hreduces.enough_outline hgoto hnext, ?_⟩
  intro q forked' id' hreduces'
  obtain ⟨state, _, _, houtline'⟩ := outline_reduceStack h.grammar hfrom hreduces' forked' id'
  rw [houtline']
  refine Recovery.overtakes_of_fork ?_ ?_ _ _ state hnext
  · rw [← hpath.base_eq]
    exact hpath.repeats.of_suffix (List.dropWhile_suffix _)
  · rw [Stack.filter_dropWhile]
    exact hreduces.enough_outline

/-- The first version makes its reduction, and others are forked off it by theirs. -/
theorem CompiledFrom.beforeToken_reduce (h : setting.CompiledFrom g policy)
    (hpath : main.stack.Path g setting.table) (hbefore : setting.BeforeToken place t main forks)
    (hfirst : firstAction setting.table main.stack.state t.symbol = .reduce p)
    (hreduces : main.stack.Reduces setting.table p) (forked : Bool) (id : Nat) {made : List Version}
    (hmade : ∀ w ∈ made, ∃ q forked' id', main.stack.Reduces setting.table q ∧
      w = { main with stack := (setting.reduceStack forked' q id' main.stack).1 }) :
    setting.BeforeToken place t
      { main with stack := (setting.reduceStack forked p id main.stack).1 } (forks ++ made) := by
  obtain ⟨hmain, hforks⟩ := List.forall_mem_cons.1 hbefore.same
  obtain ⟨hpast, hnew⟩ :=
    h.overtakes_reduce hpath hbefore.consumes hfirst hreduces forked id
  refine ⟨List.forall_mem_cons.2 ⟨hmain, List.forall_mem_append.2 ⟨hforks, fun w hw => ?_⟩⟩,
    h.consumes_reduce hpath hbefore.consumes hfirst hreduces forked id,
    List.forall_mem_append.2 ⟨fun w hw => hpast w (hbefore.overtakes w hw), fun w hw => ?_⟩⟩
  · obtain ⟨q, forked', id', _, rfl⟩ := hmade w hw
    exact hmain
  · obtain ⟨q, forked', id', hreduces', rfl⟩ := hmade w hw
    exact hnew q forked' id' hreduces'

/-! ### Operations -/

/-- No recovery begins at the place any more: the parse came to the end of the text, or a version is
beyond the place, or all are on their way to a token. -/
inductive Leaving (setting : ParseSetting) (place : Nat) (s : ParseState) : Prop
  | closed (h : s.accepted ≠ [])
  | beyond (h : s.versions ≠ [] → ∃ v ∈ s.versions, place < v.position.bytes)
  | before (t : Subtree) (main : Version) (forks : List Version)
      (hversions : s.versions = main :: forks) (haccepted : s.accepted = [])
      (h : setting.BeforeToken place t main forks)

theorem Leaving.of_mem (hw : w ∈ s.versions) (h : place < w.position.bytes) :
    setting.Leaving place s :=
  .beyond fun _ => ⟨w, hw, h⟩

theorem bytes_shiftVersion_lt (v : Version) (state : StateId) (pending : Bool)
    (ht : 0 < t.total.bytes) :
    v.position.bytes < (shiftVersion v state t pending).position.bytes := by
  rw [shiftVersion, Length.bytes_add]
  exact Nat.lt_add_of_pos_right ht

/-- What an action makes of a version in front of a token is behind the token, or comes of a
reduction. -/
theorem CompiledFrom.beyond_or_reduced (h : setting.CompiledFrom g policy)
    (hbefore : setting.BeforeToken place t main forks)
    (hpos : t.symbol ≠ Symbol.eof → 0 < t.total.bytes) {action : Action}
    (haction : action ∈ setting.table.actionList main.stack.state t.symbol)
    (hmakes : setting.Makes main t action (.going w) ∨ ∀ r, ¬ setting.Makes main t action r) :
    place < w.position.bytes ∨ ∃ p forked id, action = .reduce p ∧
      w = { main with stack := (setting.reduceStack forked p id main.stack).1 } := by
  obtain ⟨mode, hlex⟩ := hbefore.consumes.lexes
  rw [← (hbefore.same main List.mem_cons_self).1]
  rcases h.action_of_lexes hlex haction with ⟨next, rfl, hne⟩ | ⟨p, rfl⟩ | rfl
  · obtain ⟨_⟩ := hmakes.resolve_right fun hnone => hnone _ (.shift next)
    exact .inl (bytes_shiftVersion_lt main next false (hpos hne))
  · obtain ⟨_⟩ | ⟨_, forked, id⟩ := hmakes.resolve_right fun hnone => hnone _ (.reduce p false 0)
    exact .inr ⟨p, forked, id, rfl, rfl⟩
  · obtain ⟨_⟩ := hmakes.resolve_right fun hnone => hnone _ .accept

/-- The first action on the first version, when others have been forked off it by reductions. -/
theorem CompiledFrom.leaving_first (h : setting.CompiledFrom g policy)
    (hpath : main.stack.Path g setting.table) {made : List Version}
    (hversions : s.versions = main :: (forks ++ made)) (haccepted : s.accepted = [])
    (hbefore : setting.BeforeToken place t main forks)
    (hpos : t.symbol ≠ Symbol.eof → 0 < t.total.bytes) {first : Action} {others : List Action}
    (hactions : setting.table.actionList main.stack.state t.symbol = first :: others)
    (hreduces : ∀ p, .reduce p ∈ first :: others → main.stack.Reduces setting.table p)
    (hmade : ∀ w ∈ made, ∃ p forked id, .reduce p ∈ first :: others ∧
      w = { main with stack := (setting.reduceStack forked p id main.stack).1 }) :
    setting.Leaving place (setting.apply s 0 t first) := by
  obtain ⟨mode, hlex⟩ := hbefore.consumes.lexes
  have hget : s.versions[0]? = some main := by
    rw [hversions]
    rfl
  have haction : first ∈ setting.table.actionList main.stack.state t.symbol := by
    rw [hactions]
    exact List.mem_cons_self
  rcases h.action_of_lexes hlex haction with ⟨next, rfl, hne⟩ | ⟨p, rfl⟩ | rfl
  · refine .of_mem (w := shiftVersion main next t false) ?_ ?_
    · simp [apply, shift, ParseState.setVersion, ParseState.count, hversions]
    · rw [← (hbefore.same main List.mem_cons_self).1]
      exact bytes_shiftVersion_lt main next false (hpos hne)
  · have hset : (setting.reduce s 0 p).versions
        = { main with stack := (setting.reduceStack s.isForked p s.nextId main.stack).1 } ::
          (forks ++ made) := by
      rw [reduce, hget]
      simp [ParseState.count, ParseState.setVersion, hversions]
    refine .before t _ (forks ++ made) hset ((accepted_reduce p).trans haccepted)
      (h.beforeToken_reduce hpath hbefore ?_ (hreduces p List.mem_cons_self) _ _ ?_)
    · rw [Recovery.firstAction_eq, hactions]
      rfl
    · intro w hw
      obtain ⟨q, forked, id, hq, rfl⟩ := hmade w hw
      exact ⟨q, forked, id, hreduces q hq, rfl⟩
  · refine .closed ?_
    rw [apply, accept, hget]
    exact List.append_ne_nil_of_right_ne_nil _ (List.cons_ne_nil _ _)

/-- What the actions on a version that is before a token lead to. -/
theorem CompiledFrom.leaving_actions (h : setting.CompiledFrom g policy)
    (hold : ∀ start ∈ old, ∃ root, start = ReuseCursor.ofRoot root ∧ AppliedRoot setting.table root)
    (hs : s.Sound (setting.reaching old)) (hversions : s.versions = main :: forks)
    (hbefore : setting.BeforeToken place t main forks)
    (hpos : t.symbol ≠ Symbol.eof → 0 < t.total.bytes) {first : Action} {others : List Action}
    (hactions : setting.table.actionList main.stack.state t.symbol = first :: others) :
    setting.Leaving place (setting.apply (setting.fork main t s others) 0 t first) := by
  have hmain := hbefore.same main List.mem_cons_self
  have hleaf : t.isLeaf = true := by
    obtain ⟨mode, id, rfl⟩ := hbefore.consumes.lexes
    rfl
  have honPath := h.onPath_of_reached hold
    (hs.versions main (by rw [hversions]; exact List.mem_cons_self))
  have hreduces : ∀ p, .reduce p ∈ first :: others → main.stack.Reduces setting.table p := by
    intro p hp
    rw [← hactions] at hp
    exact h.reduces honPath (.token t hmain.2 hleaf) hp
  obtain ⟨made, hmade, hforked⟩ := exists_fork setting main t s others
  rw [hversions, List.cons_append] at hmade
  by_cases hfar : ∃ w ∈ made, place < w.position.bytes
  · -- what is forked off by a shift stays
    obtain ⟨w, hw, hlt⟩ := hfar
    have hkept := eraseIdx_subset_apply setting (setting.fork main t s others) 0 t first
    rw [hmade, List.eraseIdx_cons_zero] at hkept
    exact .of_mem (hkept (List.mem_append_right forks hw)) hlt
  by_cases hnothing : (setting.fork main t s others).accepted = []
  · refine h.leaving_first honPath.stack hmade hnothing hbefore hpos hactions hreduces ?_
    intro w hw
    obtain ⟨action, haction, hmakes⟩ := hforked w hw
    have haction := List.mem_cons_of_mem first haction
    rcases h.beyond_or_reduced hbefore hpos (hactions ▸ haction) hmakes with
      hlt | ⟨p, forked, id, rfl, rfl⟩
    · exact absurd ⟨w, hw, hlt⟩ hfar
    · exact ⟨p, forked, id, haction, rfl⟩
  · refine .closed fun hnil => hnothing ?_
    have hprefix := accepted_prefix_apply setting (setting.fork main t s others) 0 t first
    rw [hnil] at hprefix
    exact List.prefix_nil.1 hprefix

/-- A version that consumes its lookahead has an action for it. -/
theorem actionList_ne_nil_of_consumes (hpath : main.stack.Path g setting.table)
    (hconsumes : setting.Consumes main t) :
    setting.table.actionList main.stack.state t.symbol ≠ [] := by
  obtain ⟨fuel, out, hout⟩ := hconsumes.states
  obtain ⟨rest, hrest⟩ := hpath.exists_structuralStates
  intro hnil
  cases fuel with
  | zero => cases hout
  | succ fuel =>
      rw [hrest, Recovery.consume, Recovery.firstAction_eq, hnil] at hout
      cases hout

/-- On the way to a token no recovery begins. -/
theorem CompiledFrom.leaving_advance (h : setting.CompiledFrom g policy)
    (hold : ∀ start ∈ old, ∃ root, start = ReuseCursor.ofRoot root ∧ AppliedRoot setting.table root)
    (hs : s.Sound (setting.reaching old)) (hversions : s.versions = main :: forks)
    (hbefore : setting.BeforeToken place t main forks)
    (hpos : t.symbol ≠ Symbol.eof → 0 < t.total.bytes) :
    setting.Leaving place (setting.advance s 0).1 ∧
      (setting.advance s 0).1.attempts = s.attempts := by
  have hget : s.versions[0]? = some main := by rw [hversions]; rfl
  have honPath := h.onPath_of_reached hold (hs.of_getElem? hget)
  obtain ⟨mode, id, hlex⟩ := hbefore.consumes.lexes
  have hleaf : t.isLeaf = true := by rw [hlex]; rfl
  obtain ⟨hsound, _⟩ := sound_looking hs hget
  have hset := versions_looking hs hget
  have hoperation := operation_advance setting hget
  have hfetch : setting.fetch s main = (t, s) := by rw [fetch, hbefore.consumes.lookahead]
  have hself : { main with lookahead := some t } = main := by rw [← hbefore.consumes.lookahead]
  have hcount : (setting.looking s 0 main).attempts = s.attempts := attempts_fetch main
  rw [hfetch, hself] at hset hoperation
  rw [hversions, List.set_cons_zero] at hset
  rw [← hcount]
  generalize setting.looking s 0 main = s₁ at *
  generalize setting.advance s 0 = result at *
  cases hoperation with
  | reused hnode =>
      rw [hleaf] at hnode
      cases hnode
  | extra _ hnone => exact absurd hnone (actionList_ne_nil_of_consumes honPath.stack hbefore.consumes)
  | error _ hnone => exact absurd hnone (actionList_ne_nil_of_consumes honPath.stack hbefore.consumes)
  | actions ambigs first others _ hactions =>
      exact ⟨h.leaving_actions hold (hsound.count _) hset hbefore hpos hactions,
        (attempts_apply t first).trans (attempts_fork main t _)⟩

/-! ### Merging -/

/-- The best of the versions that merge with the first one takes its place. -/
theorem BeforeToken.mergeAll (h : setting.BeforeToken place t main forks) :
    setting.BeforeToken place t (main.absorb forks).1
      (Version.mergeAll (main.absorb forks).2) := by
  obtain ⟨hbest, hothers⟩ := Version.mem_absorb main forks
  have hleft : ∀ w ∈ Version.mergeAll (main.absorb forks).2, w ∈ forks :=
    fun w hw => hothers w (Version.mem_of_mem_mergeAll hw)
  obtain ⟨houtline, hbase⟩ : (main.absorb forks).1.stack.outline = main.stack.outline ∧
      (main.absorb forks).1.stack.base = main.stack.base := by
    rcases Version.absorb_sameStates main forks with heq | ⟨hmem, hsame⟩
    · rw [heq]
      exact ⟨rfl, rfl⟩
    · obtain ⟨hbase, hstates⟩ := Stack.sameStates_iff.1 hsame
      exact ⟨((h.overtakes _ hmem).eq_of_states hstates).symm, hbase.symm⟩
  obtain ⟨hposition, hlookahead⟩ := h.same _ hbest
  refine ⟨List.forall_mem_cons.2 ⟨⟨hposition, hlookahead⟩, fun w hw =>
    h.same w (List.mem_cons_of_mem main (hleft w hw))⟩, ⟨hlookahead, ?_, ?_⟩, fun w hw => ?_⟩
  · rw [hposition, ← (h.same main List.mem_cons_self).1]
    exact h.consumes.lexes
  · rw [Stack.structuralStates_eq_outline, houtline, hbase, ← Stack.structuralStates_eq_outline]
    exact h.consumes.states
  · rw [houtline]
    exact h.overtakes w (hleft w hw)

/-- Merging versions brings no recovery at the place. -/
theorem Leaving.condense (h : setting.Leaving place s)
    (hfits : s.versions.length ≤ max 1 setting.options.maxVersions) :
    setting.Leaving place { s with
      versions := Version.condense setting.options.maxVersions s.versions } := by
  rcases Nat.eq_zero_or_pos setting.options.maxVersions with hzero | hmax
  · refine .beyond fun hne => absurd ?_ hne
    rw [hzero]
    exact Version.condense_zero s.versions
  · rw [max_eq_right hmax] at hfits
    rw [Version.condense_eq_mergeAll hfits]
    cases h with
    | closed h => exact .closed h
    | beyond h =>
        refine .beyond fun hne => ?_
        obtain ⟨v, hv, hlt⟩ := h fun hnil => hne (by simp only [hnil, Version.mergeAll])
        obtain ⟨x, hx, hposition⟩ := Version.exists_bytes_mergeAll hv
        exact ⟨x, hx, hposition ▸ hlt⟩
    | before t main forks hversions haccepted h =>
        refine .before t (main.absorb forks).1 (Version.mergeAll (main.absorb forks).2) ?_ haccepted
          h.mergeAll
        simp only [hversions, Version.mergeAll]

end ParseSetting

end IncrementalLR
