import IncrementalLR.Proofs.Fold
import IncrementalLR.Proofs.Parse.Insertion
import IncrementalLR.Proofs.Parse.Moves

/-!
# Runs of a parse

Every operation of a parse keeps its versions among those that moves lead to, through recoveries and
the merging of versions. So the tree at the end is built from a version that moves lead to, however
the parse comes to its end.
-/

namespace IncrementalLR

namespace ParseSetting

variable {setting : ParseSetting} {old : Option ReuseCursor} {inv : setting.Invariant old}
  {s : ParseState} {i : Nat} {v : Version}

open ParseState

theorem getElem?_reduce (hv : s.versions[i]? = some v) (p : ProductionId) :
    (setting.reduce s i p).versions[i]?
      = some { v with stack := (setting.reduceStack s.isForked p s.nextId v.stack).1 } := by
  rw [reduce, hv]
  exact getElem?_setVersion hv _

/-! ### Recovery -/

theorem insertable_of_mem_insertPlans {stack : Stack} {lookahead : Subtree} {cost : Cost}
    {symbols : List Symbol} {state : StateId}
    (h : (cost, Plan.insert symbols state) ∈ setting.insertPlans stack lookahead) :
    symbols ⊆ Recovery.insertable setting.table := by
  rw [insertPlans] at h
  split at h
  · cases h
  · split at h
    · cases h
    · rename_i insertion hfound
      simp only at h
      split at h
      · cases List.mem_singleton.1 h
        exact (Recovery.spec_of_missingTokens hfound).1
      · cases h

theorem insert_notMem_resumePlans (states : List StateId) (popped : Nat) (covered : Length)
    (skipped : Nat) (passed : Length) (tokens : List Subtree) {cost : Cost} {symbols : List Symbol}
    {state : StateId} : (cost, Plan.insert symbols state) ∉
      setting.resumePlans states popped covered skipped passed tokens := by
  induction tokens generalizing skipped passed with
  | nil => exact List.not_mem_nil
  | cons token rest ih =>
      rw [resumePlans]
      intro h
      rcases List.mem_append.1 h with h | h
      · split at h
        · cases h
        · cases List.mem_singleton.1 h
      · exact ih _ _ h

theorem insert_notMem_skipPlans (tokens : List Subtree) (base : StateId) (popped : Nat)
    (covered : Length) (frames : List Stack.Frame) {cost : Cost} {symbols : List Symbol}
    {state : StateId} : (cost, Plan.insert symbols state) ∉
      setting.skipPlans tokens base popped covered frames := by
  induction frames generalizing popped covered with
  | nil =>
      rw [skipPlans]
      simp only
      split
      · exact List.not_mem_nil
      · rw [List.append_nil]
        exact insert_notMem_resumePlans _ _ _ _ _ _
  | cons top below ih =>
      rw [skipPlans]
      simp only
      split
      · exact List.not_mem_nil
      · intro h
        rcases List.mem_append.1 h with h | h
        · exact insert_notMem_resumePlans _ _ _ _ _ _ h
        · exact ih _ _ h

theorem sound_insertMissing (h : s.Sound inv) {symbol : Symbol}
    (hsymbol : symbol ∈ Recovery.insertable setting.table) (fuel : Nat) :
    (setting.insertMissing i symbol fuel s).Sound inv ∧
      (setting.insertMissing i symbol fuel s).versions[i]?.map (·.position)
        = s.versions[i]?.map (·.position) := by
  induction fuel generalizing s with
  | zero => exact ⟨h, rfl⟩
  | succ fuel ih =>
      rw [insertMissing]
      cases hv : s.versions[i]? with
      | none => exact ⟨h, by rw [hv]⟩
      | some v =>
          simp only
          split
          · rename_i p haction
            have hreduce : (setting.reduce s i p).versions[i]?.map (·.position)
                = some v.position := by
              rw [getElem?_reduce hv]
              rfl
            obtain ⟨hsound, hposition⟩ :=
              ih (sound_reduce h hv (.missing symbol hsymbol) (List.mem_of_mem_head? haction))
            exact ⟨hsound, hposition.trans hreduce⟩
          · rename_i next haction
            refine ⟨(h.withNextId _).setVersion
              (inv.moves (h.of_getElem? hv) (.missing v symbol next _ hsymbol haction)), ?_⟩
            have hset : ({ s with nextId := s.nextId + 1 }.setVersion i { v with
                stack := v.stack.push next (Subtree.ofMissing setting.table s.nextId symbol
                  (setting.table.lexMode v.stack.state)) false }).versions[i]? = some _ :=
              getElem?_setVersion hv _
            rw [hset]
            rfl
          · exact ⟨h, by rw [hv]⟩

theorem sound_insertAll (h : s.Sound inv) {symbols : List Symbol}
    (hsymbols : symbols ⊆ Recovery.insertable setting.table) (fuel : Nat) :
    (symbols.foldl (fun s symbol => setting.insertMissing i symbol fuel s) s).Sound inv ∧
      (symbols.foldl (fun s symbol => setting.insertMissing i symbol fuel s) s).versions[i]?.map
        (·.position) = s.versions[i]?.map (·.position) := by
  induction symbols generalizing s with
  | nil => exact ⟨h, rfl⟩
  | cons symbol symbols ih =>
      obtain ⟨hsymbol, hothers⟩ := List.cons_subset.1 hsymbols
      obtain ⟨hinsert, hposition⟩ := sound_insertMissing h hsymbol fuel (i := i)
      obtain ⟨hsound, hposition'⟩ := ih hinsert hothers
      exact ⟨hsound, hposition'.trans hposition⟩

theorem sound_setLookahead (h : s.Sound inv) {position : Length} {mode : LexMode}
    {tree : Subtree} (hposition : s.versions[i]?.map (·.position) = some position)
    (hlex : setting.Lexes position.bytes mode tree) : (setLookahead s i tree).Sound inv := by
  rw [setLookahead]
  cases hv : s.versions[i]? with
  | none => exact h
  | some v =>
      rw [hv] at hposition
      cases hposition
      exact h.setVersion (inv.moves (h.of_getElem? hv) (.lex v mode tree hlex))

/-- Plans leave the versions as they are when none of them can be carried out. -/
theorem carryOut_spec (h : s.Sound inv) (hv : s.versions[i]? = some v)
    {lookahead : Subtree} (hlookahead : v.lookahead = some lookahead)
    (hleaf : lookahead.isLeaf = true) {more : List Subtree}
    (hmore : setting.LexesAll (v.position + lookahead.total) more) {plans : List Plan}
    (hplans : ∀ symbols state, .insert symbols state ∈ plans →
      symbols ⊆ Recovery.insertable setting.table) :
    (setting.carryOut i v lookahead (lookahead :: more) s plans).2.Sound inv ∧
      ((setting.carryOut i v lookahead (lookahead :: more) s plans).1 = false →
        (setting.carryOut i v lookahead (lookahead :: more) s plans).2.versions = s.versions) := by
  induction plans generalizing s with
  | nil => exact ⟨h, fun _ => rfl⟩
  | cons plan plans ih =>
      have hothers : ∀ symbols state, .insert symbols state ∈ plans →
          symbols ⊆ Recovery.insertable setting.table :=
        fun symbols state hmem => hplans symbols state (List.mem_cons_of_mem plan hmem)
      cases plan with
      | insert symbols state =>
          obtain ⟨hlexes, hsound, hversions⟩ :=
            lex_spec h v.position.bytes (setting.table.lexMode state)
          rw [carryOut]
          simp only
          split
          · obtain ⟨hinserted, hposition⟩ := sound_insertAll hsound
              (hplans symbols state List.mem_cons_self) Recovery.simulationLimit (i := i)
            rw [hversions, hv] at hposition
            exact ⟨sound_setLookahead hinserted hposition hlexes, nofun⟩
          · obtain ⟨hsound', hkept⟩ := ih hsound (by rw [hversions, hv]) hothers
            exact ⟨hsound', fun hdone => (hkept hdone).trans hversions⟩
      | skip popped skipped =>
          obtain ⟨hlexes, hsound, hversions⟩ := lex_spec h
            (((lookahead :: more).take skipped).foldl (fun p token => p + token.total)
              v.position).bytes
            (setting.table.lexMode { v.stack with frames := v.stack.frames.drop popped }.state)
          rw [carryOut]
          simp only
          split
          · exact ⟨(hsound.withNextId _).setVersion (inv.moves (h.of_getElem? hv)
              (.skip v lookahead _ more popped skipped _ _ hlookahead hleaf hmore hlexes)), nofun⟩
          · obtain ⟨hsound', hkept⟩ := ih hsound (by rw [hversions, hv]) hothers
            exact ⟨hsound', fun hdone => (hkept hdone).trans hversions⟩

theorem sound_recover (h : s.Sound inv) (hv : s.versions[i]? = some v)
    {lookahead : Subtree} (hlookahead : v.lookahead = some lookahead)
    (hleaf : lookahead.isLeaf = true) : (setting.recover s i v lookahead).Sound inv := by
  obtain ⟨hmore, hsound, hversions⟩ := upcoming_spec h (v.position + lookahead.total) lookahead
    setting.options.maxSkippedTokens
  have hv' := hv
  rw [← hversions] at hv'
  rw [recover]
  simp only
  generalize hplans : (setting.insertPlans v.stack lookahead ++ _).mergeSort _ = plans
  have hinsertable : ∀ symbols state, .insert symbols state ∈ plans.map (·.2) →
      symbols ⊆ Recovery.insertable setting.table := by
    intro symbols state hmem
    obtain ⟨⟨cost, plan⟩, hmem, heq⟩ := List.mem_map.1 hmem
    cases heq
    rw [← hplans] at hmem
    rcases List.mem_append.1 (List.mem_mergeSort.1 hmem) with hmem | hmem
    · exact insertable_of_mem_insertPlans hmem
    · exact absurd hmem (insert_notMem_skipPlans _ _ _ _ _)
  obtain ⟨hsound', hkept⟩ := carryOut_spec hsound hv' hlookahead hleaf hmore hinsertable
  split
  · exact hsound'
  · rename_i hdone
    have hkept := hkept (Bool.eq_false_iff.2 hdone)
    split
    · rename_i heof
      exact sound_accept hsound' (by rw [hkept, hv']) hlookahead hleaf (.inr (eq_of_beq heof))
    · exact (hsound'.withNextId _).setVersion (inv.moves (h.of_getElem? hv)
        (.skipLookahead v lookahead _ hlookahead hleaf))

theorem sound_handleError (h : s.Sound inv) (hv : s.versions[i]? = some v)
    {lookahead : Subtree} (hlookahead : v.lookahead = some lookahead)
    (hleaf : lookahead.isLeaf = true)
    (hnone : setting.table.actionList v.stack.state lookahead.symbol = []) :
    (setting.handleError s i v lookahead).1.Sound inv := by
  rw [handleError]
  simp only
  split
  · rename_i hothers
    exact h.removeVersion (by simpa using hothers)
  · have hbroken := h.setVersion (i := i) (inv.moves (h.of_getElem? hv)
      (.breakPending v lookahead hlookahead hleaf hnone))
    split
    · exact hbroken
    · split
      · exact ⟨hbroken.versions, hbroken.accepted, hbroken.cache, hbroken.reuse, hbroken.input,
          hbroken.alive⟩
      · refine sound_recover ?_ ?_ hlookahead hleaf
        · exact ⟨hbroken.versions, hbroken.accepted, hbroken.cache, hbroken.reuse, hbroken.input,
          hbroken.alive⟩
        · exact getElem?_setVersion hv _

/-! ### One operation -/

theorem fetch_spec (h : s.Sound inv) (hv : s.versions[i]? = some v) :
    inv.Holds { v with lookahead := some (setting.fetch s v).1 } ∧
      (setting.fetch s v).2.Sound inv ∧ (setting.fetch s v).2.versions = s.versions := by
  have hholds := h.of_getElem? hv
  rw [fetch]
  cases hlookahead : v.lookahead with
  | some tree =>
      have hself : { v with lookahead := some tree } = v := by rw [← hlookahead]
      simp only [hself]
      exact ⟨hholds, h, trivial⟩
  | none =>
      obtain ⟨hmove, hsound, hversions⟩ := nextToken_spec h v
      exact ⟨inv.moves hholds hmove, hsound, hversions⟩

theorem sound_advanceReused (h : s.Sound inv) (hv : s.versions[i]? = some v)
    {lookahead : Subtree} (hlookahead : v.lookahead = some lookahead)
    (hnode : lookahead.isLeaf = false) :
    (setting.advanceReused s i v lookahead).Sound inv := by
  have henter : ({ s with reuse := s.reuse.map ReuseCursor.stepInto }.setVersion i
      { v with lookahead := none }).Sound inv := by
    refine Sound.setVersion ⟨h.versions, h.accepted, h.cache, ?_, h.input, h.alive⟩
      (inv.moves (h.of_getElem? hv) (.enter v lookahead hlookahead hnode))
    intro c hc
    obtain ⟨d, hd, rfl⟩ := Option.map_eq_some_iff.1 hc
    obtain ⟨start, hstart, hreach⟩ := h.reuse d hd
    exact ⟨start, hstart, .stepInto d hreach⟩
  rw [advanceReused]
  split
  · rename_i p haction
    exact sound_reduce h hv (.node lookahead hlookahead hnode)
      (by rw [haction]; exact List.mem_singleton_self _)
  · rename_i target haction
    split
    · rename_i next hnext
      exact (h.setVersion (inv.moves (h.of_getElem? hv)
        (.shiftReused v lookahead target next hlookahead hnode haction hnext))).count _
    · exact henter
  · exact henter

/-- A state in which a version has its lookahead. -/
def looking (setting : ParseSetting) (s : ParseState) (i : Nat) (v : Version) : ParseState :=
  (setting.fetch s v).2.setVersion i { v with lookahead := some (setting.fetch s v).1 }

/-- What an operation does to a version that has its lookahead. -/
inductive Operation (setting : ParseSetting) (s : ParseState) (i : Nat) (v : Version) (t : Subtree) :
    ParseState × Option ParseStatus → Prop
  | reused (hnode : t.isLeaf = false) :
      Operation setting s i v t (setting.advanceReused s i v t, none)
  | extra (hleaf : t.isLeaf = true) (hnone : setting.table.actionList v.stack.state t.symbol = [])
      (hextra : t.flags.extra = true) : Operation setting s i v t (shift s i v.stack.state t, none)
  | error (hleaf : t.isLeaf = true) (hnone : setting.table.actionList v.stack.state t.symbol = [])
      (hextra : t.flags.extra = false) : Operation setting s i v t (setting.handleError s i v t)
  | actions (ambigs : Nat) (action : Action) (others : List Action) (hleaf : t.isLeaf = true)
      (hactions : setting.table.actionList v.stack.state t.symbol = action :: others) :
      Operation setting s i v t
        (setting.apply (setting.fork v t (s.count fun c => { c with ambigs := ambigs }) others) i t
          action, none)

theorem operation_advance (setting : ParseSetting) (hv : s.versions[i]? = some v) :
    setting.Operation (setting.looking s i v) i { v with lookahead := some (setting.fetch s v).1 }
      (setting.fetch s v).1 (setting.advance s i) := by
  rw [advance, hv]
  simp only
  split
  · rename_i hnode
    exact .reused (by simpa using hnode)
  · rename_i hleaf
    have hleaf : (setting.fetch s v).1.isLeaf = true := by simpa using hleaf
    split
    · rename_i hnone
      split
      · rename_i hextra
        exact .extra hleaf hnone hextra
      · rename_i hextra
        exact .error hleaf hnone (by simpa using hextra)
    · rename_i action haction
      exact .actions (setting.looking s i v).stats.ambigs action [] hleaf haction
    · rename_i action others _ hactions
      exact .actions ((setting.looking s i v).stats.ambigs + 1) action others hleaf hactions

theorem versions_looking (h : s.Sound inv) (hv : s.versions[i]? = some v) :
    (setting.looking s i v).versions
      = s.versions.set i { v with lookahead := some (setting.fetch s v).1 } := by
  rw [looking, setVersion, (fetch_spec h hv).2.2]

theorem length_looking (h : s.Sound inv) (hv : s.versions[i]? = some v) :
    (setting.looking s i v).versions.length = s.versions.length := by
  rw [versions_looking h hv, List.length_set]

theorem eraseIdx_looking (h : s.Sound inv) (hv : s.versions[i]? = some v) :
    (setting.looking s i v).versions.eraseIdx i = s.versions.eraseIdx i := by
  rw [versions_looking h hv, List.eraseIdx_set_eq]

theorem sound_looking (h : s.Sound inv) (hv : s.versions[i]? = some v) :
    (setting.looking s i v).Sound inv ∧ (setting.looking s i v).versions[i]?
      = some { v with lookahead := some (setting.fetch s v).1 } := by
  obtain ⟨hholds, hfetched, hversions⟩ := fetch_spec h hv
  exact ⟨hfetched.setVersion hholds, getElem?_setVersion (by rw [hversions, hv]) _⟩

theorem sound_advance (h : s.Sound inv) (i : Nat) :
    (setting.advance s i).1.Sound inv := by
  cases hv : s.versions[i]? with
  | none =>
      rw [advance, hv]
      exact h
  | some v =>
      obtain ⟨hsound, hset⟩ := sound_looking h hv
      have hoperation := operation_advance setting hv
      generalize setting.advance s i = result at hoperation ⊢
      cases hoperation with
      | reused hnode => exact sound_advanceReused hsound hset rfl hnode
      | extra hleaf hnone hextra =>
          exact sound_shift hsound hset (.shiftExtra _ _ rfl hleaf hextra hnone)
      | error hleaf hnone => exact sound_handleError hsound hset rfl hleaf hnone
      | actions ambigs action others hleaf hactions =>
          have hmem : ∀ other ∈ action :: others,
              other ∈ setting.table.actionList v.stack.state (setting.fetch s v).1.symbol := by
            rw [hactions]
            exact fun _ hother => hother
          obtain ⟨haction, hothers⟩ := List.forall_mem_cons.1 hmem
          obtain ⟨hlt, _⟩ := List.getElem?_eq_some_iff.1 hset
          obtain ⟨hforked, hkept⟩ :=
            fork_spec (hsound.count _) (hsound.of_getElem? hset) rfl hleaf hothers hlt
          exact sound_apply hforked (hkept.trans hset) rfl hleaf haction

end ParseSetting

/-! ### Versions side by side -/

namespace Version

theorem mem_absorb (v : Version) (rest : List Version) :
    (v.absorb rest).1 ∈ v :: rest ∧ ∀ w ∈ (v.absorb rest).2, w ∈ rest := by
  fun_induction absorb v rest with
  | case1 v => exact ⟨List.mem_cons_self, fun _ h => h⟩
  | case2 v w rest _ ih =>
      obtain ⟨hbest, hothers⟩ := ih
      refine ⟨?_, fun u hu => List.mem_cons_of_mem w (hothers u hu)⟩
      rcases List.mem_cons.1 hbest with heq | hmem
      · rw [heq]
        by_cases hbetter : w.better v = true
        · rw [if_pos hbetter]
          exact List.mem_cons_of_mem v List.mem_cons_self
        · rw [if_neg hbetter]
          exact List.mem_cons_self
      · exact List.mem_cons_of_mem v (List.mem_cons_of_mem w hmem)
  | case3 v w rest _ best others heq ih =>
      rw [heq] at ih
      obtain ⟨hbest, hothers⟩ := ih
      constructor
      · rcases List.mem_cons.1 hbest with heq | hmem
        · exact heq ▸ List.mem_cons_self
        · exact List.mem_cons_of_mem v (List.mem_cons_of_mem w hmem)
      · intro u hu
        rcases List.mem_cons.1 hu with rfl | hu
        · exact List.mem_cons_self
        · exact List.mem_cons_of_mem w (hothers u hu)

theorem mem_of_mem_mergeAll {versions : List Version} {w : Version} (h : w ∈ mergeAll versions) :
    w ∈ versions := by
  fun_induction mergeAll versions with
  | case1 => exact h
  | case2 v rest ih =>
      obtain ⟨hbest, hothers⟩ := mem_absorb v rest
      rcases List.mem_cons.1 h with rfl | hw
      · exact hbest
      · exact List.mem_cons_of_mem v (hothers w (ih hw))

theorem mem_of_mem_condense {limit : Nat} {versions : List Version} {w : Version}
    (h : w ∈ condense limit versions) : w ∈ versions := by
  rw [condense] at h
  split at h
  · exact mem_of_mem_mergeAll (List.mem_mergeSort.1 (List.mem_of_mem_take h))
  · exact mem_of_mem_mergeAll h

theorem condense_ne_nil {limit : Nat} {versions : List Version} (hlimit : 0 < limit)
    (h : versions ≠ []) : condense limit versions ≠ [] := by
  rw [condense]
  split
  · rename_i hlength
    refine List.ne_nil_of_length_pos ?_
    rw [List.length_take, List.length_mergeSort]
    omega
  · cases versions with
    | nil => exact absurd rfl h
    | cons v rest =>
        rw [mergeAll]
        exact List.cons_ne_nil _ _

theorem best?_spec (versions : List Version) :
    (best? versions = none ∧ versions = []) ∨ ∃ v ∈ versions, best? versions = some v := by
  cases versions with
  | nil => exact .inl ⟨rfl, rfl⟩
  | cons v rest => exact .inr ⟨_, mem_foldl_choose better v rest, rfl⟩

end Version

theorem ParseState.Sound.condense {setting : ParseSetting} {old : Option ReuseCursor}
    {inv : setting.Invariant old} {s : ParseState} (h : s.Sound inv) :
    { s with versions := Version.condense setting.options.maxVersions s.versions }.Sound inv := by
  refine { h with
    versions := fun v hv => h.versions v (Version.mem_of_mem_condense hv), alive := fun hmax => ?_ }
  rcases h.alive hmax with hne | hne
  · exact .inl (Version.condense_ne_nil hmax hne)
  · exact .inr hne

theorem Accepted.best?_spec (accepted : List Accepted) :
    (best? accepted = none ∧ accepted = []) ∨ ∃ a ∈ accepted, best? accepted = some a := by
  cases accepted with
  | nil => exact .inl ⟨rfl, rfl⟩
  | cons a rest => exact .inr ⟨_, mem_foldl_choose better a rest, rfl⟩

theorem ParseState.eq_nil_of_nextVersion?_eq_none {s : ParseState} (h : s.nextVersion? = none) :
    s.versions = [] := by
  rw [nextVersion?] at h
  cases hversions : s.versions with
  | nil => rfl
  | cons v rest =>
      rw [hversions] at h
      cases h

namespace ParseSetting

/-! ### Whole runs -/

/-- The text behind a place as one leaf, if there is any. -/
def remainder (setting : ParseSetting) (id : Nat) (position : Length) : List Subtree :=
  let rest := Length.ofBytes (setting.text.extract position.bytes setting.text.size)
  if rest.bytes > 0 then
    [Subtree.ofToken setting.table id ⟨Symbol.error, Length.zero, rest, 1, LexMode.error⟩]
  else []

/-- The states in front of the operations of a run. -/
inductive Passes (setting : ParseSetting) (start : ParseState) : ParseState → Prop
  | start : Passes setting start start
  | next (s : ParseState) (i : Nat) (h : Passes setting start s) (hnext : s.nextVersion? = some i)
      (hstatus : (setting.advance s i).2 = none) : Passes setting start { (setting.advance s i).1 with
        versions := Version.condense setting.options.maxVersions (setting.advance s i).1.versions }

/-- The state behind an operation. -/
def after (setting : ParseSetting) (s : ParseState) (i : Nat) : ParseState :=
  { (setting.advance s i).1 with
    versions := Version.condense setting.options.maxVersions (setting.advance s i).1.versions }

/-- The states that a run goes through in so many operations. -/
def passed (setting : ParseSetting) : Nat → ParseState → List ParseState
  | 0, _ => []
  | limit + 1, s => s :: match s.nextVersion? with
    | none => []
    | some i => if (setting.advance s i).2.isNone then setting.passed limit (setting.after s i) else []

/-- The trees with which a parse can end. A parse without any version only has a root. -/
inductive Ends (setting : ParseSetting) (old : Option ReuseCursor) : Tree → Prop
  | accepted (v : Version) (a : Accepted) (id : Nat) (h : setting.Reached old v)
      (haccepted : setting.AcceptedFrom v a) :
      Ends setting old
        ⟨(setting.buildRoot id a.trees [] a.trailing).1, setting.language, .complete⟩
  | stopped (v : Version) (id : Nat) (status : ParseStatus) (h : setting.Reached old v) :
      Ends setting old ⟨(setting.buildRoot (id + 1) v.stack.trees (setting.remainder id v.position)
        Length.zero).1, setting.language, status⟩
  | nothing (id : Nat) (h : setting.options.maxVersions = 0) :
      Ends setting old
        ⟨(setting.buildRoot id [] [] (Length.ofBytes setting.text)).1, setting.language, .complete⟩

variable {setting : ParseSetting} {old : Option ReuseCursor} {s : ParseState}

theorem ends_finish (h : s.Sound (setting.reaching old)) (hnone : s.versions = []) :
    setting.Ends old (setting.finish s).1 := by
  rw [finish]
  rcases Accepted.best?_spec s.accepted with ⟨hbest, hnil⟩ | ⟨a, ha, hbest⟩
  · rw [hbest]
    simp only
    rw [lengthFrom_eq h.input, ByteArray.extract_zero_size]
    refine .nothing s.nextId ?_
    rcases Nat.eq_zero_or_pos setting.options.maxVersions with hzero | hmax
    · exact hzero
    · rcases h.alive hmax with hne | hne
      · exact absurd hnone hne
      · exact absurd hnil hne
  · rw [hbest]
    obtain ⟨v, hreached, haccepted⟩ := h.accepted a ha
    exact .accepted v a s.nextId hreached haccepted

theorem ends_abort (h : s.Sound (setting.reaching old)) (status : ParseStatus) :
    setting.Ends old (setting.abort s status).1 := by
  rw [abort]
  rcases Version.best?_spec s.versions with ⟨hbest, _⟩ | ⟨v, hv, hbest⟩
  · rw [hbest]
    simp only [lengthFrom_eq h.input]
    exact .stopped setting.startVersion s.nextId status .start
  · rw [hbest]
    simp only [lengthFrom_eq h.input]
    exact .stopped v s.nextId status (h.versions v hv)

theorem ends_run (h : s.Sound (setting.reaching old)) (limit : Nat) :
    setting.Ends old (setting.run limit s).1 := by
  induction limit generalizing s with
  | zero => exact ends_abort h .cancelled
  | succ limit ih =>
      rw [run]
      split
      · exact ends_abort h .cancelled
      · split
        · rename_i hnext
          exact ends_finish h (s.eq_nil_of_nextVersion?_eq_none hnext)
        · rename_i i hnext
          have hsound := sound_advance h i
          split
          · rename_i s' status hadvance
            rw [hadvance] at hsound
            exact ends_abort hsound status
          · rename_i s' hadvance
            rw [hadvance] at hsound
            exact ih hsound.condense

theorem sound_start (old : Option ReuseCursor) (id : Nat) :
    (ParseState.start setting.table.startState old id).Sound (setting.reaching old) where
  versions _ hv := List.mem_singleton.1 hv ▸ .start
  accepted _ ha := absurd ha List.not_mem_nil
  cache _ hc := nomatch hc
  reuse c hc := ⟨c, hc, .refl⟩
  input _ hx := nomatch hx
  alive _ := .inl (List.cons_ne_nil _ _)

/-- What holds of the versions of a parse at its start holds of them in front of every operation. -/
theorem sound_of_passes {inv : setting.Invariant old} {start : ParseState} (hstart : start.Sound inv)
    (h : setting.Passes start s) : s.Sound inv := by
  induction h with
  | start => exact hstart
  | next s i _ _ _ ih => exact (sound_advance ih i).condense

/-- Where the states run out before the limit, the next one is among them as well. -/
theorem after_mem_passed {start : ParseState} {limit : Nat}
    (hlimit : (setting.passed limit start).length < limit)
    (hs : s ∈ setting.passed limit start) (hnext : s.nextVersion? = some i)
    (hstatus : (setting.advance s i).2 = none) :
    setting.after s i ∈ setting.passed limit start := by
  induction limit generalizing start with
  | zero => cases hs
  | succ limit ih =>
      rw [passed, List.length_cons, Nat.succ_lt_succ_iff] at hlimit
      rcases List.mem_cons.1 hs with rfl | hs
      · rw [passed, hnext]
        simp only [hnext, hstatus, Option.isNone_none, if_true] at hlimit ⊢
        cases limit with
        | zero => cases hlimit
        | succ limit => exact List.mem_cons_of_mem _ List.mem_cons_self
      · rw [passed]
        refine List.mem_cons_of_mem _ ?_
        cases hfirst : start.nextVersion? with
        | none =>
            rw [hfirst] at hs
            cases hs
        | some j =>
            rw [hfirst] at hs hlimit
            by_cases hgoes : (setting.advance start j).2.isNone
            · simp only [if_pos hgoes] at hs hlimit ⊢
              exact ih hlimit hs
            · simp only [if_neg hgoes] at hs
              cases hs

theorem Passes.mem_passed {start : ParseState} {limit : Nat} (h : setting.Passes start s)
    (hlimit : (setting.passed limit start).length < limit) : s ∈ setting.passed limit start := by
  induction h with
  | start =>
      cases limit with
      | zero => cases hlimit
      | succ limit => exact List.mem_cons_self
  | next s i _ hnext hstatus ih => exact after_mem_passed hlimit ih hnext hstatus

end ParseSetting

end IncrementalLR
