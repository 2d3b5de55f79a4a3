import IncrementalLR.Proofs.Parse.Termination

/-!
# Forks

The threads of a parse are its versions and what was accepted of others. As long as there may be so
many versions, an operation puts in the place of a version what each action of the table makes of it.
A version without an action is dropped if there are other threads. When versions are merged, one that
stands for it is left of every version.
-/

namespace IncrementalLR

/-- A version that goes on, or one that came to the end of the text. -/
inductive Thread where
  | going (v : Version)
  | ended (a : Accepted)

def ParseState.threads (s : ParseState) : List Thread :=
  s.versions.map .going ++ s.accepted.map .ended

/-- What is kept of a version that is accepted. -/
def Version.accepted (v : Version) : Accepted where
  trees := v.stack.trees
  trailing := (v.lookahead.map (·.padding)).getD Length.zero
  errorCost := v.stack.errorCost
  dynamicPrecedence := v.stack.dynamicPrecedence

namespace ParseSetting

/-- What an action makes of a version. -/
inductive Makes (setting : ParseSetting) (v : Version) (t : Subtree) : Action → Thread → Prop
  | shift (next : StateId) : Makes setting v t (.shift next) (.going (shiftVersion v next t false))
  | reduce (p : ProductionId) (forked : Bool) (id : Nat) : Makes setting v t (.reduce p)
      (.going { v with stack := (setting.reduceStack forked p id v.stack).1 })
  | accept : Makes setting v t .accept (.ended v.accepted)

/-- What an operation that is no recovery puts in the place of a version with a lookahead. -/
inductive Continues (setting : ParseSetting) (v : Version) (t : Subtree) : List Thread → Prop
  | act (results : List Thread)
      (hmakes : List.Forall₂ (setting.Makes v t)
        (setting.table.actionList v.stack.state t.symbol) results)
      (hsome : setting.table.actionList v.stack.state t.symbol ≠ []) : Continues setting v t results
  | skip (hnone : setting.table.actionList v.stack.state t.symbol = [])
      (hextra : t.flags.extra = true) :
      Continues setting v t [.going (shiftVersion v v.stack.state t false)]
  | drop (hnone : setting.table.actionList v.stack.state t.symbol = [])
      (hextra : t.flags.extra = false) : Continues setting v t []

variable {g : Grammar} {policy : ConflictPolicy} {setting : ParseSetting} {s : ParseState} {i : Nat}
  {v w : Version} {t : Subtree}

/-! ### Results of actions -/

theorem exists_makes {actions : List Action} {results : List Thread}
    (h : List.Forall₂ (setting.Makes v t) actions results) :
    (∀ action ∈ actions, ∃ r ∈ results, setting.Makes v t action r) ∧
      ∀ r ∈ results, ∃ action ∈ actions, setting.Makes v t action r := by
  induction h with
  | nil => exact ⟨fun _ h => absurd h List.not_mem_nil, fun _ h => absurd h List.not_mem_nil⟩
  | cons hmakes _ ih =>
      obtain ⟨hall, honly⟩ := ih
      refine ⟨List.forall_mem_cons.2 ⟨⟨_, List.mem_cons_self, hmakes⟩, fun action haction => ?_⟩,
        List.forall_mem_cons.2 ⟨⟨_, List.mem_cons_self, hmakes⟩, fun r hr => ?_⟩⟩
      · obtain ⟨r, hr, hmakes⟩ := hall action haction
        exact ⟨r, List.mem_cons_of_mem _ hr, hmakes⟩
      · obtain ⟨action, haction, hmakes⟩ := honly r hr
        exact ⟨action, List.mem_cons_of_mem _ haction, hmakes⟩

/-- Every action is taken. -/
theorem Continues.exists_makes {results : List Thread} (h : setting.Continues v t results)
    {action : Action} (haction : action ∈ setting.table.actionList v.stack.state t.symbol) :
    ∃ r ∈ results, setting.Makes v t action r := by
  cases h with
  | act _ hmakes => exact (ParseSetting.exists_makes hmakes).1 action haction
  | skip hnone =>
      rw [hnone] at haction
      exact absurd haction List.not_mem_nil
  | drop hnone =>
      rw [hnone] at haction
      exact absurd haction List.not_mem_nil

/-! ### Threads -/

theorem threads_setVersion (hv : s.versions[i]? = some v) (w : Version) :
    (s.setVersion i w).threads.Perm (.going w :: (s.removeVersion i).threads) :=
  ((versions_set_perm hv w).map Thread.going).append_right _

theorem threads_removeVersion (hv : s.versions[i]? = some v) :
    (Thread.going v :: (s.removeVersion i).threads).Perm s.threads :=
  ((cons_eraseIdx_perm hv).map Thread.going).append_right _

theorem threads_accept (hv : s.versions[i]? = some v) :
    (accept s i).threads.Perm (.ended v.accepted :: (s.removeVersion i).threads) := by
  have hsame : (accept s i).threads = (s.removeVersion i).threads ++ [.ended v.accepted] := by
    rw [accept, hv]
    simp only [ParseState.threads, List.map_append, List.append_assoc]
    rfl
  rw [hsame]
  exact List.perm_append_comm

theorem CompiledFrom.threads_apply (h : setting.CompiledFrom g policy)
    (hreached : setting.Reached none v) (ht : v.lookahead = some t)
    (hv : s.versions[i]? = some v) {action : Action}
    (haction : action ∈ setting.table.actionList v.stack.state t.symbol) :
    ∃ result, setting.Makes v t action result ∧
      (setting.apply s i t action).threads.Perm (result :: (s.removeVersion i).threads) := by
  rcases h.action_of_mem hreached ht haction with ⟨next, rfl, _⟩ | ⟨p, rfl⟩ | rfl
  · refine ⟨_, .shift next, ?_⟩
    rw [apply, shift, hv]
    exact threads_setVersion hv _
  · refine ⟨_, .reduce p s.isForked s.nextId, ?_⟩
    rw [apply, reduce, hv]
    exact threads_setVersion hv _
  · exact ⟨_, .accept, threads_accept hv⟩

theorem length_shift_le (state : StateId) (t : Subtree) :
    (shift s i state t).versions.length ≤ s.versions.length := by
  rw [shift]
  split
  · exact le_rfl
  · exact le_of_eq List.length_set

theorem length_apply_le (t : Subtree) (action : Action) :
    (setting.apply s i t action).versions.length ≤ s.versions.length := by
  cases action with
  | shift next => exact length_shift_le next t
  | reduce p =>
      rw [apply, reduce]
      split
      · exact le_rfl
      · exact le_of_eq List.length_set
  | accept =>
      rw [apply, accept]
      split
      · exact le_rfl
      · exact List.length_eraseIdx_le s.versions i
  | error => exact le_rfl
  | goto => exact le_rfl
  | ambig => exact le_rfl

theorem length_fork_le (actions : List Action) :
    (setting.fork v t s actions).versions.length ≤ s.versions.length + actions.length := by
  induction actions generalizing s with
  | nil => exact le_rfl
  | cons action actions ih =>
      rw [fork, List.length_cons]
      split
      · omega
      · refine ih.trans ?_
        rw [Nat.add_comm actions.length 1, ← Nat.add_assoc]
        refine Nat.add_le_add_right ((length_apply_le t action).trans ?_) _
        rw [List.length_append, List.length_singleton]

/-- A fork that is not cut short has a thread for every action. -/
theorem CompiledFrom.threads_fork (h : setting.CompiledFrom g policy)
    (hreached : setting.Reached none v) (ht : v.lookahead = some t) {actions : List Action}
    (hactions : ∀ action ∈ actions, action ∈ setting.table.actionList v.stack.state t.symbol)
    (hroom : s.versions.length + actions.length ≤ setting.options.maxVersions) :
    ∃ results, List.Forall₂ (setting.Makes v t) actions results ∧
      (setting.fork v t s actions).threads.Perm (results ++ s.threads) := by
  induction actions generalizing s with
  | nil => exact ⟨[], .nil, List.Perm.refl _⟩
  | cons action actions ih =>
      obtain ⟨haction, hactions⟩ := List.forall_mem_cons.1 hactions
      rw [List.length_cons] at hroom
      rw [fork, if_neg (by omega)]
      have hlast : { s with versions := s.versions ++ [v] }.versions[s.versions.length]? = some v := by
        simp
      have hsame : ({ s with versions := s.versions ++ [v] }.removeVersion s.versions.length) = s := by
        simp [ParseState.removeVersion, List.eraseIdx_append_of_length_le]
      obtain ⟨result, hmakes, hthreads⟩ := h.threads_apply hreached ht hlast haction
      have hlength : (setting.apply { s with versions := s.versions ++ [v] } s.versions.length t
          action).versions.length ≤ s.versions.length + 1 := by
        refine (length_apply_le t action).trans ?_
        rw [List.length_append, List.length_singleton]
      obtain ⟨results, hall, hforked⟩ := ih hactions ((Nat.add_le_add_right hlength _).trans (by omega))
      rw [hsame] at hthreads
      refine ⟨result :: results, .cons hmakes hall, hforked.trans ?_⟩
      exact (hthreads.append_left results).trans List.perm_middle

/-- All the actions on a version together. -/
theorem CompiledFrom.threads_actions (h : setting.CompiledFrom g policy)
    (hs : s.Sound (setting.reaching none)) (ht : v.lookahead = some t)
    (hv : s.versions[i]? = some v) {action : Action} {others : List Action}
    (hactions : setting.table.actionList v.stack.state t.symbol = action :: others)
    (hroom : s.versions.length + others.length ≤ setting.options.maxVersions) :
    (setting.apply (setting.fork v t s others) i t action).versions.length
        ≤ setting.options.maxVersions ∧
      ∃ results, List.Forall₂ (setting.Makes v t) (action :: others) results ∧
        (setting.apply (setting.fork v t s others) i t action).threads.Perm
          (results ++ (s.removeVersion i).threads) := by
  have hreached : setting.Reached none v := hs.of_getElem? hv
  have hmem : ∀ other ∈ action :: others,
      other ∈ setting.table.actionList v.stack.state t.symbol := by
    rw [hactions]
    exact fun _ hother => hother
  obtain ⟨haction, hmore⟩ := List.forall_mem_cons.1 hmem
  obtain ⟨hlt, _⟩ := List.getElem?_eq_some_iff.1 hv
  obtain ⟨_, hkept⟩ := fork_spec hs hreached ht ((isFresh_of_reached hreached).lookahead t ht) hmore hlt
  have hlast := hkept.trans hv
  obtain ⟨results, hall, hforked⟩ := h.threads_fork hreached ht hmore hroom
  obtain ⟨result, hmakes, hthreads⟩ := h.threads_apply hreached ht hlast haction
  refine ⟨(length_apply_le t action).trans ((length_fork_le others).trans hroom), result :: results,
    .cons hmakes hall, hthreads.trans (.cons result ((List.perm_cons (Thread.going v)).1 ?_))⟩
  calc List.Perm (.going v :: ((setting.fork v t s others).removeVersion i).threads)
        (setting.fork v t s others).threads := threads_removeVersion hlast
    List.Perm _ (results ++ s.threads) := hforked
    List.Perm _ (results ++ .going v :: (s.removeVersion i).threads) :=
      (threads_removeVersion hv).symm.append_left results
    List.Perm _ (.going v :: (results ++ (s.removeVersion i).threads)) := List.perm_middle

/-! ### One operation -/

/-- A fresh parse takes its tokens from the lexer. -/
theorem nextToken_of_fresh (hreuse : s.reuse = none) (v : Version) : setting.nextToken s v
    = setting.lex s v.position.bytes (setting.table.lexMode v.stack.state) := by
  rw [nextToken, hreuse]

theorem reuse_eq_none (hs : s.Sound (setting.reaching none)) : s.reuse = none := by
  cases hreuse : s.reuse with
  | none => rfl
  | some cursor =>
      obtain ⟨start, hstart, _⟩ := hs.reuse cursor hreuse
      cases hstart

/-- An operation puts in the place of a version all that the table allows, unless it is the only thread
and in error. -/
theorem CompiledFrom.continues_advance (h : setting.CompiledFrom g policy)
    (hs : s.Sound (setting.reaching none)) (hv : s.versions[i]? = some v)
    (hroom : s.versions.length +
      ((setting.table.actionList v.stack.state (setting.fetch s v).1.symbol).length - 1)
        ≤ setting.options.maxVersions)
    (hothers : setting.table.actionList v.stack.state (setting.fetch s v).1.symbol = [] →
      (setting.fetch s v).1.flags.extra = false → s.isForked = true ∨ s.accepted ≠ []) :
    (setting.advance s i).2 = none ∧
      (setting.advance s i).1.versions.length ≤ setting.options.maxVersions ∧
      ∃ results, setting.Continues { v with lookahead := some (setting.fetch s v).1 }
          (setting.fetch s v).1 results ∧
        (setting.advance s i).1.threads.Perm (results ++ (s.removeVersion i).threads) := by
  obtain ⟨hsound, hset⟩ := sound_looking hs hv
  have haccepted : (setting.looking s i v).accepted = s.accepted := accepted_fetch v
  have hrest : ((setting.looking s i v).removeVersion i).threads = (s.removeVersion i).threads := by
    simp only [ParseState.threads, ParseState.removeVersion, eraseIdx_looking hs hv, haccepted]
  have hlength := length_looking hs hv
  have hleaf := (isFresh_of_reached (hsound.of_getElem? hset)).lookahead _ rfl
  have hoperation := operation_advance setting hv
  rw [← hrest]
  generalize setting.looking s i v = s₁ at *
  generalize (setting.fetch s v).1 = t at *
  generalize setting.advance s i = result at *
  cases hoperation with
  | reused hnode =>
      rw [hleaf] at hnode
      cases hnode
  | extra _ hnone hextra =>
      refine ⟨rfl, ?_, _, .skip hnone hextra, ?_⟩
      · rw [hnone] at hroom
        exact (length_shift_le v.stack.state t).trans (le_of_eq_of_le hlength hroom)
      · rw [shift, hset]
        exact threads_setVersion hset _
  | error _ hnone hextra =>
      rw [hnone] at hroom
      rw [handleError, if_pos ?_]
      · refine ⟨rfl, ?_, [], .drop hnone hextra, List.Perm.refl _⟩
        exact (List.length_eraseIdx_le s₁.versions i).trans (le_of_eq_of_le hlength hroom)
      · have hforked : s₁.isForked = s.isForked := by
          rw [ParseState.isForked, ParseState.isForked, hlength]
        rw [hforked, haccepted]
        simpa using hothers hnone hextra
  | actions ambigs action others _ hactions =>
      rw [hactions, List.length_cons, Nat.add_sub_cancel, ← hlength] at hroom
      obtain ⟨hfits, results, hall, hthreads⟩ :=
        h.threads_actions (hsound.count fun c => { c with ambigs := ambigs }) rfl hset hactions hroom
      have hsome : setting.table.actionList v.stack.state t.symbol ≠ [] := by
        rw [hactions]
        exact List.cons_ne_nil _ _
      exact ⟨rfl, hfits, results, .act results (by rwa [hactions]) hsome, hthreads⟩

end ParseSetting

/-! ### Merging -/

namespace Version

section Merging

variable {P : Version → Prop} {R : Version → Version → Prop} (hrefl : ∀ v, R v v)
  (htrans : ∀ a b c, R a b → R b c → R a c)
  (hmerge : ∀ v w, P v → P w → v.merges w = true →
    R (if w.better v then w else v) v ∧ R (if w.better v then w else v) w)

include hrefl htrans hmerge

theorem exists_mem_absorb (v : Version) (rest : List Version) (hall : ∀ u ∈ v :: rest, P u) :
    ∀ u ∈ v :: rest, ∃ x ∈ (v.absorb rest).1 :: (v.absorb rest).2, R x u := by
  fun_induction absorb v rest with
  | case1 v => exact fun u hu => ⟨u, hu, hrefl u⟩
  | case2 v w rest hmerges ih =>
      obtain ⟨hv, hrest⟩ := List.forall_mem_cons.1 hall
      obtain ⟨hw, hrest⟩ := List.forall_mem_cons.1 hrest
      obtain ⟨hfirst, hsecond⟩ := hmerge v w hv hw hmerges
      have hchosen : P (if w.better v then w else v) := by
        split
        · exact hw
        · exact hv
      have hbest := ih (List.forall_mem_cons.2 ⟨hchosen, hrest⟩)
      obtain ⟨x, hx, hover⟩ := hbest _ List.mem_cons_self
      intro u hu
      rcases List.mem_cons.1 hu with rfl | hu
      · exact ⟨x, hx, htrans _ _ _ hover hfirst⟩
      · rcases List.mem_cons.1 hu with rfl | hu
        · exact ⟨x, hx, htrans _ _ _ hover hsecond⟩
        · exact hbest u (List.mem_cons_of_mem _ hu)
  | case3 v w rest _ best others heq ih =>
      rw [heq] at ih
      obtain ⟨hv, hrest⟩ := List.forall_mem_cons.1 hall
      have hbest := ih (List.forall_mem_cons.2 ⟨hv, fun u hu => hrest u (List.mem_cons_of_mem w hu)⟩)
      have hkept : ∀ u ∈ v :: rest, ∃ x ∈ best :: w :: others, R x u := by
        intro u hu
        obtain ⟨x, hx, hover⟩ := hbest u hu
        refine ⟨x, ?_, hover⟩
        rcases List.mem_cons.1 hx with rfl | hx
        · exact List.mem_cons_self
        · exact List.mem_cons_of_mem best (List.mem_cons_of_mem w hx)
      intro u hu
      rcases List.mem_cons.1 hu with rfl | hu
      · exact hkept u List.mem_cons_self
      · rcases List.mem_cons.1 hu with rfl | hu
        · exact ⟨u, List.mem_cons_of_mem best List.mem_cons_self, hrefl u⟩
        · exact hkept u (List.mem_cons_of_mem v hu)

theorem exists_mem_mergeAll (versions : List Version) (hall : ∀ u ∈ versions, P u) :
    ∀ u ∈ versions, ∃ x ∈ mergeAll versions, R x u := by
  fun_induction mergeAll versions with
  | case1 => exact fun u hu => absurd hu List.not_mem_nil
  | case2 v rest ih =>
      obtain ⟨_, hothers⟩ := mem_absorb v rest
      intro u hu
      obtain ⟨x, hx, hover⟩ := exists_mem_absorb hrefl htrans hmerge v rest hall u hu
      rcases List.mem_cons.1 hx with rfl | hx
      · exact ⟨_, List.mem_cons_self, hover⟩
      · obtain ⟨y, hy, hover'⟩ :=
          ih (fun u hu => hall u (List.mem_cons_of_mem v (hothers u hu))) x hx
        exact ⟨y, List.mem_cons_of_mem _ hy, htrans _ _ _ hover' hover⟩

/-- Where there may be so many versions, one that stands for it is left of every version. -/
theorem exists_mem_condense {limit : Nat} {versions : List Version}
    (hlimit : versions.length ≤ limit) (hall : ∀ u ∈ versions, P u) :
    ∀ u ∈ versions, ∃ x ∈ condense limit versions, R x u := by
  rw [condense, if_neg (Nat.not_lt_of_le ((mergeAll_subperm versions).length_le.trans hlimit))]
  exact exists_mem_mergeAll hrefl htrans hmerge versions hall

end Merging

end Version

end IncrementalLR
