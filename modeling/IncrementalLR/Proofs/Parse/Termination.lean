import Mathlib.Logic.Hydra
import IncrementalLR.Proofs.Grammar.Meaning
import IncrementalLR.Proofs.Parse.Errors
import IncrementalLR.Proofs.Table.Reductions

/-!
# Parses come to an end

An operation that is no recovery puts in the place of a version others that are nearer to the end of
the text, have got a lookahead, or have made a reduction in front of it. Versions are only merged and
dropped otherwise, and recoveries are counted. So where reductions between two shifts come to an end,
a parse does so too.
-/

namespace IncrementalLR

open Relation (CutExpand TransGen ReflTransGen)

/-! ### Fewer versions -/

namespace Version

theorem absorb_subperm (v : Version) (rest : List Version) :
    ((v.absorb rest).1 :: (v.absorb rest).2).Subperm (v :: rest) := by
  fun_induction absorb v rest with
  | case1 v => exact List.Subperm.refl _
  | case2 v w rest _ ih =>
      refine ih.trans ?_
      split
      · exact (List.sublist_cons_self v (w :: rest)).subperm
      · exact ((List.sublist_cons_self w rest).cons_cons v).subperm
  | case3 v w rest _ best others heq ih =>
      rw [heq] at ih
      exact (List.Perm.swap w best others).subperm.trans
        (((List.subperm_cons w).2 ih).trans (List.Perm.swap v w rest).subperm)

theorem mergeAll_subperm (versions : List Version) : (mergeAll versions).Subperm versions := by
  fun_induction mergeAll versions with
  | case1 => exact List.Subperm.refl _
  | case2 v rest ih => exact ((List.subperm_cons _).2 ih).trans (absorb_subperm v rest)

theorem condense_subperm (limit : Nat) (versions : List Version) :
    (condense limit versions).Subperm versions := by
  rw [condense]
  split
  · exact ((List.take_sublist _ _).subperm.trans (List.mergeSort_perm _ _).subperm).trans
      (mergeAll_subperm versions)
  · exact mergeAll_subperm versions

theorem condense_singleton {limit : Nat} (hlimit : 0 < limit) (v : Version) :
    condense limit [v] = [v] := by
  have hmerged : mergeAll [v] = [v] := by
    rw [mergeAll, absorb, mergeAll]
  rw [condense, hmerged]
  exact if_neg (Nat.not_lt_of_le hlimit)

end Version

/-- A part of a multiset is got by cutting. -/
theorem cutExpand_of_le {α : Type} {r : α → α → Prop} {s t : Multiset α} (h : s ≤ t) :
    ReflTransGen (CutExpand r) s t := by
  obtain ⟨u, rfl⟩ := Multiset.le_iff_exists_add.1 h
  clear h
  induction u using Multiset.induction_on with
  | empty =>
      rw [Multiset.add_zero]
  | cons a u ih =>
      refine ih.tail ⟨0, a, fun b hb => absurd hb (Multiset.notMem_zero b), ?_⟩
      rw [Multiset.add_zero, Multiset.add_cons, ← Multiset.singleton_add, Multiset.add_comm]

/-- The version that is furthest behind is one of the versions. -/
theorem ParseState.exists_of_nextVersion? {s : ParseState} {i : Nat} (h : s.nextVersion? = some i) :
    ∃ v, s.versions[i]? = some v := by
  rw [nextVersion?] at h
  cases hversions : s.versions with
  | nil =>
      rw [hversions] at h
      cases h
  | cons v rest =>
      rw [hversions] at h
      cases h
      refine ⟨_, List.getElem?_eq_getElem (Nat.lt_succ_of_le ?_)⟩
      refine foldl_induction (fun _ (best : Nat × Nat) => best.1 ≤ rest.length) (Nat.zero_le _) ?_
      rintro done ⟨w, j⟩ left best heq hbest
      have hmem : (w, j) ∈ rest.zipIdx := by
        rw [heq]
        exact List.mem_append_right _ List.mem_cons_self
      simp only
      split
      · exact (List.mem_zipIdx' hmem).1
      · exact hbest

/-! ### Versions nearer to their end -/

/-- What an operation that is no recovery puts in the place of a version. -/
inductive Version.Nearer (table : Table) : Version → Version → Prop
  | moved (w v : Version) (h : v.position.bytes < w.position.bytes) : Nearer table w v
  | fetched (w v : Version) (t : Subtree) (h : w.position = v.position) (hv : v.lookahead = none)
      (hw : w.lookahead = some t) : Nearer table w v
  | reduced (w v : Version) (t : Subtree) (h : w.position = v.position) (hv : v.lookahead = some t)
      (hw : w.lookahead = some t)
      (hreduces : table.ReducesOn t.symbol v.stack.structuralStates w.stack.structuralStates) :
      Nearer table w v

namespace ParseSetting

variable {g : Grammar} {policy : ConflictPolicy} {setting : ParseSetting} {s : ParseState} {i : Nat}
  {v w : Version} {t : Subtree}

/-- Versions of a fresh parse, the first nearer than the second. -/
structure Closer (setting : ParseSetting) (w v : Version) : Prop where
  reached : setting.Reached none v
  next : setting.Reached none w
  nearer : w.Nearer setting.table v

/-- What fresh parses rely on to come to an end. -/
structure Progresses (setting : ParseSetting) (g : Grammar) (policy : ConflictPolicy) : Prop where
  wellFormed : setting.WellFormed
  compiled : setting.CompiledFrom g policy
  eof : (setting.table.symbolInfo Symbol.eof).extra = false
  reductions : setting.table.ReductionsEnd g

theorem bytes_le_of_reached (hsetting : setting.WellFormed) (hv : setting.Reached none v) :
    v.position.bytes ≤ setting.text.size := by
  obtain ⟨done, rest, hfollows⟩ := exists_follows_of_reached hsetting
    (fun start hstart => absurd hstart (Option.not_mem_none start)) hv
  have hsize : setting.text.size = (done ++ rest).length := by
    rw [← hfollows.text]
    rfl
  rw [hfollows.position, Length.bytes_ofList, hsize, List.length_append]
  exact Nat.le_add_right _ _

theorem Progresses.acc_reducesOn (h : setting.Progresses g policy) (hv : setting.Reached none v)
    (ht : v.lookahead = some t) :
    Acc (fun after before => setting.table.ReducesOn t.symbol before after)
      v.stack.structuralStates := by
  obtain ⟨hfrom, _⟩ := Table.compile_eq_ok h.compiled.table
  have hpath := h.compiled.onPath_of_fresh hv
  have hleaf := (isFresh_of_reached hv).lookahead t ht
  exact h.reductions t.symbol _ _ (h.compiled.has_of_actsOn hpath (.token t ht hleaf))
    (hpath.stack.stackPath hfrom)

/-- No version comes nearer to its end for ever. -/
theorem Progresses.wellFounded_closer (h : setting.Progresses g policy) :
    WellFounded setting.Closer := by
  refine ⟨fun v => ?_⟩
  induction hn : setting.text.size - v.position.bytes using Nat.strong_induction_on
    generalizing v with
  | _ n ih =>
      have hmoved : ∀ w u : Version, w.position = v.position → setting.Reached none u →
          w.position.bytes < u.position.bytes → Acc setting.Closer u := by
        intro w u hw hu hlt
        have hle := bytes_le_of_reached h.wellFormed hu
        rw [hw] at hlt
        exact ih _ (by omega) u rfl
      have htoken : ∀ (t : Subtree) (states : List StateId),
          Acc (fun after before => setting.table.ReducesOn t.symbol before after) states →
          ∀ w : Version, w.position = v.position → w.lookahead = some t →
            w.stack.structuralStates = states → Acc setting.Closer w := by
        intro t states hacc
        induction hacc with
        | intro states _ ih =>
            intro w hw ht hstates
            refine ⟨w, fun u hu => ?_⟩
            obtain ⟨_, hu, hnearer⟩ := hu
            cases hnearer with
            | moved hlt => exact hmoved w u hw hu hlt
            | fetched t' hposition hnone => 
                rw [ht] at hnone
                cases hnone
            | reduced t' hposition ht' hu' hreduces =>
                rw [ht, Option.some.injEq] at ht'
                subst ht'
                rw [hstates] at hreduces
                exact ih _ hreduces u (hposition.trans hw) hu' rfl
      refine ⟨v, fun w hw => ?_⟩
      obtain ⟨_, hw, hnearer⟩ := hw
      cases hnearer with
      | moved hlt => exact hmoved v w rfl hw hlt
      | fetched t hposition _ ht => exact htoken t _ (h.acc_reducesOn hw ht) w hposition ht rfl
      | reduced t hposition _ ht => exact htoken t _ (h.acc_reducesOn hw ht) w hposition ht rfl

/-! ### Tokens -/

/-- The lookahead of a fresh parse was lexed where its version stands. -/
theorem lexes_of_reached (hv : setting.Reached none v) :
    ∀ t ∈ v.lookahead, ∃ mode, setting.Lexes v.position.bytes mode t := by
  induction hv with
  | start => exact fun t ht => absurd ht (Option.not_mem_none t)
  | move v v' _ hmove ih =>
      cases hmove with
      | lex mode tree hlex =>
          intro t ht
          cases ht
          exact ⟨mode, hlex⟩
      | skip lookahead relexed more popped skipped id mode _ _ _ hrelexed =>
          intro t ht
          cases ht
          exact ⟨mode, hrelexed⟩
      | reduce => exact ih
      | breakPending => exact ih
      | missing => exact ih
      | reuse start _ _ hstart => cases hstart
      | enter => exact fun t ht => absurd ht (Option.not_mem_none t)
      | shift => exact fun t ht => absurd ht (Option.not_mem_none t)
      | shiftExtra => exact fun t ht => absurd ht (Option.not_mem_none t)
      | shiftReused => exact fun t ht => absurd ht (Option.not_mem_none t)
      | skipLookahead => exact fun t ht => absurd ht (Option.not_mem_none t)

/-- Only the end of input is empty. -/
theorem total_pos_of_reached (hsetting : setting.WellFormed) (hv : setting.Reached none v)
    (ht : v.lookahead = some t) (hne : t.symbol ≠ Symbol.eof) : 0 < t.total.bytes := by
  obtain ⟨mode, hlex⟩ := lexes_of_reached hv t ht
  exact (bytes_total_of_lexes hsetting (bytes_le_of_reached hsetting hv) hlex).2 hne

theorem Progresses.ne_eof_of_extra (h : setting.Progresses g policy) (hv : setting.Reached none v)
    (ht : v.lookahead = some t) (hextra : t.flags.extra = true) : t.symbol ≠ Symbol.eof := by
  obtain ⟨mode, id, rfl⟩ := lexes_of_reached hv t ht
  intro heof
  have hsymbol : (setting.language.lex setting.text v.position.bytes mode).symbol = Symbol.eof := heof
  have hflag : (setting.table.symbolInfo
      (setting.language.lex setting.text v.position.bytes mode).symbol).extra = true := hextra
  rw [hsymbol, h.eof] at hflag
  cases hflag

/-- A token has no other actions than these. -/
theorem CompiledFrom.action_of_lexes (h : setting.CompiledFrom g policy) {position : Nat}
    {mode : LexMode} (hlex : setting.Lexes position mode t) {state : StateId} {action : Action}
    (haction : action ∈ setting.table.actionList state t.symbol) :
    (∃ next, action = .shift next ∧ t.symbol ≠ Symbol.eof) ∨ (∃ p, action = .reduce p) ∨
      action = .accept := by
  obtain ⟨hfrom, _⟩ := Table.compile_eq_ok h.table
  obtain ⟨id, rfl⟩ := hlex
  have htoken := h.tokens position mode
  cases Table.offers_of_mem_actionList h.grammar h.table h.fit htoken.has haction with
  | shift target _ hstep =>
      exact .inl ⟨_, rfl, (Table.extra_of_step? h.grammar hfrom h.apart hstep).2.2⟩
  | goto target hnonterminal =>
      rcases htoken with herror | ⟨hterminal, _⟩
      · have hsymbol : (Subtree.ofToken setting.table id
            (setting.language.lex setting.text position mode)).symbol = Symbol.error := herror
        rw [hsymbol] at haction
        cases haction
      · rw [Table.isTerminal, hfrom.terminalCount] at hterminal
        exact absurd (hnonterminal.symm.trans hterminal) Bool.false_ne_true
  | reduce p =>
      rw [Candidates.reduceAction]
      split
      · exact .inr (.inr rfl)
      · exact .inr (.inl ⟨_, rfl⟩)

theorem CompiledFrom.action_of_mem (h : setting.CompiledFrom g policy)
    (hv : setting.Reached none v) (ht : v.lookahead = some t) {state : StateId} {action : Action}
    (haction : action ∈ setting.table.actionList state t.symbol) :
    (∃ next, action = .shift next ∧ t.symbol ≠ Symbol.eof) ∨ (∃ p, action = .reduce p) ∨
      action = .accept := by
  obtain ⟨mode, hlex⟩ := lexes_of_reached hv t ht
  exact h.action_of_lexes hlex haction

/-! ### One operation -/

/-- A version with its lookahead, fetched if need be. -/
structure Looks (setting : ParseSetting) (v w : Version) (t : Subtree) : Prop where
  stack : w.stack = v.stack
  position : w.position = v.position
  lookahead : w.lookahead = some t
  before : v.lookahead = none ∨ v.lookahead = some t
  reached : setting.Reached none w

theorem Looks.nearer_of_moved {u : Version} (hw : setting.Looks v w t)
    (hlt : w.position.bytes < u.position.bytes) : u.Nearer setting.table v := by
  rw [hw.position] at hlt
  exact .moved u v hlt

theorem Progresses.nearer_shift (h : setting.Progresses g policy) (hw : setting.Looks v w t)
    (hne : t.symbol ≠ Symbol.eof) (state : StateId) (pending : Bool) :
    (shiftVersion w state t pending).Nearer setting.table v := by
  have hpos := total_pos_of_reached h.wellFormed hw.reached hw.lookahead hne
  refine hw.nearer_of_moved ?_
  rw [shiftVersion, Length.bytes_add]
  omega

theorem Progresses.nearer_reduce (h : setting.Progresses g policy) (hw : setting.Looks v w t)
    {p : ProductionId} (haction : .reduce p ∈ setting.table.actionList w.stack.state t.symbol)
    (forked : Bool) (id : Nat) :
    { w with stack := (setting.reduceStack forked p id w.stack).1 }.Nearer setting.table v := by
  rcases hw.before with hnone | hsome
  · exact .fetched _ v t hw.position hnone hw.lookahead
  · refine .reduced _ v t hw.position hsome hw.lookahead ?_
    have hpath := h.compiled.onPath_of_fresh hw.reached
    have hleaf := (isFresh_of_reached hw.reached).lookahead t hw.lookahead
    obtain ⟨hfrom, _⟩ := Table.compile_eq_ok h.compiled.table
    obtain ⟨rest, hstates⟩ := hpath.stack.exists_structuralStates
    rw [← hw.stack]
    exact ⟨_, rest, p, hstates, haction, reduceStates_structuralStates h.compiled.grammar hfrom
      hpath.stack (h.compiled.reduces hpath (.token t hw.lookahead hleaf) haction) forked id⟩

/-- The versions with which an operation replaces one. -/
def Replaces (setting : ParseSetting) (v : Version) (rest result : List Version) : Prop :=
  ∃ ws : List Version, result.Perm (ws ++ rest) ∧ ∀ w ∈ ws, w.Nearer setting.table v

theorem cons_eraseIdx_perm {vs : List Version} (hv : vs[i]? = some v) :
    (v :: vs.eraseIdx i).Perm vs := by
  obtain ⟨hlt, rfl⟩ := List.getElem?_eq_some_iff.1 hv
  exact List.getElem_cons_eraseIdx_perm hlt

theorem versions_set_perm {vs : List Version} (hv : vs[i]? = some v) (w : Version) :
    (vs.set i w).Perm ([w] ++ vs.eraseIdx i) := by
  obtain ⟨hlt, _⟩ := List.getElem?_eq_some_iff.1 hv
  exact List.set_perm_cons_eraseIdx hlt w

theorem Progresses.replaces_apply (h : setting.Progresses g policy) (hw : setting.Looks v w t)
    (hi : s.versions[i]? = some w) {action : Action}
    (haction : action ∈ setting.table.actionList w.stack.state t.symbol) :
    setting.Replaces v (s.versions.eraseIdx i) (setting.apply s i t action).versions := by
  rcases h.compiled.action_of_mem hw.reached hw.lookahead haction with
    ⟨next, rfl, hne⟩ | ⟨p, rfl⟩ | rfl
  · rw [apply, shift, hi]
    refine ⟨_, versions_set_perm hi _, fun u hu => ?_⟩
    rw [List.mem_singleton.1 hu]
    exact h.nearer_shift hw hne next false
  · rw [apply, reduce, hi]
    refine ⟨_, versions_set_perm hi _, fun u hu => ?_⟩
    rw [List.mem_singleton.1 hu]
    exact h.nearer_reduce hw haction _ _
  · rw [apply, accept, hi]
    exact ⟨[], List.Perm.refl _, fun u hu => absurd hu List.not_mem_nil⟩

theorem Progresses.replaces_fork (h : setting.Progresses g policy) (hw : setting.Looks v w t)
    {actions : List Action}
    (hactions : ∀ action ∈ actions, action ∈ setting.table.actionList w.stack.state t.symbol) :
    setting.Replaces v s.versions (setting.fork w t s actions).versions := by
  have hnone : setting.Replaces v s.versions s.versions :=
    ⟨[], List.Perm.refl _, fun u hu => absurd hu List.not_mem_nil⟩
  induction actions generalizing s with
  | nil => exact hnone
  | cons action actions ih =>
      obtain ⟨haction, hactions⟩ := List.forall_mem_cons.1 hactions
      rw [fork]
      split
      · exact hnone
      · have hlast : { s with versions := s.versions ++ [w] }.versions[s.versions.length]? = some w := by
          simp
        obtain ⟨ws, hws, hnearer⟩ := h.replaces_apply hw hlast haction
        obtain ⟨us, hus, hnearer'⟩ := ih hactions ⟨[], List.Perm.refl _, fun u hu =>
          absurd hu List.not_mem_nil⟩
        have herase : (s.versions ++ [w]).eraseIdx s.versions.length = s.versions := by
          simp [List.eraseIdx_append_of_length_le]
        rw [herase] at hws
        refine ⟨us ++ ws, hus.trans ?_, fun u hu => (List.mem_append.1 hu).elim (hnearer' u) (hnearer u)⟩
        rw [List.append_assoc]
        exact hws.append_left us

theorem Progresses.replaces_actions (h : setting.Progresses g policy)
    (hs : s.Sound (setting.reaching none)) (hw : setting.Looks v w t)
    (hi : s.versions[i]? = some w) {action : Action} {others : List Action}
    (hactions : setting.table.actionList w.stack.state t.symbol = action :: others)
    (f : ParseStats → ParseStats) :
    setting.Replaces v (s.versions.eraseIdx i)
      (setting.apply (setting.fork w t (s.count f) others) i t action).versions := by
  have hmem : ∀ other ∈ others, other ∈ setting.table.actionList w.stack.state t.symbol := by
    intro other hother
    rw [hactions]
    exact List.mem_cons_of_mem action hother
  have hleaf := (isFresh_of_reached hw.reached).lookahead t hw.lookahead
  obtain ⟨hlt, _⟩ := List.getElem?_eq_some_iff.1 hi
  obtain ⟨_, hkept⟩ := fork_spec (hs.count f) hw.reached hw.lookahead hleaf hmem hlt
  have hi' := hkept.trans hi
  obtain ⟨us, hus, hnearer⟩ := h.replaces_fork (s := s.count f) hw hmem
  obtain ⟨ws, hws, hnearer'⟩ := h.replaces_apply hw hi'
    (by rw [hactions]; exact List.mem_cons_self)
  have hrest : ((setting.fork w t (s.count f) others).versions.eraseIdx i).Perm
      (us ++ s.versions.eraseIdx i) := by
    refine (List.perm_cons w).1 ?_
    calc List.Perm (w :: (setting.fork w t (s.count f) others).versions.eraseIdx i)
          (setting.fork w t (s.count f) others).versions := cons_eraseIdx_perm hi'
      List.Perm _ (us ++ s.versions) := hus
      List.Perm _ (us ++ w :: s.versions.eraseIdx i) := (cons_eraseIdx_perm hi).symm.append_left us
      List.Perm _ (w :: (us ++ s.versions.eraseIdx i)) := List.perm_middle
  refine ⟨ws ++ us, hws.trans ?_, fun u hu => (List.mem_append.1 hu).elim (hnearer' u) (hnearer u)⟩
  rw [List.append_assoc]
  exact hrest.append_left ws

/-- What an operation does to a version beside others if it does not stop the parse: it begins a
recovery after so many before, or it puts nearer versions in the place of the version. -/
def Advances (setting : ParseSetting) (before : Nat) (v : Version) (rest : List Version)
    (s : ParseState) : Prop :=
  (s.recoveries = before + 1 ∧ s.recoveries ≤ setting.options.maxRecoveryAttempts) ∨
    (s.recoveries = before ∧ setting.Replaces v rest s.versions)

theorem advances_handleError (hs : s.Sound (setting.reaching none))
    (hw : s.versions[i]? = some w) (hnone : (setting.handleError s i w t).2 = none) :
    setting.Advances s.recoveries v (s.versions.eraseIdx i) (setting.handleError s i w t).1 := by
  have hsettled := (isFresh_of_reached (hs.of_getElem? hw)).settled
  rw [handleError, breakPending_of_settled hsettled] at hnone ⊢
  simp only at hnone ⊢
  split at hnone
  · rename_i hothers
    rw [if_pos hothers]
    exact .inr ⟨rfl, [], List.Perm.refl _, fun u hu => absurd hu List.not_mem_nil⟩
  · rename_i hsole
    rw [if_neg hsole]
    rw [if_neg Bool.false_ne_true] at hnone ⊢
    split at hnone
    · cases hnone
    · rename_i hfew
      rw [if_neg hfew]
      have hkept : (setting.recover { s.setVersion i w with
          recoveries := s.recoveries + 1
          stats := { s.stats with recoveries := s.stats.recoveries + 1 } } i w t).recoveries
            = s.recoveries + 1 := congrArg Prod.fst (attempts_recover w t)
      exact .inl ⟨hkept, le_of_eq_of_le hkept (Nat.le_of_not_lt hfew)⟩

theorem Progresses.advances (h : setting.Progresses g policy)
    (hs : s.Sound (setting.reaching none)) (hv : s.versions[i]? = some v)
    (hnone : (setting.advance s i).2 = none) :
    setting.Advances s.recoveries v (s.versions.eraseIdx i) (setting.advance s i).1 := by
  obtain ⟨hsound, hset⟩ := sound_looking hs hv
  have hbefore : v.lookahead = none ∨ v.lookahead = some (setting.fetch s v).1 := by
    rw [fetch]
    cases v.lookahead with
    | none => exact .inl rfl
    | some t => exact .inr rfl
  have hw : setting.Looks v { v with lookahead := some (setting.fetch s v).1 }
      (setting.fetch s v).1 := ⟨rfl, rfl, rfl, hbefore, hsound.of_getElem? hset⟩
  have hleaf := (isFresh_of_reached hw.reached).lookahead _ rfl
  have hsame : (setting.looking s i v).recoveries = s.recoveries :=
    congrArg Prod.fst (attempts_fetch v)
  have hoperation := operation_advance setting hv
  rw [← eraseIdx_looking hs hv, ← hsame]
  generalize setting.looking s i v = s₁ at *
  generalize (setting.fetch s v).1 = t at *
  generalize setting.advance s i = result at *
  cases hoperation with
  | reused hnode =>
      rw [hleaf] at hnode
      cases hnode
  | extra _ _ hextra =>
      refine .inr ⟨congrArg Prod.fst (attempts_shift _ _), ?_⟩
      rw [shift, hset]
      refine ⟨_, versions_set_perm hset _, fun u hu => ?_⟩
      rw [List.mem_singleton.1 hu]
      exact h.nearer_shift hw (h.ne_eof_of_extra hw.reached hw.lookahead hextra) _ false
  | error => exact advances_handleError hsound hset hnone
  | actions ambigs action others _ hactions =>
      exact .inr ⟨congrArg Prod.fst ((attempts_apply _ _).trans (attempts_fork _ _ _)),
        h.replaces_actions hsound hw hset hactions _⟩

/-! ### Runs -/

/-- The run comes to an end by itself after so many operations, whatever the limit. -/
def EndsWithin (setting : ParseSetting) (n : Nat) (s : ParseState) : Prop :=
  ∀ limit, n ≤ limit → setting.run limit s = setting.run n s ∧
    (setting.run limit s).1.status ≠ .cancelled

/-- What is left to do in a parse: the recoveries that may still begin, and then the versions. -/
def remaining (setting : ParseSetting) (s : ParseState) : Nat × Multiset Version :=
  (setting.options.maxRecoveryAttempts - s.recoveries, (s.versions : Multiset Version))

/-- There is less to do when a recovery has begun, or when versions have been replaced by nearer ones
or dropped. -/
def Less (setting : ParseSetting) : Nat × Multiset Version → Nat × Multiset Version → Prop :=
  Prod.Lex (· < ·) (TransGen (CutExpand setting.Closer))

theorem Progresses.wellFounded_less (h : setting.Progresses g policy) : WellFounded setting.Less :=
  (Nat.lt_wfRel.wf).prod_lex h.wellFounded_closer.cutExpand.transGen

theorem Replaces.cutExpand {vs result : List Version} (hv : vs[i]? = some v)
    (h : setting.Replaces v (vs.eraseIdx i) result) (hreached : setting.Reached none v)
    (hall : ∀ w ∈ result, setting.Reached none w) :
    CutExpand setting.Closer (result : Multiset Version) (vs : Multiset Version) := by
  obtain ⟨ws, hperm, hnearer⟩ := h
  refine ⟨ws, v, fun w hw => ?_, ?_⟩
  · have hmem := Multiset.mem_coe.1 hw
    exact ⟨hreached, hall w (hperm.symm.subset (List.mem_append_left _ hmem)), hnearer w hmem⟩
  · rw [Multiset.coe_eq_coe.2 hperm, ← Multiset.coe_eq_coe.2 (cons_eraseIdx_perm hv),
      ← Multiset.coe_add, ← Multiset.cons_coe, ← Multiset.singleton_add, add_comm,
      add_comm (ws : Multiset Version), add_assoc]

/-- An operation that does not stop the parse leaves less to do. -/
theorem Advances.less {s' : ParseState} (hs : s.Sound (setting.reaching none))
    (hs' : s'.Sound (setting.reaching none)) (hv : s.versions[i]? = some v)
    (h : setting.Advances s.recoveries v (s.versions.eraseIdx i) s') :
    setting.Less (setting.remaining { s' with
      versions := Version.condense setting.options.maxVersions s'.versions })
      (setting.remaining s) := by
  rcases h with ⟨hone, hmax⟩ | ⟨hsame, hreplaces⟩
  · refine .left _ _ ?_
    simp only
    omega
  · rw [remaining, remaining, hsame]
    refine .right _ (TransGen.trans_right (cutExpand_of_le ?_)
      (.single (hreplaces.cutExpand hv (hs.of_getElem? hv) hs'.versions)))
    exact Multiset.coe_le.2 (Version.condense_subperm _ _)

section Run

variable (hcancelled : setting.cancelled = false)

include hcancelled

theorem run_of_done (hnext : s.nextVersion? = none) (limit : Nat) :
    setting.run (limit + 1) s = setting.finish s := by
  rw [run, hcancelled, if_neg Bool.false_ne_true, hnext]

theorem run_of_stopped (hnext : s.nextVersion? = some i) {status : ParseStatus}
    (hstatus : (setting.advance s i).2 = some status) (limit : Nat) :
    setting.run (limit + 1) s = setting.abort (setting.advance s i).1 status := by
  rw [run, hcancelled, if_neg Bool.false_ne_true, hnext]
  simp only
  generalize setting.advance s i = result at hstatus ⊢
  obtain ⟨s', status'⟩ := result
  cases hstatus
  rfl

theorem run_of_goes_on (hnext : s.nextVersion? = some i) (hstatus : (setting.advance s i).2 = none)
    (limit : Nat) : setting.run (limit + 1) s = setting.run limit { (setting.advance s i).1 with
      versions := Version.condense setting.options.maxVersions (setting.advance s i).1.versions } := by
  rw [run, hcancelled, if_neg Bool.false_ne_true, hnext]
  simp only
  generalize setting.advance s i = result at hstatus ⊢
  obtain ⟨s', status'⟩ := result
  cases hstatus
  rfl

/-- A run that is not cancelled from outside comes to an end. -/
theorem Progresses.exists_endsWithin (h : setting.Progresses g policy)
    (hs : s.Sound (setting.reaching none)) : ∃ n, setting.EndsWithin n s := by
  induction hm : setting.remaining s using h.wellFounded_less.induction generalizing s with
  | _ m ih =>
      cases hnext : s.nextVersion? with
      | none =>
          refine ⟨1, fun limit hlimit => ?_⟩
          obtain ⟨limit, rfl⟩ := Nat.exists_eq_add_of_le' hlimit
          rw [run_of_done hcancelled hnext, run_of_done hcancelled hnext 0]
          exact ⟨rfl, ParseStatus.noConfusion⟩
      | some i =>
          obtain ⟨v, hv⟩ := s.exists_of_nextVersion? hnext
          have hsound := sound_advance hs i
          cases hstatus : (setting.advance s i).2 with
          | some status =>
              refine ⟨1, fun limit hlimit => ?_⟩
              obtain ⟨limit, rfl⟩ := Nat.exists_eq_add_of_le' hlimit
              rw [run_of_stopped hcancelled hnext hstatus,
                run_of_stopped hcancelled hnext hstatus 0, status_advance hstatus]
              exact ⟨rfl, ParseStatus.noConfusion⟩
          | none =>
              have hless := (h.advances hs hv hstatus).less hs hsound hv
              rw [hm] at hless
              obtain ⟨n, hn⟩ := ih _ hless hsound.condense rfl
              refine ⟨n + 1, fun limit hlimit => ?_⟩
              obtain ⟨left, rfl⟩ := Nat.exists_eq_add_of_le' hlimit
              rw [← Nat.add_assoc, run_of_goes_on hcancelled hnext hstatus,
                run_of_goes_on hcancelled hnext hstatus n]
              exact hn (left + n) (Nat.le_add_left n left)

end Run

/-! ### Cycles -/

/-- A sole version is reduced where there is nothing else to do. -/
theorem advance_of_reduces (hv : s.versions = [v]) (ht : v.lookahead = some t)
    (hleaf : t.isLeaf = true) {p : ProductionId}
    (haction : setting.table.actionList v.stack.state t.symbol = [.reduce p]) :
    ∃ forked id, (setting.advance s 0).2 = none ∧ (setting.advance s 0).1.versions
      = [{ v with stack := (setting.reduceStack forked p id v.stack).1 }] := by
  have hself : { v with lookahead := some t } = v := by rw [← ht]
  have hfirst : s.versions[0]? = some v := by rw [hv]; rfl
  have hset : (s.setVersion 0 v).versions = [v] := by
    rw [ParseState.setVersion, hv]
    rfl
  have hadvance : setting.advance s 0 = (setting.reduce (s.setVersion 0 v) 0 p, none) := by
    rw [advance, hfirst]
    simp only [fetch, ht, hself, haction, hleaf, Bool.not_true, Bool.false_eq_true, if_false]
    rfl
  refine ⟨(s.setVersion 0 v).isForked, (s.setVersion 0 v).nextId, congrArg Prod.snd hadvance, ?_⟩
  rw [hadvance, reduce, hset]
  simp only [List.getElem?_cons_zero]
  rw [ParseState.count, ParseState.setVersion]
  simp only [List.set_cons_zero]

/-- A parse that comes to states from which reductions go round goes on until it is stopped. -/
theorem CompiledFrom.status_run_of_cycles (h : setting.CompiledFrom g policy)
    (hmax : 0 < setting.options.maxVersions) {P : List StateId → Prop}
    (hcycles : setting.table.Cycles t.symbol P) (hs : s.Sound (setting.reaching none))
    (hv : s.versions = [v]) (ht : v.lookahead = some t) (hstates : P v.stack.structuralStates)
    (limit : Nat) : (setting.run limit s).1.status = .cancelled := by
  obtain ⟨hfrom, _⟩ := Table.compile_eq_ok h.table
  induction limit generalizing s v with
  | zero => rfl
  | succ limit ih =>
      cases hcancelled : setting.cancelled with
      | true =>
          rw [run, if_pos hcancelled]
          rfl
      | false =>
          have hreached : setting.Reached none v := hs.versions v (by simp [hv])
          have hpath := h.onPath_of_fresh hreached
          have hleaf := (isFresh_of_reached hreached).lookahead t ht
          obtain ⟨top, rest, p, after, hsplit, haction, hreduces, hafter⟩ := hcycles _ hstates
          obtain rfl : v.stack.state = top := by
            obtain ⟨others, hothers⟩ := hpath.stack.exists_structuralStates
            rw [hsplit] at hothers
            exact (List.cons.inj hothers).1.symm
          have hreduced := reduceStates_structuralStates h.grammar hfrom hpath.stack
            (h.reduces hpath (.token t ht hleaf) (by rw [haction]; exact List.mem_singleton_self _))
          obtain ⟨forked, id, hstatus, hversions⟩ := advance_of_reduces hv ht hleaf haction
          have hnext : s.nextVersion? = some 0 := by rw [ParseState.nextVersion?, hv]; rfl
          rw [run_of_goes_on hcancelled hnext hstatus]
          refine ih (sound_advance hs 0).condense (v := { v with
            stack := (setting.reduceStack forked p id v.stack).1 }) ?_ ht ?_
          · simp only [hversions, Version.condense_singleton hmax]
          · have hsame := hreduced forked id
            rw [hreduces, Option.some.injEq] at hsame
            rwa [← hsame]

/-- A run that comes to a state from which it is stopped at every limit is so from its start. -/
theorem status_run_of_passes (hcancelled : setting.cancelled = false) {start : ParseState}
    (h : setting.Passes start s) (hs : ∀ limit, (setting.run limit s).1.status = .cancelled) (limit : Nat) :
    (setting.run limit start).1.status = .cancelled := by
  induction h generalizing limit with
  | start => exact hs limit
  | next s i _ hnext hstatus ih =>
      refine ih (fun limit => ?_) limit
      cases limit with
      | zero => rfl
      | succ limit =>
          rw [run_of_goes_on hcancelled hnext hstatus]
          exact hs limit

end ParseSetting

/-! ### Parsers -/

variable {d : GrammarDef} {policy : ConflictPolicy} {l : Language} {scanner : Option ExternalScanner}
  {number : Nat} {p : Parser}

/-- A parse of a text by a grammar without cycles and hidden left recursion comes to an end. -/
theorem Parser.exists_endsWithin_of_acyclic (hl : Language.load d policy = .ok l)
    (hfit : l.table.EntriesFit) (hapart : l.table.ExtrasApart) {g : Grammar} (hg : Grammar.load d = .ok g)
    (hacyclic : g.Acyclic) (hscanner : ∀ x ∈ scanner, x.ReadsForward)
    (hp : p.language = { l with scanner := scanner, id := number })
    (hbases : p.bases = RepetitionBases.ofTable l.table) (hcancelled : p.cancelled = false)
    (text : ByteArray) (id : Nat) :
    ∃ n, (p.setting text).EndsWithin n (.start p.language.table.startState none id) := by
  have hcompiled := Parser.setting_compiledFrom_of_load hl hfit hapart hp hbases hg text
  obtain ⟨hfrom, _⟩ := Table.compile_eq_ok hcompiled.table
  have hprogresses : (p.setting text).Progresses g policy := by
    refine ⟨Parser.setting_wellFormed hl hscanner hp text, hcompiled, ?_,
      Table.reductionsEnd_of_acyclic hcompiled.grammar hacyclic hcompiled.table hcompiled.fit⟩
    rw [Table.symbolInfo, if_neg (by decide), hfrom.symbols]
    exact Grammar.extra_eof_of_load hg
  exact hprogresses.exists_endsWithin hcancelled (ParseSetting.sound_start none id)

theorem acyclic_optionalToken : Grammar.optionalToken.Acyclic :=
  Grammar.acyclic_of_rank (fun s => if s = ⟨1⟩ then 0 else if s = ⟨3⟩ then 1 else 2)
    (by decide)

/-- The text is no token of the grammar, so that the parse has to recover before it ends. -/
theorem endsWithin_optionalToken : ∃ l, Language.load .optionalToken .strict = .ok l ∧
    ∃ n, ((Parser.ofLanguage { l with scanner := none, id := 1 }).setting "yy".toUTF8).EndsWithin n
      (.start l.table.startState none 0) := by
  obtain ⟨t, ht, _⟩ := exists_compile_optionalToken
  obtain ⟨l, hl, rfl⟩ := Language.exists_load load_optionalToken ht (by decide +kernel)
  obtain ⟨hfit, hapart⟩ := apart_optionalToken ht
  have hnone : ∀ x ∈ (none : Option ExternalScanner), x.ReadsForward := by
    intro x hx
    cases hx
  exact ⟨l, hl, Parser.exists_endsWithin_of_acyclic hl hfit hapart load_optionalToken
    acyclic_optionalToken hnone rfl rfl rfl "yy".toUTF8 0⟩

/-! ### A cycle of one reduction -/

open KernelFollows (states)

/-- A symbol that stands for itself, which weighs more than to accept it. -/
def GrammarDef.circular : GrammarDef :=
  { name := "circular"
    rules := [("a", .choice [.ranked 1 none (.symbol "a"), .literal "x"])]
    extras := some [] }

def Grammar.circular : Grammar :=
  { name := "circular"
    symbols := #[⟨"end", .terminal, false, false, false⟩, ⟨"x", .terminal, true, false, false⟩,
      ⟨"start'", .auxiliary, false, false, false⟩, ⟨"a", .nonterminal, true, true, false⟩]
    terminalCount := 2
    start := ⟨3⟩
    productions := #[⟨⟨2⟩, #[{ symbol := ⟨3⟩ }], none, 0⟩,
      ⟨⟨3⟩, #[{ symbol := ⟨3⟩, precedence := some ⟨1, none⟩ }], some ⟨1, none⟩, 0⟩,
      ⟨⟨3⟩, #[{ symbol := ⟨1⟩ }], none, 0⟩]
    fields := #[]
    tokens := #[⟨⟨1⟩, "x", true⟩]
    skips := []
    extras := []
    externals := #[]
    word := none
    keywords := []
    conflicts := []
    tokenPrecedence := []
    auxOrigin := []
    warnings := [] }

theorem load_circular : Grammar.load .circular = .ok .circular := by
  cbv

theorem states_circular : states Grammar.circular
    = ⟨#[[⟨0, 0⟩], [⟨2, 1⟩], [⟨0, 1⟩, ⟨1, 1⟩]], #[[(⟨1⟩, 1), (⟨3⟩, 2)], [], []]⟩ := by
  have hmoves₀ : Lr0.moves .circular Grammar.circular.productionsByLhs [⟨0, 0⟩]
      = [(⟨1⟩, [⟨2, 1⟩]), (⟨3⟩, [⟨0, 1⟩, ⟨1, 1⟩])] := by decide
  have hmoves₁ : Lr0.moves .circular Grammar.circular.productionsByLhs [⟨2, 1⟩] = [] := by decide
  have hmoves₂ : Lr0.moves .circular Grammar.circular.productionsByLhs [⟨0, 1⟩, ⟨1, 1⟩] = [] := by
    decide
  have hcount : Lr0.itemCount .circular = 6 := by decide
  simp [states, Lr0.ofGrammar, hmoves₀, hmoves₁, hmoves₂, hcount, Lr0.Builder.run,
    Lr0.startKernel, Lr0.Builder.addTransitions, Lr0.Builder.addState]

def Table.circular : Table :=
  { name := "circular"
    symbols := Grammar.circular.symbols
    terminalCount := 2
    startSymbol := ⟨3⟩
    fields := #[]
    productions := Grammar.circular.productions.map Compile.productionInfo
    stateCount := 3
    actions := #[.error, .shift 1, .error, .goto 2, .reduce 2, .error, .error, .error,
      .reduce 1, .error, .error, .error]
    ambigs := #[]
    fragile := [(2, 0), (2, 1)]
    breakdown := []
    lexModes := #[#[⟨0⟩, ⟨1⟩], #[⟨1⟩], #[⟨0⟩]]
    stateModes := #[1, 2, 2]
    lexical := { tokens := #[⟨⟨1⟩, "x", true⟩] }
    extras := #[]
    externals := #[]
    resolutions := #[⟨2, ⟨0⟩, .reduce 1, [.accept], .precedence⟩]
    kernels := #[#[⟨0, 0⟩], #[⟨2, 1⟩], #[⟨0, 1⟩, ⟨1, 1⟩]]
    startState := 0 }

theorem compile_circular : Table.compile .circular .strict = .ok .circular := by
  have hbuilt : (match Compile.buildRows (LookaheadTables.ofGrammar .circular)
      (states .circular) .strict with
    | .ok rows => rows.actions == Table.circular.actions && rows.ambigs == #[] &&
        rows.fragile == [(2, 1), (2, 0)] && rows.breakdown == [] &&
        rows.resolutions == Table.circular.resolutions.toList
    | .error _ => false) = true := by
    rw [states_circular]
    decide +kernel
  have hmodes : Compile.lexModes .circular Table.circular.actions 3
      = (Table.circular.lexModes, Table.circular.stateModes) := by
    simp +decide [Compile.lexModes, Grammar.circular, List.range_succ, Table.circular,
      SymbolSet.ofList, Symbol.ofIndex, Symbol.index]
  have hsorted : Compile.sortFragile [(2, 1), (2, 0)] = Table.circular.fragile := by cbv
  split at hbuilt
  · rename_i rows hrows
    simp only [Bool.and_eq_true, beq_iff_eq] at hbuilt
    obtain ⟨⟨⟨⟨hactions, hambigs⟩, hfragile⟩, hbreakdown⟩, hresolutions⟩ := hbuilt
    have hstates : Lr0.ofGrammar .circular = _ := states_circular
    rw [Table.compile]
    simp only [hrows, bind, Except.bind, hactions, hambigs, hfragile, hbreakdown, hresolutions, hsorted]
    rw [hstates, show Array.size #[[(⟨0, 0⟩ : Item)], [⟨2, 1⟩], [⟨0, 1⟩, ⟨1, 1⟩]] = 3 from rfl, hmodes]
    refine congrArg Except.ok ?_
    decide +kernel
  · cases hbuilt

def Language.circular : Language where
  table := .circular
  lexer :=
    { automaton := Pattern.Automaton.ofExprs [.byte (Pattern.ByteSet.singleton 120)]
      patterns := #[.token ⟨1⟩ true]
      terminalCount := 2
      valid := #[SymbolSet.ofList [⟨0⟩, ⟨1⟩], SymbolSet.ofList [⟨1⟩], SymbolSet.ofList [⟨0⟩]]
      word := none
      keywords := {}
      externals := #[] }

theorem Language.loads_circular : Language.load .circular .strict = .ok .circular := by
  have hlexer : Lexer.ofTable .circular = .ok Language.circular.lexer := by
    have hsources : Table.circular.lexical.tokens.toList.map (·.pattern) ++
        Table.circular.lexical.skips.toList = ["x"] := rfl
    have hread : ["x"].mapM Pattern.read? = some [.byte (Pattern.ByteSet.singleton 120)] := by
      cbv
    rw [Lexer.ofTable]
    simp only [hsources, hread]
    simp [Language.circular, Table.circular, Lexer.wordPattern]
  rw [load, load_circular]
  change ofGrammar .circular .strict = _
  rw [ofGrammar, compile_circular]
  change ofTable .circular [] = _
  rw [ofTable, hlexer]
  rfl

/-- Behind the token the symbol is reduced to itself until the parse is stopped. -/
theorem status_run_circular : Language.load .circular .strict = .ok .circular ∧ ∀ limit,
    (((Parser.ofLanguage .circular).setting "x".toUTF8).run limit
      (.start Table.circular.startState none 0)).1.status = .cancelled := by
  refine ⟨Language.loads_circular, fun limit => ?_⟩
  let setting := (Parser.ofLanguage .circular).setting "x".toUTF8
  let start : ParseState := .start Table.circular.startState none 0
  let read := setting.after start 0
  let reduced := setting.after read 0
  have hpasses : setting.Passes start reduced :=
    .next read 0 (.next start 0 .start (by decide +kernel) (by decide +kernel)) (by decide +kernel)
      (by decide +kernel)
  obtain ⟨v, hv⟩ : ∃ v, reduced.versions = [v] := List.length_eq_one_iff.1 (by decide +kernel)
  have hstands : ∀ v ∈ reduced.versions, v.stack.structuralStates = [2, 0] ∧
      v.lookahead.map (·.symbol) = some ⟨0⟩ := by
    decide +kernel
  obtain ⟨hstates, hlookahead⟩ := hstands v (by rw [hv]; exact List.mem_singleton_self v)
  obtain ⟨t, ht, hsymbol⟩ := Option.map_eq_some_iff.1 hlookahead
  have hapart : Table.circular.ExtrasApart := by
    change ∀ p ∈ Table.circular.productions, ∀ s ∈ p.rhs, (Table.circular.symbolInfo s).extra = false
    decide +kernel
  have hcompiled := Parser.setting_compiledFrom_of_load (p := Parser.ofLanguage .circular)
    Language.loads_circular ⟨⟨by decide +kernel, by decide +kernel⟩, by decide +kernel⟩ hapart rfl rfl
    load_circular "x".toUTF8
  have hcycles : Table.circular.Cycles t.symbol (· = [2, 0]) := by
    rintro _ rfl
    rw [hsymbol]
    exact ⟨2, [0], 1, [2, 0], rfl, by decide +kernel, by decide +kernel, rfl⟩
  exact ParseSetting.status_run_of_passes rfl hpasses
    (hcompiled.status_run_of_cycles (by decide) hcycles
      (ParseSetting.sound_of_passes (ParseSetting.sound_start none 0) hpasses) hv ht hstates) limit

end IncrementalLR
