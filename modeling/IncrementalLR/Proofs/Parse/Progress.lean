import IncrementalLR.Proofs.Parse.Overtaking
import IncrementalLR.Proofs.Parse.Within

/-!
# Recoveries make progress

The operation that comes next is on the version that is furthest behind. After a recovery the parse
is on its way to a token, or some version is beyond the place of the recovery. From there on the
version at which the next recovery begins, being the only one, is beyond that place. So the places of
recoveries grow, and there are no more of them than there are places in the text: with whatever limits
and strategy, and from whatever old tree that was edited along with the text.
-/

namespace IncrementalLR

namespace ParseState

variable {s : ParseState} {i : Nat} {v : Version} {rest : List Version}

theorem foldl_behind_spec (items : List (Version × Nat)) (best : Nat × Nat) :
    let found := items.foldl (fun (best : Nat × Nat) (w, i) =>
      if w.position.bytes < best.2 then (i + 1, w.position.bytes) else best) best
    (found = best ∨ found.2 < best.2 ∧
      ∃ item ∈ items, found = (item.2 + 1, item.1.position.bytes)) ∧
      ∀ item ∈ items, found.2 ≤ item.1.position.bytes := by
  induction items generalizing best with
  | nil => exact ⟨.inl rfl, nofun⟩
  | cons item items ih =>
      obtain ⟨w, j⟩ := item
      simp only [List.foldl_cons]
      by_cases hlt : w.position.bytes < best.2
      · rw [if_pos hlt]
        obtain ⟨hfound, hall⟩ := ih (j + 1, w.position.bytes)
        rcases hfound with heq | ⟨hless, item, hitem, heq⟩
        · refine ⟨.inr ⟨by rw [heq]; exact hlt, (w, j), List.mem_cons_self, heq⟩,
            List.forall_mem_cons.2 ⟨by rw [heq], hall⟩⟩
        · exact ⟨.inr ⟨hless.trans hlt, item, List.mem_cons_of_mem _ hitem, heq⟩,
            List.forall_mem_cons.2 ⟨Nat.le_of_lt hless, hall⟩⟩
      · rw [if_neg hlt]
        obtain ⟨hfound, hall⟩ := ih best
        rcases hfound with heq | ⟨hless, item, hitem, heq⟩
        · refine ⟨.inl heq, List.forall_mem_cons.2 ⟨?_, hall⟩⟩
          rw [heq]
          exact Nat.le_of_not_lt hlt
        · refine ⟨.inr ⟨hless, item, List.mem_cons_of_mem _ hitem, heq⟩,
            List.forall_mem_cons.2 ⟨?_, hall⟩⟩
          exact (Nat.le_of_lt hless).trans (Nat.le_of_not_lt hlt)

/-- No version is further behind than the one that comes next. -/
theorem nextVersion?_spec (h : s.nextVersion? = some i) : ∃ v, s.versions[i]? = some v ∧
    ∀ w ∈ s.versions, v.position.bytes ≤ w.position.bytes := by
  rw [nextVersion?] at h
  cases hversions : s.versions with
  | nil =>
      rw [hversions] at h
      cases h
  | cons v rest =>
      rw [hversions, Option.some.injEq] at h
      obtain ⟨hfound, hall⟩ := foldl_behind_spec rest.zipIdx (0, v.position.bytes)
      generalize rest.zipIdx.foldl _ (0, v.position.bytes) = found at h hfound hall
      have hrest : ∀ w ∈ rest, found.2 ≤ w.position.bytes := by
        intro w hw
        obtain ⟨j, hj⟩ := List.mem_iff_getElem?.1 hw
        exact hall (w, j) (List.mem_zipIdx_iff_getElem?.2 hj)
      rcases hfound with rfl | ⟨hless, ⟨w, j⟩, hitem, rfl⟩
      · subst h
        exact ⟨v, rfl, List.forall_mem_cons.2 ⟨Nat.le_refl _, hrest⟩⟩
      · subst h
        exact ⟨w, List.mem_zipIdx_iff_getElem?.1 hitem,
          List.forall_mem_cons.2 ⟨Nat.le_of_lt hless, hrest⟩⟩

/-- Of versions at the same place the first one comes next. -/
theorem nextVersion?_of_same {place : Nat} (hversions : s.versions = v :: rest)
    (hsame : ∀ w ∈ v :: rest, w.position.bytes = place) : s.nextVersion? = some 0 := by
  rw [nextVersion?, hversions]
  simp only
  obtain ⟨hfound, _⟩ := foldl_behind_spec rest.zipIdx (0, v.position.bytes)
  rcases hfound with heq | ⟨hless, ⟨w, j⟩, hitem, heq⟩
  · rw [heq]
  · rw [heq] at hless
    have hw : w ∈ rest := List.mem_of_getElem? (List.mem_zipIdx_iff_getElem?.1 hitem)
    rw [hsame v List.mem_cons_self, hsame w (List.mem_cons_of_mem v hw)] at hless
    exact absurd hless (Nat.lt_irrefl place)

end ParseState

namespace ParseSetting

variable {g : Grammar} {policy : ConflictPolicy} {setting : ParseSetting} {old : Option ReuseCursor}
  {start s s' : ParseState} {i place place' : Nat} {v v' w : Version} {t : Subtree}

/-! ### Places -/

theorem bytes_le_of_moves (h : setting.Moves old v v') : v.position.bytes ≤ v'.position.bytes := by
  have hadd : ∀ length : Length, v.position.bytes ≤ (v.position + length).bytes :=
    fun length => Nat.le_add_right _ _
  cases h with
  | lex => exact Nat.le_refl _
  | reuse => exact Nat.le_refl _
  | enter => exact Nat.le_refl _
  | reduce => exact Nat.le_refl _
  | shift lookahead => exact hadd lookahead.total
  | shiftExtra lookahead => exact hadd lookahead.total
  | shiftReused lookahead => exact hadd lookahead.total
  | breakPending => exact Nat.le_refl _
  | missing => exact Nat.le_refl _
  | skip lookahead relexed more popped skipped id =>
      rw [bytes_skipVersion]
      exact Nat.le_add_right _ _
  | skipLookahead lookahead => exact hadd lookahead.total

/-- Versions stay beyond a place. -/
def beyond (setting : ParseSetting) (old : Option ReuseCursor) (place : Nat) :
    setting.Invariant old where
  Holds v := place ≤ v.position.bytes
  Accepts _ := True
  moves hle hmove := hle.trans (bytes_le_of_moves hmove)
  accepts _ _ := trivial

/-- An operation takes no version back. -/
theorem le_bytes_advance (hs : s.Sound (setting.reaching old))
    (hplace : ∀ v ∈ s.versions, place ≤ v.position.bytes) (i : Nat) :
    ∀ v ∈ (setting.advance s i).1.versions, place ≤ v.position.bytes :=
  have hsound : s.Sound (setting.beyond old place) :=
    ⟨hplace, fun _ _ => trivial, hs.cache, hs.reuse, hs.input, hs.alive⟩
  (sound_advance hsound i).versions

/-! ### One operation -/

/-- A state in front of an operation, with no more versions than there may be. -/
structure Fits (setting : ParseSetting) (old : Option ReuseCursor) (s : ParseState) : Prop where
  sound : s.Sound (setting.reaching old)
  length : s.versions.length ≤ max 1 setting.options.maxVersions

/-- What an operation leads to, by whether it begins a recovery. -/
inductive Proceeds (setting : ParseSetting) (s : ParseState) (v : Version) (s' : ParseState) : Prop
  | quiet (hcount : s'.attempts = s.attempts)
      (hleaving : ∀ place, setting.Leaving place s → setting.Leaving place s')
  | recovery (hcount : s'.attempts = (s.attempts.1 + 1, s.attempts.2 + 1))
      (hlt : ∀ place, setting.Leaving place s → place < v.position.bytes)
      (hleaving : setting.Leaving v.position.bytes s')

/-- The operation that comes next begins a recovery, of a version at this place. -/
def BeginsRecovery (setting : ParseSetting) (s : ParseState) (place : Nat) : Prop :=
  ∃ i v, s.nextVersion? = some i ∧ s.versions[i]? = some v ∧ v.position.bytes = place ∧
    (setting.advance s i).1.stats.recoveries ≠ s.stats.recoveries

/-- There are no more recoveries than places up to the last of them, and none follows there. -/
def Counts (setting : ParseSetting) (s : ParseState) : Prop :=
  s.stats.recoveries = 0 ∨
    ∃ place ≤ setting.text.size, s.stats.recoveries ≤ place + 1 ∧ setting.Leaving place s

theorem fits_start (old : Option ReuseCursor) (id : Nat) :
    setting.Fits old (.start setting.table.startState old id) :=
  ⟨sound_start old id, le_max_left _ _⟩

theorem attempts_of_beginsRecovery (hs : s.Sound (setting.reaching old))
    (hbegins : setting.BeginsRecovery s place) : ∃ i v, s.nextVersion? = some i ∧
      s.versions[i]? = some v ∧ v.position.bytes = place ∧
      setting.Attempts old s v (setting.advance s i) := by
  obtain ⟨i, v, hnext, hv, hplace, hcount⟩ := hbegins
  refine ⟨i, v, hnext, hv, hplace, (keeps_or_attempts hs hv).resolve_left fun hkeeps => hcount ?_⟩
  exact congrArg Prod.snd hkeeps.attempts

theorem Counts.recoveries_le (h : setting.Counts s) :
    s.stats.recoveries ≤ setting.text.size + 1 := by
  rcases h with hzero | ⟨place, hplace, hle, _⟩
  · rw [hzero]
    exact Nat.zero_le _
  · exact hle.trans (Nat.succ_le_succ hplace)

/-- A place beyond all that the recoveries have left is beyond their number. -/
theorem Counts.le_of_beyond (h : setting.Counts s)
    (hlt : ∀ place', setting.Leaving place' s → place' < place) : s.stats.recoveries ≤ place := by
  rcases h with hzero | ⟨last, _, hle, hleaving⟩
  · rw [hzero]
    exact Nat.zero_le _
  · exact hle.trans (hlt last hleaving)

section Runs

variable (h : setting.CompiledFrom g policy)
  (hold : ∀ start ∈ old, ∃ root, start = ReuseCursor.ofRoot root ∧ AppliedRoot setting.table root)
  (hwithin : ∀ v, setting.Reached old v → v.Within setting)

include h hold hwithin

/-- An operation on the first of versions on their way to a token. -/
theorem CompiledFrom.leaving_of_before (hs : s.Sound (setting.reaching old)) {main : Version}
    {forks : List Version} (hversions : s.versions = main :: forks)
    (hbefore : setting.BeforeToken place t main forks) (hnext : s.nextVersion? = some i) :
    setting.Leaving place (setting.advance s i).1 ∧
      (setting.advance s i).1.attempts = s.attempts := by
  have hfirst := ParseState.nextVersion?_of_same hversions fun w hw => (hbefore.same w hw).1
  rw [hnext, Option.some.injEq] at hfirst
  subst hfirst
  have hmain : setting.Reached old main :=
    hs.versions main (by rw [hversions]; exact List.mem_cons_self)
  exact h.leaving_advance hold hs hversions hbefore
    ((hwithin main hmain).token t hbefore.consumes.lookahead)

/-- An operation that begins no recovery leaves it so that none begins at the place. -/
theorem CompiledFrom.leaving_of_keeps (hs : s.Sound (setting.reaching old))
    (hleaving : setting.Leaving place s) (hnext : s.nextVersion? = some i)
    (hkeeps : setting.Keeps i s (setting.advance s i).1) :
    setting.Leaving place (setting.advance s i).1 := by
  obtain ⟨v, hv, hleast⟩ := ParseState.nextVersion?_spec hnext
  cases hleaving with
  | closed hclosed =>
      refine .closed fun hnil => hclosed ?_
      have hprefix := hkeeps.accepted
      rw [hnil] at hprefix
      exact List.prefix_nil.1 hprefix
  | beyond hbeyond =>
      obtain ⟨w, hw, hlt⟩ := hbeyond (List.ne_nil_of_mem (List.mem_of_getElem? hv))
      rcases Nat.lt_or_ge place v.position.bytes with hfar | hnear
      · -- all versions are beyond the place, and none comes back
        have hall : ∀ u ∈ (setting.advance s i).1.versions, place + 1 ≤ u.position.bytes :=
          le_bytes_advance hs (fun u hu => hfar.trans_le (hleast u hu)) i
        refine .beyond fun hne => ?_
        obtain ⟨u, hu⟩ := List.exists_mem_of_ne_nil _ hne
        exact ⟨u, hu, hall u hu⟩
      · -- the version that is beyond the place is another one
        obtain ⟨j, hj⟩ := List.mem_iff_getElem?.1 hw
        have hne : j ≠ i := by
          rintro rfl
          rw [hv] at hj
          cases hj
          exact absurd hlt (Nat.not_lt_of_le hnear)
        exact .of_mem (hkeeps.others (List.mem_eraseIdx_iff_getElem?.2 ⟨j, hne, hj⟩)) hlt
  | before t main forks hversions haccepted hbefore =>
      exact (h.leaving_of_before hold hwithin hs hversions hbefore hnext).1

/-- A recovery that begins later begins further on. -/
theorem CompiledFrom.lt_of_attempts (hs : s.Sound (setting.reaching old))
    (hleaving : setting.Leaving place s) (hnext : s.nextVersion? = some i)
    (hattempts : setting.Attempts old s v (setting.advance s i)) : place < v.position.bytes := by
  cases hleaving with
  | closed hclosed => exact absurd hattempts.accepted hclosed
  | beyond hbeyond =>
      rw [hattempts.alone] at hbeyond
      obtain ⟨w, hw, hlt⟩ := hbeyond (List.cons_ne_nil _ _)
      rwa [List.mem_singleton.1 hw] at hlt
  | before t main forks hversions haccepted hbefore =>
      obtain ⟨_, hcount⟩ := h.leaving_of_before hold hwithin hs hversions hbefore hnext
      rw [hattempts.attempts_eq] at hcount
      exact absurd (congrArg Prod.fst hcount) (Nat.succ_ne_self _)

/-- A recovery is the last one at its place. -/
theorem CompiledFrom.leaving_of_attempts {result : ParseState × Option ParseStatus}
    (hattempts : setting.Attempts old s v result) (hstatus : result.2 = none) :
    setting.Leaving v.position.bytes result.1 ∧ result.1.versions.length ≤ 1 := by
  obtain ⟨s', w, t, hs', hw, haccepted, hposition, ht, hleaf, _, rfl | rfl⟩ := hattempts.recovers
  · cases hstatus
  · have hreached : setting.Reached old w :=
      hs'.versions w (by rw [hw]; exact List.mem_singleton_self w)
    have hrecovered :=
      h.recovered_recover hold hs' hw haccepted ht hleaf ((hwithin w hreached).token t ht)
    rw [← hposition]
    cases hrecovered with
    | closed hversions hclosed =>
        rw [hversions]
        exact ⟨.closed hclosed, Nat.zero_le 1⟩
    | moved u hversions hlt =>
        refine ⟨.of_mem (w := u) ?_ hlt, ?_⟩
        · rw [hversions]
          exact List.mem_singleton_self u
        · rw [hversions]
          exact Nat.le_refl 1
    | resumed u x hversions hnothing hsame hconsumes =>
        refine ⟨.before x u [] hversions hnothing ⟨?_, hconsumes, nofun⟩, ?_⟩
        · rw [List.forall_mem_singleton, hsame]
          exact ⟨rfl, hconsumes.lookahead⟩
        · rw [hversions]
          exact Nat.le_refl 1

/-- One operation, with the versions merged behind it. -/
theorem CompiledFrom.proceeds_after (hs : setting.Fits old s) (hnext : s.nextVersion? = some i)
    (hv : s.versions[i]? = some v) (hstatus : (setting.advance s i).2 = none) :
    setting.Fits old (setting.after s i) ∧ setting.Proceeds s v (setting.after s i) := by
  have hsound := (sound_advance hs.sound i).condense
  have hcondensed := (Version.condense_subperm setting.options.maxVersions
    (setting.advance s i).1.versions).length_le
  rcases keeps_or_attempts hs.sound hv with hkeeps | hattempts
  · have hfits : (setting.advance s i).1.versions.length ≤ max 1 setting.options.maxVersions :=
      hkeeps.length.trans (max_le hs.length (le_max_right _ _))
    refine ⟨⟨hsound, hcondensed.trans hfits⟩, .quiet hkeeps.attempts fun place hleaving => ?_⟩
    exact (h.leaving_of_keeps hold hwithin hs.sound hleaving hnext hkeeps).condense hfits
  · obtain ⟨hleaving, hlength⟩ := h.leaving_of_attempts hold hwithin hattempts hstatus
    have hfits := hlength.trans (le_max_left 1 setting.options.maxVersions)
    exact ⟨⟨hsound, hcondensed.trans hfits⟩, .recovery hattempts.attempts_eq
      (fun place hleaving => h.lt_of_attempts hold hwithin hs.sound hleaving hnext hattempts)
      (hleaving.condense hfits)⟩

/-! ### Runs -/

theorem CompiledFrom.fits_of_passes (hstart : setting.Fits old start)
    (hs : setting.Passes start s) : setting.Fits old s := by
  induction hs with
  | start => exact hstart
  | next s i _ hnext hstatus ih =>
      obtain ⟨v, hv, _⟩ := ParseState.nextVersion?_spec hnext
      exact (h.proceeds_after hold hwithin ih hnext hv hstatus).1

/-- Once recoveries are behind a place they stay behind it. -/
theorem CompiledFrom.exists_leaving_of_passes (hstart : setting.Fits old start)
    (hleaving : setting.Leaving place start) (hs : setting.Passes start s) :
    ∃ place' ≥ place, setting.Leaving place' s := by
  induction hs with
  | start => exact ⟨place, Nat.le_refl place, hleaving⟩
  | next s i hs hnext hstatus ih =>
      obtain ⟨place', hle, hleaving'⟩ := ih
      obtain ⟨v, hv, _⟩ := ParseState.nextVersion?_spec hnext
      have hfits := h.fits_of_passes hold hwithin hstart hs
      obtain ⟨_, hproceeds⟩ := h.proceeds_after hold hwithin hfits hnext hv hstatus
      cases hproceeds with
      | quiet _ hkeeps => exact ⟨place', hle, hkeeps place' hleaving'⟩
      | recovery _ hlt hnew =>
          exact ⟨v.position.bytes, hle.trans (Nat.le_of_lt (hlt place' hleaving')), hnew⟩

/-- Of two recoveries of a parse the later one is further on in the text. -/
theorem CompiledFrom.lt_of_beginsRecovery (hstart : setting.Fits old start)
    (hs : setting.Passes start s) (hbegins : setting.BeginsRecovery s place)
    (hnext : s.nextVersion? = some i) (hstatus : (setting.advance s i).2 = none)
    (hs' : setting.Passes (setting.after s i) s') (hbegins' : setting.BeginsRecovery s' place') :
    place < place' := by
  have hfits := h.fits_of_passes hold hwithin hstart hs
  obtain ⟨j, v, hj, hv, rfl, hattempts⟩ := attempts_of_beginsRecovery hfits.sound hbegins
  rw [hnext, Option.some.injEq] at hj
  subst hj
  obtain ⟨hfits', hproceeds⟩ := h.proceeds_after hold hwithin hfits hnext hv hstatus
  have hleaving : setting.Leaving v.position.bytes (setting.after s i) := by
    cases hproceeds with
    | quiet hcount =>
        exact absurd (hattempts.attempts_eq.symm.trans hcount) (by simp [Prod.ext_iff])
    | recovery _ _ hleaving => exact hleaving
  obtain ⟨between, hle, hleaving'⟩ := h.exists_leaving_of_passes hold hwithin hfits' hleaving hs'
  have hsound := (h.fits_of_passes hold hwithin hfits' hs').sound
  obtain ⟨k, w, hk, hw, rfl, hattempts'⟩ := attempts_of_beginsRecovery hsound hbegins'
  exact hle.trans_lt (h.lt_of_attempts hold hwithin hsound hleaving' hk hattempts')

/-! ### Counts -/

/-- An operation that goes on keeps the count of recoveries behind the places in the text. -/
theorem CompiledFrom.counts_after (hs : setting.Fits old s) (hcounts : setting.Counts s)
    (hnext : s.nextVersion? = some i) (hstatus : (setting.advance s i).2 = none) :
    setting.Counts (setting.after s i) := by
  obtain ⟨v, hv, _⟩ := ParseState.nextVersion?_spec hnext
  have hposition := (hwithin v (hs.sound.of_getElem? hv)).position
  obtain ⟨_, hproceeds⟩ := h.proceeds_after hold hwithin hs hnext hv hstatus
  cases hproceeds with
  | quiet hcount hkeeps =>
      have hsame : (setting.after s i).stats.recoveries = s.stats.recoveries :=
        congrArg Prod.snd hcount
      rcases hcounts with hzero | ⟨place, hplace, hle, hleaving⟩
      · exact .inl (hsame.trans hzero)
      · exact .inr ⟨place, hplace, hsame.trans_le hle, hkeeps place hleaving⟩
  | recovery hcount hlt hleaving =>
      refine .inr ⟨v.position.bytes, hposition, ?_, hleaving⟩
      calc (setting.after s i).stats.recoveries
          = s.stats.recoveries + 1 := congrArg Prod.snd hcount
        _ ≤ v.position.bytes + 1 := Nat.succ_le_succ (hcounts.le_of_beyond hlt)

/-- The last operation of a parse may begin one more recovery. -/
theorem CompiledFrom.recoveries_advance_le (hs : setting.Fits old s) (hcounts : setting.Counts s)
    (hnext : s.nextVersion? = some i) :
    (setting.advance s i).1.stats.recoveries ≤ setting.text.size + 1 := by
  obtain ⟨v, hv, _⟩ := ParseState.nextVersion?_spec hnext
  have hposition := (hwithin v (hs.sound.of_getElem? hv)).position
  rcases keeps_or_attempts hs.sound hv with hkeeps | hattempts
  · have hsame : (setting.advance s i).1.stats.recoveries = s.stats.recoveries :=
      congrArg Prod.snd hkeeps.attempts
    exact hsame.trans_le hcounts.recoveries_le
  · have hlt : ∀ place, setting.Leaving place s → place < v.position.bytes :=
      fun place hleaving => h.lt_of_attempts hold hwithin hs.sound hleaving hnext hattempts
    calc (setting.advance s i).1.stats.recoveries
        = s.stats.recoveries + 1 := congrArg Prod.snd hattempts.attempts_eq
      _ ≤ v.position.bytes + 1 := Nat.succ_le_succ (hcounts.le_of_beyond hlt)
      _ ≤ setting.text.size + 1 := Nat.succ_le_succ hposition

/-- A run begins no more recoveries than there are places in the text, its end included. -/
theorem CompiledFrom.recoveries_run_le (hs : setting.Fits old s) (hcounts : setting.Counts s)
    (limit : Nat) : (setting.run limit s).2.stats.recoveries ≤ setting.text.size + 1 := by
  induction limit generalizing s with
  | zero => exact hcounts.recoveries_le
  | succ limit ih =>
      rw [run]
      split
      · exact hcounts.recoveries_le
      · split
        · exact hcounts.recoveries_le
        · rename_i i hnext
          have hadvance := h.recoveries_advance_le hold hwithin hs hcounts hnext
          obtain ⟨v, hv, _⟩ := ParseState.nextVersion?_spec hnext
          split
          · rename_i s' status heq
            rw [heq] at hadvance
            exact hadvance
          · rename_i s' heq
            have hstatus : (setting.advance s i).2 = none := by rw [heq]
            have hfits := (h.proceeds_after hold hwithin hs hnext hv hstatus).1
            have hnew := h.counts_after hold hwithin hs hcounts hnext hstatus
            rw [after, heq] at hfits hnew
            exact ih hfits hnew

end Runs

end ParseSetting

/-! ### Recoveries of parses -/

section Parses

open Subtree (FitIn)

/-- The trees of a text that parsers of one language make of it, and those that come about when such
a tree is edited along with its text. -/
inductive Tree.MadeFor (l : Language) : ByteArray → Tree → Prop
  | parse (p : Parser) (text : ByteArray) (old : Option Tree) (id : Nat) (hp : p.language = l)
      (hbases : p.bases = RepetitionBases.ofTable l.table)
      (hold : ∀ tree ∈ old, tree.language.isSame l = true → MadeFor l text tree) :
      MadeFor l text (p.parse text old id).tree
  | edit (text new : ByteArray) (tree : Tree) (start stop id : Nat) (h : MadeFor l text tree)
      (hle : start ≤ stop) (hstop : stop ≤ text.size) :
      MadeFor l ((InputEdit.replace text start stop new).applyTo text new)
        (tree.edit (InputEdit.replace text start stop new) id).1

variable {d : GrammarDef} {policy : ConflictPolicy} {l : Language} {scanner : Option ExternalScanner}
  {number : Nat} {p : Parser} {old : Option Tree} {text : ByteArray}

theorem Tree.MadeFor.made {tree : Tree} (h : tree.MadeFor l text) : tree.Made l := by
  induction h with
  | parse p text old id hp hbases _ ih => exact .parse p text old id hp hbases ih
  | edit text new tree start stop id _ _ _ ih => exact .edit tree _ id ih

theorem Parser.fitsIn_cursor?
    (hold : ∀ tree ∈ old, tree.language.isSame p.language = true → FitIn [tree.root] text.size) :
    ∀ start ∈ p.cursor? old, start.FitsIn text.size :=
  Parser.forall_cursor? fun tree htree hsame => ReuseCursor.fitsIn_ofRoot (hold tree htree hsame)

/-- A tree fits into the text that it is made for. -/
theorem Tree.MadeFor.fitIn (hl : Language.load d policy = .ok l)
    (hscanner : ∀ x ∈ scanner, x.ReadsForward) {tree : Tree}
    (h : tree.MadeFor { l with scanner := scanner, id := number } text) :
    FitIn [tree.root] text.size := by
  induction h with
  | parse p text old id hp _ _ ih =>
      rw [← hp] at ih
      exact ParseSetting.fitIn_of_ends (Parser.setting_wellFormed hl hscanner hp text)
        (Parser.fitsIn_cursor? ih) (p.ends_parse text old id)
  | edit text new tree start stop id _ hle hstop ih => exact Tree.fitIn_edit ih new hle hstop id

/-- Of two recoveries of a parse the later one begins further on, and there are no more of them than
there are bytes in the text and one. -/
theorem Parser.recoveries_parse (hl : Language.load d policy = .ok l) (hfit : l.table.EntriesFit)
    (hapart : l.table.ExtrasApart) (hscanner : ∀ x ∈ scanner, x.ReadsForward)
    (hp : p.language = { l with scanner := scanner, id := number })
    (hbases : p.bases = RepetitionBases.ofTable l.table)
    (hold : ∀ tree ∈ old, tree.language.isSame p.language = true → tree.MadeFor p.language text)
    (id : Nat) :
    let setting := p.setting text
    (∀ (s s' : ParseState) (i place place' : Nat),
      setting.Passes (.start p.language.table.startState (p.cursor? old) id) s →
      setting.BeginsRecovery s place → s.nextVersion? = some i → (setting.advance s i).2 = none →
      setting.Passes (setting.after s i) s' → setting.BeginsRecovery s' place' → place < place') ∧
    (p.parse text old id).stats.recoveries ≤ text.size + 1 := by
  intro setting
  obtain ⟨g, hsetting⟩ := Parser.setting_compiledFrom hl hfit hapart hp hbases text
  have htable : setting.table = l.table := by
    rw [ParseSetting.table, show setting.language = _ from hp]
  have hcursor := Parser.appliedRoot_cursor? fun tree htree hsame =>
    Tree.Made.appliedRoot hl hfit hapart (hp ▸ (hold tree htree hsame).made)
  rw [← htable] at hcursor
  have hfits : ∀ start ∈ p.cursor? old, start.FitsIn text.size :=
    Parser.fitsIn_cursor? fun tree htree hsame =>
      Tree.MadeFor.fitIn hl hscanner (hp ▸ hold tree htree hsame)
  have hwithin : ∀ v, setting.Reached (p.cursor? old) v → v.Within setting := fun v =>
    ParseSetting.within_of_reached (Parser.setting_wellFormed hl hscanner hp text) hfits
  have hstart : setting.Fits (p.cursor? old)
      (.start p.language.table.startState (p.cursor? old) id) :=
    ParseSetting.fits_start (p.cursor? old) id
  refine ⟨?_, ?_⟩
  · intro s s' i place place' hs hbegins hnext hstatus hs' hbegins'
    exact hsetting.lt_of_beginsRecovery hcursor hwithin hstart hs hbegins hnext hstatus hs' hbegins'
  · exact hsetting.recoveries_run_le hcursor hwithin hstart (.inl rfl) p.options.operationLimit

/-- A token is replaced by a byte that is none, and the tree is edited along with the text. -/
theorem recoveries_parse_optionalToken :
    ∃ l, Language.load .optionalToken .strict = .ok l ∧
      let p := Parser.ofLanguage { l with scanner := none, id := 1 }
      let away := InputEdit.replace "x".toUTF8 0 1 "y".toUTF8
      let text := away.applyTo "x".toUTF8 "y".toUTF8
      let edited := ((p.parse "x".toUTF8 none 0).tree.edit away 8).1
      (p.parse text (some edited) 16).stats.recoveries ≤ text.size + 1 := by
  obtain ⟨t, ht, _⟩ := exists_compile_optionalToken
  obtain ⟨l, hl, rfl⟩ := Language.exists_load load_optionalToken ht (by decide +kernel)
  obtain ⟨hfit, hapart⟩ := apart_optionalToken ht
  have hnone : ∀ x ∈ (none : Option ExternalScanner), x.ReadsForward := by
    intro x hx
    cases hx
  refine ⟨l, hl, (Parser.recoveries_parse hl hfit hapart hnone rfl rfl ?_ 16).2⟩
  intro tree htree _
  cases htree
  exact .edit _ _ _ 0 1 8 (.parse _ _ none 0 rfl rfl nofun) (by decide) (by decide)

end Parses

end IncrementalLR
