import Mathlib.Data.List.ReduceOption
import IncrementalLR.Proofs.Table.Transitions

/-!
# Where associativity leaves an error

On the level of the items that shift, a reduction without associativity excludes both the shift and
itself. Several reductions may stand on that level, each with an associativity of its own: they are
set against the shift one after the other, and each leaves its reason behind. So the reason that is
recorded is that of the last one, while an error is what is left when no reduction stays.
-/

namespace IncrementalLR

variable {g : Grammar} {policy : ConflictPolicy} {t : Table}

open KernelFollows (states)

namespace Candidates

variable {shifts : List Precedence} {contest : Contest} {r : Nat}

/-! ### One reduction against the shift -/

/-- The reduction is on the level of every item that shifts. -/
def Ties (g : Grammar) (shifts : List Precedence) (r : Nat) : Prop :=
  level (reducePrecedence g r) = smallest (shifts.map (·.value)) ∧
    level (reducePrecedence g r) = largest (shifts.map (·.value))

instance (g : Grammar) (shifts : List Precedence) (r : Nat) : Decidable (Ties g shifts r) :=
  inferInstanceAs (Decidable (_ ∧ _))

/-- The associativity of a reduction, or else the first that an item that shifts has. -/
def assocOf (g : Grammar) (shifts : List Precedence) (r : Nat) : Option Associativity :=
  ((reducePrecedence g r).bind (·.assoc)).or (shifts.findSome? (·.assoc))

/-- The shift stays beside a reduction of this associativity. -/
def keepsShift (assoc : Option Associativity) : Bool := assoc = none ∨ assoc = some .right

/-- A reduction of this associativity stays. -/
def keepsReduce (assoc : Option Associativity) : Bool := assoc = none ∨ assoc = some .left

/-- The reason that a reduction of this associativity leaves behind. -/
def reasonOf : Associativity → ResolutionReason
  | .nonassoc => .nonAssociative
  | _ => .associativity

theorem compete_of_ties (h : Ties g shifts r) :
    compete g shifts contest r =
      { keepShift := contest.keepShift && keepsShift (assocOf g shifts r)
        reduces := if keepsReduce (assocOf g shifts r) then r :: contest.reduces else contest.reduces
        reason := ((assocOf g shifts r).map reasonOf).or contest.reason } := by
  obtain ⟨hlow, hhigh⟩ := h
  rw [compete]
  by_cases hplain : (reducePrecedence g r).isNone ∧ shifts.isEmpty
  · have hassoc : assocOf g shifts r = none := by
      rw [assocOf, Option.isNone_iff_eq_none.1 hplain.1, List.isEmpty_iff.1 hplain.2]
      rfl
    rw [if_pos hplain, hassoc]
    simp [keepsShift, keepsReduce]
  · rw [if_neg hplain]
    simp only [← hlow, ← hhigh, gt_iff_lt, Int32.lt_irrefl, if_false, and_self, if_true]
    rw [← assocOf]
    rcases assocOf g shifts r with _ | _ | _ | _
    · simp [keepsShift, keepsReduce]
    · simp [keepsShift, keepsReduce, reasonOf]
    · simp [keepsShift, keepsReduce, reasonOf]
    · simp [keepsShift, keepsReduce, reasonOf]

/-- On another level than the shift, one of the two stays, and precedence is the reason if there is
any. -/
theorem compete_of_not_ties (h : ¬ Ties g shifts r)
    (hkeeps : contest.keepShift = true ∨ contest.reduces ≠ [])
    (hreason : contest.reason ≠ some .nonAssociative) :
    ((compete g shifts contest r).keepShift = true ∨ (compete g shifts contest r).reduces ≠ []) ∧
      (compete g shifts contest r).reason ≠ some .nonAssociative := by
  rw [Ties] at h
  rw [compete]
  split
  · exact ⟨.inr (List.cons_ne_nil _ _), hreason⟩
  · simp only [if_neg h]
    split
    · exact ⟨.inr (List.cons_ne_nil _ _), by simp⟩
    · split
      · exact ⟨hkeeps, by simp⟩
      · exact ⟨.inr (List.cons_ne_nil _ _), hreason⟩

/-! ### All of them -/

theorem getLast?_reduceOption_cons {α : Type} (first : Option α) (rest : List (Option α)) :
    (first :: rest).reduceOption.getLast? = rest.reduceOption.getLast?.or first := by
  cases first with
  | none => rw [List.reduceOption_cons_of_none, Option.or_none]
  | some a =>
      rw [List.reduceOption_cons_of_some, List.getLast?_cons]
      cases rest.reduceOption.getLast? with
      | none => rfl
      | some last => rfl

/-- Reductions on the level of the shift: each that has an associativity leaves its reason, and the
last reason stands. -/
theorem foldl_compete_of_ties {reduces : List Nat} (h : ∀ r ∈ reduces, Ties g shifts r)
    (contest : Contest) :
    reduces.foldl (compete g shifts) contest =
      { keepShift := contest.keepShift && (reduces.map (assocOf g shifts)).all keepsShift
        reduces := (reduces.filter fun r => keepsReduce (assocOf g shifts r)).reverse
          ++ contest.reduces
        reason := (((reduces.map (assocOf g shifts)).reduceOption.getLast?).map reasonOf).or
          contest.reason } := by
  induction reduces generalizing contest with
  | nil => simp
  | cons r reduces ih =>
      rw [List.foldl_cons, ih fun r' hr' => h r' (List.mem_cons_of_mem r hr'),
        compete_of_ties (h r List.mem_cons_self), List.map_cons, List.all_cons,
        getLast?_reduceOption_cons, Option.map_or, Option.or_assoc, Bool.and_assoc]
      congr 1
      by_cases hkeeps : keepsReduce (assocOf g shifts r) = true
      · rw [if_pos hkeeps, List.filter_cons, if_pos hkeeps, List.reverse_cons, List.append_assoc,
          List.singleton_append]
      · rw [if_neg hkeeps, List.filter_cons, if_neg hkeeps]

theorem foldl_compete_of_not_ties {reduces : List Nat} (h : ∀ r ∈ reduces, ¬ Ties g shifts r)
    (contest : Contest) (hkeeps : contest.keepShift = true ∨ contest.reduces ≠ [])
    (hreason : contest.reason ≠ some .nonAssociative) :
    ((reduces.foldl (compete g shifts) contest).keepShift = true ∨
        (reduces.foldl (compete g shifts) contest).reduces ≠ []) ∧
      (reduces.foldl (compete g shifts) contest).reason ≠ some .nonAssociative := by
  induction reduces generalizing contest with
  | nil => exact ⟨hkeeps, hreason⟩
  | cons r reduces ih =>
      obtain ⟨hkeeps, hreason⟩ := compete_of_not_ties (h r List.mem_cons_self) hkeeps hreason
      exact ih (fun r' hr' => h r' (List.mem_cons_of_mem r hr')) _ hkeeps hreason

/-- The reductions of the highest level are on one level. -/
theorem level_eq_of_mem_rankReduces {reduces : List Nat} {r r' : Nat}
    (hr : r ∈ (rankReduces g reduces).1) (hr' : r' ∈ (rankReduces g reduces).1) :
    level (reducePrecedence g r) = level (reducePrecedence g r') := by
  rw [rankReduces] at hr hr'
  by_cases hranked : reduces.length > 1 ∧ reduces.any fun r => (reducePrecedence g r).isSome
  · rw [if_pos hranked] at hr hr'
    simp only at hr hr'
    by_cases hfewer : (reduces.filter fun r => level (reducePrecedence g r)
        = largest (reduces.map fun r => level (reducePrecedence g r))).length < reduces.length
    · rw [if_pos hfewer] at hr hr'
      have hlevel := of_decide_eq_true (List.mem_filter.1 hr).2
      have hlevel' := of_decide_eq_true (List.mem_filter.1 hr').2
      exact hlevel.trans hlevel'.symm
    · rw [if_neg hfewer] at hr hr'
      have hall := List.filter_sublist.eq_of_length_le (Nat.le_of_not_lt hfewer)
      rw [← hall] at hr hr'
      have hlevel := of_decide_eq_true (List.mem_filter.1 hr).2
      have hlevel' := of_decide_eq_true (List.mem_filter.1 hr').2
      exact hlevel.trans hlevel'.symm
  · rw [if_neg hranked] at hr hr'
    by_cases hone : reduces.length > 1
    · have hnone : ∀ r ∈ reduces, reducePrecedence g r = none := by
        simpa [hone] using hranked
      rw [hnone r hr, hnone r' hr']
    · obtain ⟨only, rfl⟩ := List.length_eq_one_iff.1
        (Nat.le_antisymm (Nat.le_of_not_lt hone) (List.length_pos_of_mem hr))
      rw [List.mem_singleton.1 hr, List.mem_singleton.1 hr']

theorem rankReduces_reason_ne (g : Grammar) (reduces : List Nat) :
    (rankReduces g reduces).2 ≠ some .nonAssociative := by
  rw [rankReduces]
  split
  · simp only
    split
    · simp
    · simp
  · simp

/-- The associativities of the reductions of the highest level, where that is the level of every item
that shifts. -/
def tied (g : Grammar) (c : Candidates) : List (Option Associativity) :=
  if c.shift.isSome then
    ((rankReduces g c.reduces).1.filter (Ties g (c.shiftPrecedence.filterMap id))).map
      (assocOf g (c.shiftPrecedence.filterMap id))
  else []

/-- No reduction stays, and one of them excludes the shift. -/
def ExcludesAll (assocs : List (Option Associativity)) : Prop :=
  some .nonassoc ∈ assocs ∧ ∀ assoc ∈ assocs, assoc = some .right ∨ assoc = some .nonassoc

/-- The last reduction with an associativity excludes the shift and itself, and of the others at most
one stays. -/
def ExcludesLast (assocs : List (Option Associativity)) : Prop :=
  assocs.reduceOption.getLast? = some .nonassoc ∧ (assocs.filter keepsReduce).length ≤ 1

/-- All is excluded, but the last reduction only gives way to the shift; or the last reduction
excludes the shift and itself, but another stays. -/
def Misreports (assocs : List (Option Associativity)) : Prop :=
  (ExcludesAll assocs ∧ assocs.getLast? = some (some .right)) ∨
    (assocs.reduceOption.getLast? = some .nonassoc ∧ (assocs.filter keepsReduce).length = 1)

theorem keepsReduce_eq_false_iff {assoc : Option Associativity} :
    keepsReduce assoc = false ↔ assoc = some .right ∨ assoc = some .nonassoc := by
  rcases assoc with _ | _ | _ | _ <;> decide

theorem excludesAll_iff {assocs : List (Option Associativity)} : ExcludesAll assocs ↔
    assocs.all keepsShift = false ∧ assocs.filter keepsReduce = [] := by
  simp only [ExcludesAll, List.filter_eq_nil_iff, Bool.not_eq_true, keepsReduce_eq_false_iff]
  refine and_congr_left fun hall => ⟨fun hmem => ?_, fun hnot => ?_⟩
  · exact List.all_eq_false.2 ⟨_, hmem, by decide⟩
  · obtain ⟨assoc, hmem, hkeeps⟩ := List.all_eq_false.1 hnot
    rcases hall assoc hmem with rfl | rfl
    · exact absurd rfl hkeeps
    · exact hmem

theorem mem_of_getLast?_reduceOption {assocs : List (Option Associativity)} {assoc : Associativity}
    (h : assocs.reduceOption.getLast? = some assoc) : some assoc ∈ assocs :=
  List.reduceOption_mem_iff.1 (List.mem_of_getLast? h)

theorem all_keepsShift_of_last {assocs : List (Option Associativity)}
    (h : assocs.reduceOption.getLast? = some .nonassoc) : assocs.all keepsShift = false := by
  exact List.all_eq_false.2 ⟨_, mem_of_getLast?_reduceOption h, by decide⟩

/-- All is excluded where the last excludes, except where the reason is misreported. -/
theorem not_misreports_iff (assocs : List (Option Associativity)) :
    ¬ Misreports assocs ↔ (ExcludesAll assocs ↔ ExcludesLast assocs) := by
  by_cases hexcludes : ExcludesAll assocs
  · have hnone := (excludesAll_iff.1 hexcludes).2
    obtain ⟨last, hlast⟩ := Option.ne_none_iff_exists'.1 fun hempty =>
      List.ne_nil_of_mem hexcludes.1 (List.getLast?_eq_none_iff.1 hempty)
    obtain ⟨init, hinit⟩ := List.getLast?_eq_some_iff.1 hlast
    have hlast' : assocs.reduceOption.getLast? = last := by
      rcases hexcludes.2 last (List.mem_of_getLast? hlast) with rfl | rfl
      · simp [hinit, List.reduceOption_append]
      · simp [hinit, List.reduceOption_append]
    simp only [Misreports, ExcludesLast, hexcludes, hnone, hlast, hlast']
    rcases hexcludes.2 last (List.mem_of_getLast? hlast) with rfl | rfl
    · simp
    · simp
  · have hsome : assocs.reduceOption.getLast? = some .nonassoc →
        (assocs.filter keepsReduce).length ≠ 0 := fun hlast hzero =>
      hexcludes (excludesAll_iff.2 ⟨all_keepsShift_of_last hlast, List.length_eq_zero_iff.1 hzero⟩)
    simp only [Misreports, ExcludesLast, hexcludes, false_and, false_or, false_iff]
    refine not_congr (and_congr_right fun hlast => ?_)
    have hne := hsome hlast
    omega

variable {c : Candidates}

/-- How the contest of the reductions on the level of the shift ends. -/
structure ContestEnds (g : Grammar) (c : Candidates) : Prop where
  kept : keptOf g c = [] ↔ ExcludesAll (c.tied g)
  reason : (contestOf g c).reason = some .nonAssociative ↔
    (c.tied g).reduceOption.getLast? = some .nonassoc
  length : (c.tied g).reduceOption.getLast? = some .nonassoc →
    (keptOf g c).length = ((c.tied g).filter keepsReduce).length

theorem contestEnds_of_tied_eq_nil (htied : c.tied g = [])
    (hkeeps : (contestOf g c).keepShift = true ∧ c.shift.isSome = true ∨ (contestOf g c).reduces ≠ [])
    (hreason : (contestOf g c).reason ≠ some .nonAssociative) : ContestEnds g c := by
  have hkept : keptOf g c ≠ [] := by
    rw [keptOf]
    rcases hkeeps with ⟨hkeeps, hshift⟩ | hkeeps
    · obtain ⟨target, hshift⟩ := Option.isSome_iff_exists.1 hshift
      simp [hkeeps, shiftAction, hshift]
    · simp [hkeeps]
  constructor
  · rw [htied]
    simp [hkept, ExcludesAll]
  · rw [htied]
    simp [hreason]
  · rw [htied]
    simp

/-- With a shift and all reductions of the highest level on its level. -/
theorem contestEnds_of_ties (hshift : c.shift.isSome = true)
    (hties : ∀ r ∈ (rankReduces g c.reduces).1, Ties g (c.shiftPrecedence.filterMap id) r) :
    ContestEnds g c := by
  obtain ⟨target, htarget⟩ := Option.isSome_iff_exists.1 hshift
  have hreason := rankReduces_reason_ne g c.reduces
  have hfilter : (rankReduces g c.reduces).1.filter (Ties g (c.shiftPrecedence.filterMap id))
      = (rankReduces g c.reduces).1 :=
    List.filter_eq_self.2 fun r hr => decide_eq_true (hties r hr)
  have htied : c.tied g = (rankReduces g c.reduces).1.map
      (assocOf g (c.shiftPrecedence.filterMap id)) := by
    rw [tied, if_pos hshift, hfilter]
  have hcontest := foldl_compete_of_ties hties ⟨true, [], (rankReduces g c.reduces).2⟩
  rw [← htied, Bool.true_and, List.append_nil] at hcontest
  have hkept : keptOf g c = (if (c.tied g).all keepsShift then c.shiftAction else []) ++
      ((rankReduces g c.reduces).1.filter fun r =>
        keepsReduce (assocOf g (c.shiftPrecedence.filterMap id) r)).map reduceAction := by
    rw [keptOf, contestOf, if_pos hshift, hcontest, List.reverse_reverse]
  have hlength : ((rankReduces g c.reduces).1.filter fun r =>
      keepsReduce (assocOf g (c.shiftPrecedence.filterMap id) r)).length
        = ((c.tied g).filter keepsReduce).length := by
    rw [htied, List.filter_map, List.length_map]
    rfl
  constructor
  · rw [hkept, excludesAll_iff, List.append_eq_nil_iff, List.map_eq_nil_iff,
      ← List.length_eq_zero_iff (l := List.filter _ _), hlength, List.length_eq_zero_iff]
    refine and_congr_left' ?_
    cases (c.tied g).all keepsShift with
    | true => simp [shiftAction, htarget]
    | false => simp
  · rw [contestOf, if_pos hshift, hcontest]
    rcases (c.tied g).reduceOption.getLast? with _ | _ | _ | _
    · simpa using hreason
    · simp [reasonOf]
    · simp [reasonOf]
    · simp [reasonOf]
  · intro hlast
    rw [hkept, all_keepsShift_of_last hlast, ← hlength]
    simp

theorem contestEnds (hreduces : c.reduces ≠ []) : ContestEnds g c := by
  have hranked := rankReduces_ne_nil (g := g) hreduces
  have hreason := rankReduces_reason_ne g c.reduces
  by_cases hshift : c.shift.isSome = true
  · by_cases hties : ∃ r ∈ (rankReduces g c.reduces).1, Ties g (c.shiftPrecedence.filterMap id) r
    · obtain ⟨r, hr, hlow, hhigh⟩ := hties
      refine contestEnds_of_ties hshift fun r' hr' => ?_
      rw [Ties, level_eq_of_mem_rankReduces hr' hr]
      exact ⟨hlow, hhigh⟩
    · have hnot : ∀ r ∈ (rankReduces g c.reduces).1, ¬ Ties g (c.shiftPrecedence.filterMap id) r :=
        fun r hr hr' => hties ⟨r, hr, hr'⟩
      have hends := foldl_compete_of_not_ties hnot ⟨true, [], (rankReduces g c.reduces).2⟩ (.inl rfl)
        hreason
      have htied : c.tied g = [] := by
        rw [tied, if_pos hshift, List.filter_eq_nil_iff.2, List.map_nil]
        exact fun r hr => by simpa using hnot r hr
      refine contestEnds_of_tied_eq_nil htied ?_ ?_
      · rw [contestOf, if_pos hshift]
        exact hends.1.imp_left fun hkeeps => ⟨hkeeps, hshift⟩
      · rw [contestOf, if_pos hshift]
        exact hends.2
  · refine contestEnds_of_tied_eq_nil (if_neg hshift) (.inr ?_) ?_
    · simpa [contestOf, hshift] using hranked
    · simpa [contestOf, hshift] using hreason

/-- What a settled cell keeps, and for what reason. -/
theorem kept_eq_nil_iff_of_resolve {state : Nat} {kernel : List Item} {lookahead : Symbol}
    {outcome : Outcome} {reason : ResolutionReason}
    (h : c.resolve g policy state kernel lookahead = .ok outcome)
    (hreason : outcome.reason = some reason) :
    (outcome.kept = [] ↔ ExcludesAll (c.tied g)) ∧
      (reason = .nonAssociative ↔ ExcludesLast (c.tied g)) := by
  have hmany : ¬ c.actions.length ≤ 1 := fun hclear => by
    rw [(reason_eq_none_iff h).2 hclear] at hreason
    cases hreason
  have hreduces : c.reduces ≠ [] := by
    rintro hnone
    refine hmany ?_
    rw [actions, hnone, shiftAction]
    cases c.shift <;> simp
  have hends := contestEnds (g := g) hreduces
  rw [resolve_eq, if_neg hmany] at h
  by_cases hkept : (keptOf g c).length ≤ 1
  · rw [if_pos hkept] at h
    cases h
    have hlast := hends.reason
    rw [show (contestOf g c).reason = some reason from hreason, Option.some.injEq] at hlast
    exact ⟨hends.kept, hlast.trans (and_iff_left_of_imp fun hlast => hends.length hlast ▸ hkept).symm⟩
  · rw [if_neg hkept] at h
    have hlast : ¬ ExcludesLast (c.tied g) := fun hlast => hkept (hends.length hlast.1 ▸ hlast.2)
    have hsome : keptOf g c ≠ [] := fun hnil => hkept (by simp [hnil])
    rw [← hends.kept]
    by_cases hdeclared : c.isDeclared g kernel = true
    · rw [if_pos hdeclared] at h
      cases h
      cases hreason
      simp [keep, hlast]
    · rw [if_neg hdeclared] at h
      cases policy with
      | strict => cases h
      | preferShift =>
          cases h
          cases hreason
          simp [keep, hlast]

end Candidates

namespace Table

theorem entryOf_eq_error_iff {c : Candidates} {b : Compile.Builder} {kept : List Action}
    (h : kept ⊆ c.actions) : Compile.entryOf b kept = .error ↔ kept = [] := by
  rcases kept with _ | ⟨single, _ | ⟨other, rest⟩⟩
  · simp [Compile.entryOf]
  · simpa [Compile.entryOf] using (Candidates.plain_of_mem_actions (h List.mem_cons_self)).1
  · simp [Compile.entryOf]

/-- Of every conflict that is recorded, an error is kept where the reductions on the level of the
shift exclude it and themselves, and the recorded reason is the missing associativity where the last
of them does; so the one goes with the other exactly where the last of them says what all leave. -/
theorem error_iff_nonAssociative {d : GrammarDef} (hload : Grammar.load d = .ok g)
    (h : Table.compile g policy = .ok t) {r : Resolution} (hr : r ∈ t.resolutions) :
    ∃ q < (states g).kernels.size, r.state = q.toUInt32 ∧
      let tied := ((Compile.offerOf g q).candidates r.lookahead).tied g
      (r.kept = .error ↔ Candidates.ExcludesAll tied) ∧
        (r.reason = .nonAssociative ↔ Candidates.ExcludesLast tied) ∧
        ((r.kept = .error ↔ r.reason = .nonAssociative) ↔ ¬ Candidates.Misreports tied) := by
  obtain ⟨fillings, hfilled⟩ := exists_filledBy (Grammar.load_wellFormed hload) h
  have hmem := Array.mem_toList_iff.2 hr
  rw [hfilled.resolutions] at hmem
  obtain ⟨f, hf, hrecord⟩ := List.mem_filterMap.1 hmem
  obtain ⟨q, hq, hoffer⟩ := hfilled.exists_offerOf hf
  obtain ⟨reason, hreason, rfl⟩ := Option.map_eq_some_iff.1 hrecord
  have hterminal : g.isTerminal f.cell.2 = true := hfilled.isTerminal_of_mem_resolutions hr
  have hsettled := hfilled.settled f hf
  rw [Compile.Filling.Settled, if_pos hterminal, hoffer] at hsettled
  obtain ⟨hsettles, b, hentry⟩ := hsettled
  obtain ⟨hkept, hlast⟩ := Candidates.kept_eq_nil_iff_of_resolve hsettles hreason
  rw [← entryOf_eq_error_iff (Candidates.settled_of_resolve hsettles).kept_subset, ← hentry] at hkept
  have hboth := Candidates.not_misreports_iff
    (((Compile.offerOf g q).candidates f.cell.2).tied g)
  rw [← hkept, ← hlast] at hboth
  exact ⟨q, hq, by simp [Compile.place, hoffer, Compile.offer], hkept, hlast, hboth.symm⟩

end Table

/-! ### A reduction without associativity before one that gives way -/

def GrammarDef.rivals : GrammarDef :=
  { name := "rivals"
    rules := [("s", .choice [.seq [.symbol "a", .literal "+"], .seq [.symbol "b", .literal "+"],
        .ranked 1 none (.seq [.literal "t", .literal "+", .literal "z"])]),
      ("a", .ranked 1 (some .nonassoc) (.literal "t")), ("b", .ranked 1 (some .right) (.literal "t"))]
    extras := some [] }

def Grammar.rivals : Grammar :=
  { name := "rivals"
    symbols := #[⟨"end", .terminal, false, false, false⟩, ⟨"+", .terminal, true, false, false⟩,
      ⟨"t", .terminal, true, false, false⟩, ⟨"z", .terminal, true, false, false⟩,
      ⟨"start'", .auxiliary, false, false, false⟩, ⟨"s", .nonterminal, true, true, false⟩,
      ⟨"a", .nonterminal, true, true, false⟩, ⟨"b", .nonterminal, true, true, false⟩]
    terminalCount := 4
    start := ⟨5⟩
    productions := #[⟨⟨4⟩, #[{ symbol := ⟨5⟩ }], none, 0⟩,
      ⟨⟨5⟩, #[{ symbol := ⟨6⟩ }, { symbol := ⟨1⟩ }], none, 0⟩,
      ⟨⟨5⟩, #[{ symbol := ⟨7⟩ }, { symbol := ⟨1⟩ }], none, 0⟩,
      ⟨⟨5⟩, #[{ symbol := ⟨2⟩, precedence := some ⟨1, none⟩ },
        { symbol := ⟨1⟩, precedence := some ⟨1, none⟩ },
        { symbol := ⟨3⟩, precedence := some ⟨1, none⟩ }], some ⟨1, none⟩, 0⟩,
      ⟨⟨6⟩, #[{ symbol := ⟨2⟩, precedence := some ⟨1, some .nonassoc⟩ }],
        some ⟨1, some .nonassoc⟩, 0⟩,
      ⟨⟨7⟩, #[{ symbol := ⟨2⟩, precedence := some ⟨1, some .right⟩ }], some ⟨1, some .right⟩, 0⟩]
    fields := #[]
    tokens := #[⟨⟨1⟩, "\\+", true⟩, ⟨⟨2⟩, "t", true⟩, ⟨⟨3⟩, "z", true⟩]
    skips := []
    extras := []
    externals := #[]
    word := none
    keywords := []
    conflicts := []
    tokenPrecedence := []
    auxOrigin := []
    warnings := [] }

theorem load_rivals : Grammar.load .rivals = .ok .rivals := by
  cbv

theorem states_rivals : states Grammar.rivals
    = ⟨#[[⟨0, 0⟩], [⟨3, 1⟩, ⟨4, 1⟩, ⟨5, 1⟩], [⟨0, 1⟩], [⟨1, 1⟩], [⟨2, 1⟩], [⟨3, 2⟩], [⟨1, 2⟩], [⟨2, 2⟩],
        [⟨3, 3⟩]],
      #[[(⟨2⟩, 1), (⟨5⟩, 2), (⟨6⟩, 3), (⟨7⟩, 4)], [(⟨1⟩, 5)], [], [(⟨1⟩, 6)], [(⟨1⟩, 7)], [(⟨3⟩, 8)],
        [], [], []]⟩ := by
  have hmoves₀ : Lr0.moves .rivals Grammar.rivals.productionsByLhs [⟨0, 0⟩]
      = [(⟨2⟩, [⟨3, 1⟩, ⟨4, 1⟩, ⟨5, 1⟩]), (⟨5⟩, [⟨0, 1⟩]), (⟨6⟩, [⟨1, 1⟩]), (⟨7⟩, [⟨2, 1⟩])] := by
    decide
  have hmoves₁ : Lr0.moves .rivals Grammar.rivals.productionsByLhs [⟨3, 1⟩, ⟨4, 1⟩, ⟨5, 1⟩]
      = [(⟨1⟩, [⟨3, 2⟩])] := by decide
  have hmoves₃ : Lr0.moves .rivals Grammar.rivals.productionsByLhs [⟨1, 1⟩]
      = [(⟨1⟩, [⟨1, 2⟩])] := by decide
  have hmoves₄ : Lr0.moves .rivals Grammar.rivals.productionsByLhs [⟨2, 1⟩]
      = [(⟨1⟩, [⟨2, 2⟩])] := by decide
  have hmoves₅ : Lr0.moves .rivals Grammar.rivals.productionsByLhs [⟨3, 2⟩]
      = [(⟨3⟩, [⟨3, 3⟩])] := by decide
  have hends : ∀ item ∈ [(⟨0, 1⟩ : Item), ⟨1, 2⟩, ⟨2, 2⟩, ⟨3, 3⟩],
      Lr0.moves .rivals Grammar.rivals.productionsByLhs [item] = [] := by decide
  have hcount : Lr0.itemCount .rivals = 16 := by decide
  simp only [List.forall_mem_cons, List.not_mem_nil, false_implies, implies_true, and_true] at hends
  simp [states, Lr0.ofGrammar, hmoves₀, hmoves₁, hmoves₃, hmoves₄, hmoves₅, hends, hcount,
    Lr0.Builder.run, Lr0.startKernel, Lr0.Builder.addTransitions, Lr0.Builder.addState]

/-- The first reduction excludes the shift and itself, the second only gives way to the shift: an
error is left, and the second gives the reason. -/
theorem error_iff_nonAssociative_rivals : ∃ t, Table.compile .rivals .strict = .ok t ∧
    ∃ r ∈ t.resolutions, r.kept = .error ∧ r.reason = .associativity ∧
      ∃ q < (states .rivals).kernels.size,
        Candidates.Misreports (((Compile.offerOf .rivals q).candidates r.lookahead).tied .rivals) := by
  have hrows : ((Compile.buildRows (LookaheadTables.ofGrammar .rivals)
      (states .rivals) .strict).toOption.map fun rows => rows.resolutions)
        = some [⟨1, ⟨1⟩, .error, [.shift 5, .reduce 4, .reduce 5], .associativity⟩] := by
    rw [states_rivals]
    decide +kernel
  cases hbuilt : Compile.buildRows (LookaheadTables.ofGrammar .rivals) (states .rivals) .strict with
  | error conflict =>
      rw [hbuilt] at hrows
      cases hrows
  | ok rows =>
      rw [hbuilt] at hrows
      simp only [Except.toOption, Option.map_some, Option.some.injEq] at hrows
      obtain ⟨t, ht, hrecords⟩ := Table.exists_compile_of_buildRows hbuilt
      rw [hrows] at hrecords
      refine ⟨t, ht, _, by rw [hrecords]; exact Array.mem_singleton.2 rfl, rfl, rfl, ?_⟩
      obtain ⟨q, hq, _, _, _, hboth⟩ := Table.error_iff_nonAssociative load_rivals ht
        (by rw [hrecords]; exact Array.mem_singleton.2 rfl)
      refine ⟨q, hq, ?_⟩
      by_contra hnot
      cases (hboth.2 hnot).1 rfl

end IncrementalLR
