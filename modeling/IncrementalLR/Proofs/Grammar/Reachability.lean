import IncrementalLR.Proofs.Grammar.Meaning
import IncrementalLR.Proofs.Grammar.References
import IncrementalLR.Proofs.SymbolSet

/-!
# Rules that nothing leads to

The search for the symbols that the start symbol leads to takes symbols from a queue and marks what
stands on the right-hand sides of their productions. Each symbol is marked before it enters the queue
and never enters it again, so the number of symbols bounds the search. Extras are marked from the
beginning and never enter the queue; they are tokens, so nothing follows from them.
-/

namespace IncrementalLR

open Relation (ReflTransGen)

/-- The symbols on right-hand sides of the productions of a symbol. -/
def rhsOf (byLhs : Std.HashMap Symbol (List Symbol)) (s : Symbol) : List Symbol := (byLhs[s]?).getD []

/-- Marks the symbols that are not marked yet; gives these as well, the last one first. -/
def markNew (reached : SymbolSet) (symbols : List Symbol) : SymbolSet × List Symbol :=
  symbols.foldl
    (fun (reached, found) s =>
      if reached.contains s then (reached, found) else (reached.insert s, s :: found))
    (reached, [])

/-- What marking symbols makes of a set: those that it finds are new, and so many more are marked. -/
structure MarksNew (bound : Nat) (reached : SymbolSet) (symbols : List Symbol)
    (marked : SymbolSet × List Symbol) : Prop where
  contains : ∀ s, marked.1.contains s = true ↔ reached.contains s = true ∨ s ∈ symbols
  found : ∀ s, s ∈ marked.2 ↔ s ∈ symbols ∧ reached.contains s = false
  count : reached.count bound + marked.2.length ≤ marked.1.count bound

section Search

variable {byLhs : Std.HashMap Symbol (List Symbol)} {bound fuel : Nat} {queue symbols : List Symbol}
  {reached : SymbolSet} {s t : Symbol}

theorem marksNew_of_eq {marked : SymbolSet × List Symbol} (h : markNew reached symbols = marked)
    (hbound : ∀ s ∈ symbols, s.index < bound) : MarksNew bound reached symbols marked := by
  rw [← h]
  refine foldl_induction (fun done marked => MarksNew bound reached done marked)
    ⟨by simp, by simp, Nat.le_refl _⟩ ?_
  rintro done s rest ⟨now, found⟩ heq ⟨hcontains, hfound, hcount⟩
  simp only at hcontains hfound hcount ⊢
  split
  · rename_i hold
    have hdone : ∀ t, t ∈ done ++ [s] → reached.contains t = true ∨ t ∈ done := by
      intro t ht
      rcases List.mem_append.1 ht with ht | ht
      · exact .inr ht
      · rw [List.mem_singleton.1 ht]
        exact (hcontains s).1 hold
    refine ⟨fun t => (hcontains t).trans ⟨Or.imp_right (List.mem_append_left _), ?_⟩,
      fun t => (hfound t).trans ⟨And.imp_left (List.mem_append_left _), ?_⟩, hcount⟩
    · rintro (ht | ht)
      · exact .inl ht
      · exact hdone t ht
    · rintro ⟨ht, hnot⟩
      exact ⟨(hdone t ht).resolve_left (ne_true_of_eq_false hnot), hnot⟩
  · rename_i hnew
    have hs : ¬ (reached.contains s = true ∨ s ∈ done) := fun hold => hnew ((hcontains s).2 hold)
    rw [not_or] at hs
    refine ⟨fun t => ?_, fun t => ?_, ?_⟩
    · rw [SymbolSet.contains_insert, Bool.or_eq_true, decide_eq_true_iff, hcontains, List.mem_append,
        List.mem_singleton, or_assoc]
    · rw [List.mem_cons, hfound, List.mem_append, List.mem_singleton, or_and_right, or_comm]
      exact or_congr_right ⟨fun ht => ⟨ht, ht ▸ eq_false_of_ne_true hs.1⟩, And.left⟩
    · have hlt : s.index < bound :=
        hbound s (heq ▸ List.mem_append_right _ List.mem_cons_self)
      have hmore := SymbolSet.count_insert_le hlt (eq_false_of_ne_true hnew)
      exact Nat.le_trans (Nat.succ_le_succ hcount) hmore

/-- What is reached was reached before, or something in the queue leads to it. -/
theorem exists_of_contains_reachable (hbound : ∀ s, ∀ t ∈ rhsOf byLhs s, t.index < bound)
    (h : (reachable byLhs fuel queue reached).contains t = true) :
    reached.contains t = true ∨ ∃ s ∈ queue, ReflTransGen (fun s t => t ∈ rhsOf byLhs s) s t := by
  fun_induction reachable byLhs fuel queue reached with
  | case1 => exact .inl h
  | case2 => exact .inl h
  | case3 fuel s queue reached reached' found hmark ih =>
      obtain ⟨hcontains, hfound, _⟩ := marksNew_of_eq hmark (hbound s)
      rcases ih h with hreached | ⟨s', hs', hleads⟩
      · rcases (hcontains t).1 hreached with hold | ht
        · exact .inl hold
        · exact .inr ⟨s, List.mem_cons_self, .single ht⟩
      · rcases List.mem_append.1 hs' with hs' | hs'
        · exact .inr ⟨s', List.mem_cons_of_mem _ hs', hleads⟩
        · have hstep := ((hfound s').1 (List.mem_reverse.1 hs')).1
          exact .inr ⟨s, List.mem_cons_self, hleads.head hstep⟩

theorem contains_reachable (hbound : ∀ s, ∀ t ∈ rhsOf byLhs s, t.index < bound)
    (h : reached.contains t = true) : (reachable byLhs fuel queue reached).contains t = true := by
  fun_induction reachable byLhs fuel queue reached with
  | case1 => exact h
  | case2 => exact h
  | case3 fuel s queue reached reached' found hmark ih =>
      exact ih (((marksNew_of_eq hmark (hbound s)).contains t).2 (.inl h))

/-- What follows from a reached symbol is reached, unless the symbol is still in the queue. -/
def Followed (byLhs : Std.HashMap Symbol (List Symbol)) (queue : List Symbol) (reached : SymbolSet) :
    Prop :=
  ∀ s, reached.contains s = true → s ∈ queue ∨ ∀ t ∈ rhsOf byLhs s, reached.contains t = true

theorem Followed.mark {marked : SymbolSet × List Symbol} (h : Followed byLhs (s :: queue) reached)
    (hmarks : MarksNew bound reached (rhsOf byLhs s) marked) :
    Followed byLhs (queue ++ marked.2.reverse) marked.1 := by
  intro r hr
  by_cases hold : reached.contains r = true
  · rcases h r hold with hqueue | hfollowed
    · rcases List.mem_cons.1 hqueue with rfl | hqueue
      · exact .inr fun t ht => (hmarks.contains t).2 (.inr ht)
      · exact .inl (List.mem_append_left _ hqueue)
    · exact .inr fun t ht => (hmarks.contains t).2 (.inl (hfollowed t ht))
  · have hnew := ((hmarks.contains r).1 hr).resolve_left hold
    have hfound := (hmarks.found r).2 ⟨hnew, eq_false_of_ne_true hold⟩
    exact .inl (List.mem_append_right _ (List.mem_reverse.2 hfound))

/-- With enough fuel the queue is empty at the end: what can still enter it are the symbols that are not
reached yet. -/
theorem followed_reachable (hbound : ∀ s, ∀ t ∈ rhsOf byLhs s, t.index < bound)
    (hfuel : queue.length + bound ≤ fuel + reached.count bound) (h : Followed byLhs queue reached) :
    Followed byLhs [] (reachable byLhs fuel queue reached) := by
  fun_induction reachable byLhs fuel queue reached with
  | case1 queue reached =>
      have hle := SymbolSet.count_le bound reached
      obtain rfl : queue = [] := List.length_eq_zero_iff.1 (by omega)
      exact h
  | case2 => exact h
  | case3 fuel s queue reached reached' found hmark ih =>
      have hmarks := marksNew_of_eq hmark (hbound s)
      have hcount : reached.count bound + found.length ≤ reached'.count bound := hmarks.count
      refine ih ?_ (h.mark hmarks)
      rw [List.length_append, List.length_reverse]
      rw [List.length_cons] at hfuel
      omega

/-- From one symbol the search reaches just what the symbol leads to, and keeps what is marked from the
beginning if nothing follows from that. -/
theorem contains_reachable_iff {marked : SymbolSet}
    (hbound : ∀ s, ∀ t ∈ rhsOf byLhs s, t.index < bound)
    (hmarked : ∀ s, marked.contains s = true → rhsOf byLhs s = []) :
    (reachable byLhs (bound + 1) [s] (marked.insert s)).contains t = true ↔
      marked.contains t = true ∨ ReflTransGen (fun s t => t ∈ rhsOf byLhs s) s t := by
  have hinsert : ∀ r, (marked.insert s).contains r = true ↔ marked.contains r = true ∨ r = s := by
    intro r
    rw [SymbolSet.contains_insert, Bool.or_eq_true, decide_eq_true_iff]
  have hfollowed : Followed byLhs [] (reachable byLhs (bound + 1) [s] (marked.insert s)) := by
    refine followed_reachable hbound ?_ fun r hr => ?_
    · rw [List.length_singleton, Nat.add_comm 1]
      exact Nat.le_add_right _ _
    · rcases (hinsert r).1 hr with hr | rfl
      · rw [hmarked r hr]
        exact .inr fun _ ht => absurd ht List.not_mem_nil
      · exact .inl List.mem_cons_self
  constructor
  · intro h
    rcases exists_of_contains_reachable hbound h with hold | ⟨s', hs', hleads⟩
    · rcases (hinsert t).1 hold with hold | rfl
      · exact .inl hold
      · exact .inr .refl
    · rw [List.mem_singleton.1 hs'] at hleads
      exact .inr hleads
  · rintro (hold | hleads)
    · exact contains_reachable hbound ((hinsert t).2 (.inl hold))
    · induction hleads with
      | refl => exact contains_reachable hbound ((hinsert s).2 (.inr rfl))
      | tail _ ht ih => exact (hfollowed _ ih).resolve_left List.not_mem_nil _ ht

end Search

/-! ### Right-hand sides -/

/-- The right-hand sides of all productions, by left-hand side. -/
def rhsTable (productions : List Production) : Std.HashMap Symbol (List Symbol) :=
  productions.foldl (fun m p => m.insert p.lhs (((m[p.lhs]?).getD []) ++ p.rhs)) {}

theorem mem_rhsOf_iff {productions : List Production} {s t : Symbol} :
    t ∈ rhsOf (rhsTable productions) s ↔ ∃ p ∈ productions, p.lhs = s ∧ t ∈ p.rhs := by
  refine foldl_induction (fun (done : List Production) m => t ∈ rhsOf m s ↔
    ∃ p ∈ done, p.lhs = s ∧ t ∈ p.rhs) (by simp [rhsOf]) ?_
  intro done p rest m _ ih
  have hadded : t ∈ rhsOf (m.insert p.lhs (((m[p.lhs]?).getD []) ++ p.rhs)) s ↔
      t ∈ rhsOf m s ∨ p.lhs = s ∧ t ∈ p.rhs := by
    rw [rhsOf, Std.HashMap.getElem?_insert]
    split
    · rename_i heq
      obtain rfl := eq_of_beq heq
      rw [Option.getD_some, List.mem_append, rhsOf, and_iff_right rfl]
    · rename_i hne
      exact ⟨.inl, fun h => h.resolve_right fun hp => hne (beq_iff_eq.2 hp.1)⟩
  rw [hadded, ih]
  constructor
  · rintro (⟨q, hq, h⟩ | h)
    · exact ⟨q, List.mem_append_left _ hq, h⟩
    · exact ⟨p, List.mem_append_right _ List.mem_cons_self, h⟩
  · rintro ⟨q, hq, h⟩
    rcases List.mem_append.1 hq with hq | hq
    · exact .inl ⟨q, hq, h⟩
    · rw [List.mem_singleton.1 hq] at h
      exact .inr h

/-- The warnings of rules are those of the names whose symbols are not reached. -/
theorem unreachableRules_eq_map {α : Type} (symbolOf : String → Symbol) (symbolCount : Nat)
    (rules : List (String × α)) (productions : List Production) (start : Symbol)
    (extras : List Symbol) :
    unreachableRules symbolCount (rules.map fun rule => (rule.1, symbolOf rule.1)) productions start
        extras
      = ((rules.map (·.1)).filter fun name =>
          !(reachable (rhsTable productions) (symbolCount + 1) [start]
            ((SymbolSet.ofList extras).insert start)).contains (symbolOf name)).map
        .unreachableRule := by
  simp only [unreachableRules, rhsTable]
  generalize reachable _ _ _ _ = reached
  induction rules with
  | nil => rfl
  | cons rule rules ih =>
      rw [List.map_cons, List.map_cons, List.filterMap_cons, List.filter_cons, ih]
      cases reached.contains (symbolOf rule.1) <;> rfl

namespace Grammar

variable {d : GrammarDef} {g : Grammar}

/-- Right-hand sides lead from the first symbol to the second. -/
def LeadsTo (g : Grammar) : Symbol → Symbol → Prop :=
  ReflTransGen fun s t => ∃ p ∈ g.productions, p.lhs = s ∧ t ∈ p.rhs

/-- A search over the productions finds what the start symbol leads to. -/
theorem contains_reachable_rhsTable (h : Grammar.load d = .ok g) (s : Symbol) :
    (reachable (rhsTable g.productions.toList) (g.symbols.size + 1) [g.start]
      ((SymbolSet.ofList g.extras).insert g.start)).contains s = true ↔
        s ∈ g.extras ∨ g.LeadsTo g.start s := by
  obtain ⟨L⟩ := exists_loading h
  have hg := L.wellFormed
  rw [contains_reachable_iff, SymbolSet.contains_ofList, List.contains_iff_mem, LeadsTo]
  · simp only [mem_rhsOf_iff, Array.mem_toList_iff]
  · intro s t ht
    obtain ⟨p, hp, _, ht⟩ := mem_rhsOf_iff.1 ht
    exact (hg.rhs p (Array.mem_toList_iff.1 hp) t ht).2.2
  · intro s hs
    rw [SymbolSet.contains_ofList, List.contains_iff_mem] at hs
    refine List.eq_nil_iff_forall_not_mem.2 fun t ht => ?_
    obtain ⟨p, hp, rfl, _⟩ := mem_rhsOf_iff.1 ht
    -- extras are tokens, and productions have none on the left
    exact Nat.not_lt_of_le (hg.lhs p (Array.mem_toList_iff.1 hp)).1 ((load_references h).extras _ hs).2

/-- The warnings name the rules that are no extras and that the start symbol does not lead to, each of
them once and in the order in which the rules are defined. -/
theorem warnings_eq_unreachable (h : Grammar.load d = .ok g) :
    ∃ names : List String, g.warnings = names.map .unreachableRule ∧ names.Sublist d.ruleNames ∧
      names.Nodup ∧ ∀ name, name ∈ names ↔ name ∈ d.ruleNames ∧ g.nameSymbol name ∉ g.extras ∧
        ¬ g.LeadsTo g.start (g.nameSymbol name) := by
  obtain ⟨L⟩ := exists_loading h
  have hsymbols : ∀ name, ((namesOf L.terminals.names L.rules)[name]?).getD Symbol.error
      = g.nameSymbol name := fun name => congrArg (Option.getD · Symbol.error) (L.getElem?_names name)
  have hwarnings := L.warnings_of
  simp only [hsymbols, unreachableRules_eq_map] at hwarnings
  refine ⟨_, hwarnings, List.filter_sublist, ?_, fun name => ?_⟩
  · exact (GrammarDef.nodup_of_startName L.startName_eq).filter _
  · rw [List.mem_filter, Bool.not_eq_true', ← Bool.not_eq_true, contains_reachable_rhsTable h, not_or,
      GrammarDef.ruleNames]

/-- Of two rules the second is named, since the first does not mention it. -/
theorem warnings_eq_unreachable_repeatedTwice : Grammar.load .repeatedTwice = .ok .repeatedTwice ∧
    ¬ Grammar.repeatedTwice.LeadsTo Grammar.repeatedTwice.start
      (Grammar.repeatedTwice.nameSymbol "more") := by
  refine ⟨load_repeatedTwice, ?_⟩
  obtain ⟨names, hwarnings, _, _, hnames⟩ := warnings_eq_unreachable load_repeatedTwice
  have hmore : "more" ∈ names := by
    have hlist : [GrammarWarning.unreachableRule "more"] = names.map .unreachableRule := hwarnings
    obtain ⟨name, hname, heq⟩ := List.mem_map.1 (hlist ▸ List.mem_cons_self)
    cases heq
    exact hname
  exact ((hnames "more").1 hmore).2.2

end Grammar

end IncrementalLR
