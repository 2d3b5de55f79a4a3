import IncrementalLR.Proofs.Grammar.WellFormed

/-!
# What a loaded grammar refers to

The fields of steps are numbers of field names, the named extras and the word are tokens. So what a
table stores of them can be looked up again.
-/

namespace IncrementalLR

/-! ### Fields -/

/-- Every label in the alternatives has the property. -/
def Alternative.AllLabels (P : FieldId → Prop) (alts : List Alternative) : Prop :=
  ∀ a ∈ alts, ∀ step ∈ a.steps, ∀ f ∈ step.field, P f

namespace Alternative

variable {P : FieldId → Prop} {as bs : List Alternative}

theorem allLabels_nil : AllLabels P [] := fun _ ha => absurd ha List.not_mem_nil

theorem allLabels_empty : AllLabels P [{}] := by
  intro a ha step hstep
  rw [List.mem_singleton.1 ha] at hstep
  exact absurd hstep List.not_mem_nil

theorem allLabels_single (s : Symbol) : AllLabels P [single s] := by
  intro a ha step hstep f hf
  rw [List.mem_singleton.1 ha] at hstep
  rw [List.mem_singleton.1 hstep] at hf
  cases hf

theorem AllLabels.append (ha : AllLabels P as) (hb : AllLabels P bs) : AllLabels P (as ++ bs) := by
  intro a h
  rcases List.mem_append.1 h with h | h
  · exact ha a h
  · exact hb a h

theorem AllLabels.product (ha : AllLabels P as) (hb : AllLabels P bs) :
    AllLabels P (product as bs) := by
  intro c hc step hstep
  obtain ⟨a, hamem, hc⟩ := List.mem_flatMap.1 hc
  obtain ⟨b, hbmem, rfl⟩ := List.mem_map.1 hc
  rcases List.mem_append.1 hstep with hstep | hstep
  · exact ha a hamem step hstep
  · exact hb b hbmem step hstep

/-- What changes alternatives keeps the property when it adds only labels that have it. -/
theorem AllLabels.map (h : AllLabels P as) {f : Alternative → Alternative}
    (hf : ∀ a, ∀ step ∈ (f a).steps, ∃ step' ∈ a.steps, ∀ x ∈ step.field, x ∈ step'.field ∨ P x) :
    AllLabels P (as.map f) := by
  intro b hb step hstep x hx
  obtain ⟨a, ha, rfl⟩ := List.mem_map.1 hb
  obtain ⟨step', hstep', hfield⟩ := hf a step hstep
  rcases hfield x hx with hx | hx
  · exact h a ha step' hstep' x hx
  · exact hx

theorem AllLabels.rank (h : AllLabels P as) (p : Precedence) : AllLabels P (as.map (rank p)) := by
  refine h.map fun a step hstep => ?_
  obtain ⟨step', hstep', rfl⟩ := List.mem_map.1 hstep
  exact ⟨step', hstep', fun _ => .inl⟩

theorem AllLabels.weigh (h : AllLabels P as) (value : Int32) :
    AllLabels P (as.map (weigh value)) :=
  h.map fun _ step hstep => ⟨step, hstep, fun _ => .inl⟩

theorem AllLabels.label (h : AllLabels P as) {f : FieldId} (hf : P f) :
    AllLabels P (as.map (label f)) := by
  refine h.map fun a step hstep => ?_
  obtain ⟨step', hstep', rfl⟩ := List.mem_map.1 hstep
  refine ⟨step', hstep', fun x hx => ?_⟩
  rcases Option.or_eq_some_iff.1 hx with hx | ⟨_, hx⟩
  · exact .inl hx
  · cases hx
    exact .inr hf

theorem AllLabels.filter (h : AllLabels P as) (p : Alternative → Bool) : AllLabels P (as.filter p) :=
  fun a ha => h a (List.mem_filter.1 ha).1

theorem AllLabels.distinct (h : AllLabels P as) : AllLabels P (distinct as) :=
  fun a ha => h a (mem_of_mem_distinct ha)

end Alternative

/-- Every label in the alternatives of auxiliary symbols has the property. -/
def Expansion.Labels (P : FieldId → Prop) (e : Expansion) : Prop :=
  ∀ entry ∈ e.auxiliaries, Alternative.AllLabels P entry.2

variable {P : FieldId → Prop}

theorem labels_addRepetition {scope : ExpansionScope} {alts : List Alternative} {e e' : Expansion}
    {result : Option Symbol} (h : e.Labels P) (halts : Alternative.AllLabels P alts)
    (hadd : addRepetition scope alts e = .ok (result, e')) : e'.Labels P := by
  cases addRepetition_spec hadd with
  | nothing => exact h
  | symbol s name =>
    intro entry hentry
    rcases List.mem_cons.1 hentry with rfl | hentry
    · have hkept := halts.filter fun alt => !alt.steps.isEmpty
      refine Alternative.AllLabels.append ?_ hkept
      intro a ha step hstep
      obtain ⟨b, hb, rfl⟩ := List.mem_map.1 ha
      rcases List.mem_append.1 hstep with hstep | hstep
      · exact Alternative.allLabels_single s _ (List.mem_singleton_self _) step hstep
      · exact hkept b hb step hstep
    · exact h entry hentry

section Expand

variable {scope : ExpansionScope}

mutual

/-- The labels of an expanded rule are the numbers of its field names. -/
theorem Expands.labels {e e' : Expansion} {alts : List Alternative} {rule : Rule} (h : e.Labels P) :
    Expands scope rule e alts e' → (∀ name ∈ rule.fieldNames, P (scope.fieldId name)) →
      e'.Labels P ∧ Alternative.AllLabels P alts
  | .blank, _ => ⟨h, Alternative.allLabels_empty⟩
  | .literal _, _ => ⟨h, Alternative.allLabels_single _⟩
  | .pattern _, _ => ⟨h, Alternative.allLabels_single _⟩
  | .tokenLiteral _, _ => ⟨h, Alternative.allLabels_single _⟩
  | .token _ _, _ => ⟨h, Alternative.allLabels_single _⟩
  | .symbol _, _ => ⟨h, Alternative.allLabels_single _⟩
  | .seq hitems, hnames => hitems.labels h hnames Alternative.allLabels_empty
  | .choice hitems, hnames => hitems.labels h hnames
  | .optional hbody, hnames => by
      obtain ⟨he, hfound⟩ := hbody.labels h hnames
      exact ⟨he, hfound.append Alternative.allLabels_empty⟩
  | .oneOrMore hbody hadd, hnames => by
      obtain ⟨he, hfound⟩ := hbody.labels h hnames
      exact ⟨labels_addRepetition he hfound hadd, Alternative.allLabels_single _⟩
  | .oneOrMoreNothing hbody hadd, hnames => by
      obtain ⟨he, hfound⟩ := hbody.labels h hnames
      exact ⟨labels_addRepetition he hfound hadd, Alternative.allLabels_empty⟩
  | .zeroOrMore hbody hadd, hnames => by
      obtain ⟨he, hfound⟩ := hbody.labels h hnames
      exact ⟨labels_addRepetition he hfound hadd,
        (Alternative.allLabels_single _).append Alternative.allLabels_empty⟩
  | .zeroOrMoreNothing hbody hadd, hnames => by
      obtain ⟨he, hfound⟩ := hbody.labels h hnames
      exact ⟨labels_addRepetition he hfound hadd, Alternative.allLabels_empty⟩
  | .ranked value assoc hbody, hnames => by
      obtain ⟨he, hfound⟩ := hbody.labels h hnames
      exact ⟨he, hfound.rank ⟨value, assoc⟩⟩
  | .weighted value hbody, hnames => by
      obtain ⟨he, hfound⟩ := hbody.labels h hnames
      exact ⟨he, hfound.weigh value⟩
  | .field name hbody, hnames => by
      obtain ⟨he, hfound⟩ := hbody.labels h fun other hother =>
        hnames other (List.mem_cons_of_mem name hother)
      exact ⟨he, hfound.label (hnames name List.mem_cons_self)⟩

theorem ExpandsSeq.labels {e e' : Expansion} {before alts : List Alternative} {items : List Rule}
    (h : e.Labels P) :
    ExpandsSeq scope before items e alts e' →
      (∀ name ∈ Rule.fieldNamesAll items, P (scope.fieldId name)) →
      Alternative.AllLabels P before → e'.Labels P ∧ Alternative.AllLabels P alts
  | .nil, _, hbefore => ⟨h, hbefore⟩
  | .cons hitem hitems, hnames, hbefore => by
      obtain ⟨he, hfound⟩ := hitem.labels h fun name hname =>
        hnames name (List.mem_append_left _ hname)
      exact hitems.labels he (fun name hname => hnames name (List.mem_append_right _ hname))
        (hbefore.product hfound)

theorem ExpandsChoice.labels {e e' : Expansion} {alts : List Alternative} {items : List Rule}
    (h : e.Labels P) :
    ExpandsChoice scope items e alts e' →
      (∀ name ∈ Rule.fieldNamesAll items, P (scope.fieldId name)) →
      e'.Labels P ∧ Alternative.AllLabels P alts
  | .nil, _ => ⟨h, Alternative.allLabels_nil⟩
  | .cons hitem hitems, hnames => by
      obtain ⟨he, hfound⟩ := hitem.labels h fun name hname =>
        hnames name (List.mem_append_left _ hname)
      obtain ⟨he', hrest⟩ := hitems.labels he fun name hname =>
        hnames name (List.mem_append_right _ hname)
      exact ⟨he', hfound.append hrest⟩

end

end Expand

theorem labels_expandRules {scopeOf : String → Symbol → ExpansionScope}
    {symbols : Array SymbolInfo} {rules : List (String × Rule × Symbol)} {expansion : Expansion}
    {productions : List Production}
    (hrules : ∀ rule ∈ rules, ∀ name ∈ rule.2.1.fieldNames,
      P ((scopeOf rule.1 rule.2.2).fieldId name))
    (h : expandRules scopeOf symbols rules = .ok (expansion, productions)) :
    ∀ p ∈ productions, ∀ step ∈ p.steps, ∀ f ∈ step.field, P f := by
  have hproduction : ∀ {alts : List Alternative}, Alternative.AllLabels P alts → ∀ {lhs : Symbol}
      {p : Production}, p ∈ (Alternative.distinct alts).map (·.toProduction lhs) →
      ∀ step ∈ p.steps, ∀ f ∈ step.field, P f := by
    intro alts halts lhs p hp step hstep
    obtain ⟨a, ha, rfl⟩ := List.mem_map.1 hp
    exact halts.distinct a ha step (List.mem_toArray.1 hstep)
  obtain ⟨ps, ⟨hlabels, hps⟩, rfl⟩ := expandRules_induction
    (fun _ e ps => e.Labels P ∧ ∀ p ∈ ps, ∀ step ∈ p.steps, ∀ f ∈ step.field, P f)
    h ⟨fun _ hentry => absurd hentry List.not_mem_nil, by simp⟩ (by
    rintro done name body s rest e e' alts ps rfl hexpand - ⟨hlabels, hps⟩
    obtain ⟨hlabels', halts⟩ := Expands.labels (e := { e with repeatCount := 0 }) hlabels hexpand
      (hrules _ (List.mem_append_right _ List.mem_cons_self))
    refine ⟨hlabels', fun p hp => ?_⟩
    rcases List.mem_append.1 hp with hp | hp
    · exact hps p hp
    · exact hproduction halts hp)
  intro p hp
  rcases List.mem_append.1 hp with hp | hp
  · exact hps p hp
  · obtain ⟨⟨s, alts⟩, hentry, hp⟩ := List.mem_flatMap.1 hp
    exact hproduction (hlabels _ (List.mem_reverse.1 hentry)) hp

/-! ### Extras and the word -/

theorem Extras.mem_named_add {ruleNames : List String} {names : Std.HashMap String Symbol}
    {P : Symbol → Prop} (hnames : MapsTo names P) {e e' : Extras} {rule : Rule}
    (he : ∀ s ∈ e.named, P s) (h : Extras.add ruleNames names e rule = .ok e') :
    ∀ s ∈ e'.named, P s := by
  cases Extras.add_spec h with
  | skip => exact he
  | token hname =>
      intro s hs
      rcases List.mem_append.1 hs with hs | hs
      · exact he s hs
      · rw [List.mem_singleton.1 hs]
        exact hnames _ _ hname

namespace Grammar

/-- Fields, named extras and the word can be looked up. -/
structure References (g : Grammar) : Prop where
  fields : ∀ p ∈ g.productions, ∀ step ∈ p.steps, ∀ f ∈ step.field,
    ∃ i < g.fields.size, f = ⟨i.toUInt16⟩
  extras : ∀ s ∈ g.extras, s.IsToken g.terminalCount
  word : ∀ s ∈ g.word, s.IsToken g.terminalCount

theorem load_references {d : GrammarDef} {g : Grammar} (h : Grammar.load d = .ok g) :
    g.References := by
  obtain ⟨L⟩ := exists_loading h
  have ht := L.terminals_wellFormed
  refine ⟨?_, ?_, L.terminalCount_of ▸ (findKeywords_eq_ok ht L.keywords_eq).1⟩
  · intro p hp step hstep f hf
    rw [← Array.mem_toList_iff, L.productions_of] at hp
    rcases List.mem_cons.1 hp with rfl | hp
    · rw [List.mem_singleton.1 (List.mem_toArray.1 hstep)] at hf
      cases hf
    · refine labels_expandRules (P := fun f => ∃ i < g.fields.size, f = ⟨i.toUInt16⟩) ?_
        L.productions_eq p hp step hstep f hf
      intro rule hrule name hname
      refine ⟨_, ?_, rfl⟩
      rw [L.fields_of, List.size_toArray, List.idxOf_lt_length_iff, sortedNames, List.mem_mergeSort,
        List.mem_eraseDups]
      exact List.mem_flatMap.2 ⟨rule, hrule, hname⟩
  · rw [L.extras_of, L.terminalCount_of]
    exact foldlM_induction
      (fun _ (e : Extras) => ∀ s ∈ e.named, s.IsToken L.terminals.symbols.size) L.extras_eq (by simp)
      fun _ _ _ _ _ _ he hadd => Extras.mem_named_add ht.names he hadd

end Grammar

end IncrementalLR
